import Mathlib.Data.List.Nodup
import Mathlib.Data.List.Perm.Lattice
import Mathlib.Tactic

/-!
# The order of two elements in a list

`[a, b] <+ l` says that `a` stands before `b` in `l`.

* Of two elements of a list one stands before the other (`pair_or`), and in a list without
  repetitions only one of them does (`pair_asymm`).
* `map_eq_of_order`: two arrangements of the same elements give the same values, position by
  position, if they agree on the order of any two elements with different values.
-/

namespace ListOrder

open List

variable {α β : Type*} {l l' : List α} {a b : α}

theorem pair_or (ha : a ∈ l) (hb : b ∈ l) (hne : a ≠ b) : [a, b] <+ l ∨ [b, a] <+ l := by
  induction l with
  | nil => cases ha
  | cons x l ih =>
    rcases mem_cons.1 ha with rfl | hal
    · have hbl : b ∈ l := (mem_cons.1 hb).resolve_left hne.symm
      exact Or.inl ((singleton_sublist.2 hbl).cons_cons a)
    · rcases mem_cons.1 hb with rfl | hbl
      · exact Or.inr ((singleton_sublist.2 hal).cons_cons b)
      · exact (ih hal hbl).imp (fun h => h.cons x) fun h => h.cons x

/-- What comes after the first element. -/
theorem pair_cons (hnd : (a :: l).Nodup) (h : [b, a] <+ a :: l) : False := by
  obtain ⟨hnot, -⟩ := nodup_cons.1 hnd
  cases h with
  | cons _ h => exact hnot (h.subset (by simp))
  | cons_cons _ h => exact hnot (h.subset (by simp))

theorem pair_asymm (hnd : l.Nodup) (h : [a, b] <+ l) (h' : [b, a] <+ l) : False := by
  induction l with
  | nil => cases h
  | cons x l ih =>
    cases h with
    | cons _ h =>
      cases h' with
      | cons _ h' => exact ih (nodup_cons.1 hnd).2 h h'
      | cons_cons _ _ => exact pair_cons hnd (h.cons b)
    | cons_cons _ h => exact pair_cons hnd h'

/-- Elements with the value of `a` can be passed by `a`. -/
theorem map_append_cons {f : α → β} {pre post : List α} (h : ∀ x ∈ pre, f x = f a) :
    (pre ++ a :: post).map f = f a :: (pre ++ post).map f := by
  induction pre with
  | nil => rfl
  | cons x pre ih =>
    obtain ⟨hx, hpre⟩ := forall_mem_cons.1 h
    rw [cons_append, map_cons, ih hpre, cons_append, map_cons, hx]

theorem map_eq_of_order {f : α → β} (hperm : l ~ l') (hnd : l.Nodup)
    (h : ∀ a b, f a ≠ f b → [a, b] <+ l → [a, b] <+ l') : l.map f = l'.map f := by
  induction l generalizing l' with
  | nil => rw [nil_perm.1 hperm]
  | cons a l ih =>
    obtain ⟨hnot, hnd'⟩ := nodup_cons.1 hnd
    have hnd₁ : l'.Nodup := hperm.nodup_iff.1 hnd
    obtain ⟨pre, post, rfl⟩ := append_of_mem (hperm.subset mem_cons_self)
    have hrest : l ~ pre ++ post := (perm_cons a).1 (hperm.trans perm_middle)
    -- nothing with another value stands before `a`
    have hpre : ∀ x ∈ pre, f x = f a := by
      intro x hx
      by_contra hne
      have hxl : x ∈ l := hrest.symm.subset (mem_append_left _ hx)
      have hbefore := h a x (Ne.symm hne) ((singleton_sublist.2 hxl).cons_cons a)
      refine pair_asymm hnd₁ hbefore ?_
      exact (singleton_sublist.2 hx).append (singleton_sublist.2 mem_cons_self)
    rw [map_append_cons hpre, map_cons]
    refine congrArg _ (ih hrest hnd' fun b c hne hbc => ?_)
    -- `a` is neither of the two, so it can be left out
    classical
    have hab : a ∉ [b, c] := fun hmem => hnot (hbc.subset hmem)
    have hapre : a ∉ pre := fun hmem => hnot (hrest.symm.subset (mem_append_left _ hmem))
    have herase := (h b c hne (hbc.cons a)).erase a
    rwa [erase_of_not_mem hab, erase_append_right _ hapre, erase_cons_head] at herase

end ListOrder
