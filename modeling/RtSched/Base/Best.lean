import Mathlib.Tactic

/-!
# The best element of a list

A scan that keeps the best element it has seen, for an order that is given as a relation.

* `keep`: a turn of the scan;
* `IsBest`: what has been kept is a best one of the good elements.
-/

namespace Best

variable {α : Type*} {le : α → α → Prop} {good : α → Prop} {l : List α} {o : Option α} {w x : α}

/-- `o` is a best one of the good elements of `l`, or nothing if there is none. -/
structure IsBest (le : α → α → Prop) (good : α → Prop) (l : List α) (o : Option α) : Prop where
  mem : ∀ x ∈ o, x ∈ l ∧ good x
  best : ∀ y ∈ l, good y → ∃ x ∈ o, le x y

theorem isBest_nil : IsBest le good [] none := by
  constructor
  · intro x hx
    cases hx
  · intro y hy
    cases hy

theorem IsBest.skip (h : IsBest le good l o) (hx : ¬ good x) : IsBest le good (l ++ [x]) o := by
  refine ⟨fun y hy => ?_, fun y hy hgood => ?_⟩
  · obtain ⟨hl, hgood⟩ := h.mem y hy
    exact ⟨List.mem_append_left _ hl, hgood⟩
  · rcases List.mem_append.1 hy with hl | heq
    · exact h.best y hl hgood
    · rw [List.mem_singleton.1 heq] at hgood
      exact absurd hgood hx

/-- An element as good as the new one and as what was kept so far. -/
theorem IsBest.of_le [IsTrans α le] (h : IsBest le good l o) (hw : w ∈ l ++ [x] ∧ good w) (hwx : le w x)
    (hwo : ∀ z ∈ o, le w z) : IsBest le good (l ++ [x]) (some w) := by
  refine ⟨fun y hy => ?_, fun y hy hgood => ⟨w, rfl, ?_⟩⟩
  · cases hy
    exact hw
  · rcases List.mem_append.1 hy with hl | heq
    · obtain ⟨z, hz, hzy⟩ := h.best y hl hgood
      exact IsTrans.trans w z y (hwo z hz) hzy
    · rw [List.mem_singleton.1 heq]
      exact hwx

/-- `x`, if it is as good as what was kept so far. -/
def keep (le : α → α → Prop) [DecidableRel le] (o : Option α) (x : α) : Option α :=
  match o with
  | none => some x
  | some y => if le x y then some x else some y

theorem IsBest.keep [DecidableRel le] [IsTrans α le] [Std.Total le] (h : IsBest le good l o)
    (hx : good x) : IsBest le good (l ++ [x]) (keep le o x) := by
  have hself : ∀ y, le y y := fun y => (Std.Total.total (r := le) y y).elim id id
  have hnew : x ∈ l ++ [x] ∧ good x := ⟨List.mem_append_right _ (List.mem_singleton_self x), hx⟩
  cases o with
  | none =>
    refine h.of_le hnew (hself x) fun z hz => ?_
    cases hz
  | some y =>
    obtain ⟨hy, hgood⟩ := h.mem y rfl
    rw [Best.keep]
    split_ifs with hle
    · refine h.of_le hnew (hself x) fun z hz => ?_
      cases hz
      exact hle
    · refine h.of_le ⟨List.mem_append_left _ hy, hgood⟩ ?_ fun z hz => ?_
      · exact (Std.Total.total (r := le) x y).resolve_left hle
      · cases hz
        exact hself y

end Best
