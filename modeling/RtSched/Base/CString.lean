import Mathlib.Tactic

/-!
# Strings in memory

A memory gives a character to every address, counted from the start of a buffer; what lies behind the
buffer, and what was in it before, is part of the memory as well.

* `read m k`: the first `k` characters;
* `put l off m`: `l` is stored from `off` on;
* `strlen`: the address of the first NUL, in so many steps;
* `IsString nul m l`: a string `l` stands at the start of the memory.
-/

namespace CString

variable {α : Type*} {nul : α} {m : ℕ → α} {l t : List α} {off k : ℕ}

/-- The first `k` characters. -/
def read (m : ℕ → α) (k : ℕ) : List α := (List.range k).map m

/-- `l` is stored from `off` on. -/
def put (l : List α) (off : ℕ) (m : ℕ → α) : ℕ → α :=
  fun i => if off ≤ i then (l[i - off]?).getD (m i) else m i

/-- The first NUL from address `i` on; `none`: not found in `fuel` steps. -/
def strlenFrom [DecidableEq α] (nul : α) (m : ℕ → α) : ℕ → ℕ → Option ℕ
  | 0, _ => none
  | fuel + 1, i => if m i = nul then some i else strlenFrom nul m fuel (i + 1)

/-- `strlen`. -/
def strlen [DecidableEq α] (nul : α) (fuel : ℕ) (m : ℕ → α) : Option ℕ := strlenFrom nul m fuel 0

/-- The string `l` stands at the start of the memory. -/
structure IsString (nul : α) (m : ℕ → α) (l : List α) : Prop where
  text : read m l.length = l
  end_nul : m l.length = nul
  no_nul : nul ∉ l

@[simp] theorem length_read : (read m k).length = k := by simp [read]

theorem read_succ : read m (k + 1) = read m k ++ [m k] := by
  simp [read, List.range_succ]

/-- A shorter piece of a text in memory. -/
theorem read_take (h : read m t.length = t) (hk : k ≤ t.length) : read m k = t.take k := by
  rw [← h, read, read, ← List.map_take, List.take_range, min_eq_left hk]

/-- Below `off` nothing changes. -/
theorem read_put_of_le (h : k ≤ off) : read (put l off m) k = read m k := by
  refine List.map_congr_left fun i hi => ?_
  rw [List.mem_range] at hi
  rw [put, if_neg (by omega)]

/-- What was stored is read. -/
theorem read_put : read (put l off m) (off + l.length) = read m off ++ l := by
  induction l using List.reverseRecOn with
  | nil => rw [List.length_nil, add_zero, List.append_nil, read_put_of_le le_rfl]
  | append_singleton l c ih =>
    have hsame : read (put (l ++ [c]) off m) (off + l.length) = read (put l off m) (off + l.length) := by
      refine List.map_congr_left fun i hi => ?_
      rw [List.mem_range] at hi
      unfold put
      split_ifs with hoff
      · rw [List.getElem?_append_left (by omega)]
      · rfl
    have hlast : put (l ++ [c]) off m (off + l.length) = c := by
      rw [put, if_pos (Nat.le_add_right _ _), Nat.add_sub_cancel_left, List.getElem?_concat_length]
      rfl
    rw [List.length_append, List.length_singleton, ← add_assoc, read_succ, hsame, ih, hlast,
      List.append_assoc]

/-- The text and its NUL. -/
theorem IsString.read_succ_length (h : IsString nul m l) : read m (l.length + 1) = l ++ [nul] := by
  rw [read_succ, h.text, h.end_nul]

theorem isString_of_read (h : read m (l.length + 1) = l ++ [nul]) (hl : nul ∉ l) :
    IsString nul m l := by
  rw [read_succ] at h
  obtain ⟨htext, hnul⟩ := List.append_inj' h rfl
  exact ⟨htext, List.singleton_inj.1 hnul, hl⟩

/-- Storing a string behind a text joins the two. -/
theorem isString_put (h : read m t.length = t) (ht : nul ∉ t) (hl : nul ∉ l) :
    IsString nul (put (l ++ [nul]) t.length m) (t ++ l) := by
  refine isString_of_read ?_ fun hmem => (List.mem_append.1 hmem).elim ht hl
  have hread : read (put (l ++ [nul]) t.length m) (t.length + (l ++ [nul]).length) =
      read m t.length ++ (l ++ [nul]) := read_put
  rw [h, List.length_append, List.length_singleton, ← add_assoc, ← List.append_assoc] at hread
  rw [List.length_append]
  exact hread

/-- A NUL inside a text cuts it. -/
theorem isString_cut (h : read m t.length = t) (ht : nul ∉ t) (hk : k ≤ t.length) :
    IsString nul (put [nul] k m) (t.take k) := by
  have hlen : (t.take k).length = k := by rw [List.length_take, min_eq_left hk]
  have hput := isString_put (l := []) (m := m) (by rw [hlen]; exact read_take h hk)
    (fun hmem => ht (List.mem_of_mem_take hmem)) List.not_mem_nil
  rwa [hlen, List.append_nil] at hput

section Strlen

variable [DecidableEq α]

/-- `strlen` walks over the text and stops at its NUL. -/
theorem IsString.strlen (h : IsString nul m l) {fuel : ℕ} (hf : l.length < fuel) :
    strlen nul fuel m = some l.length := by
  have hwalk : ∀ fuel i, i ≤ l.length → l.length < i + fuel →
      strlenFrom nul m fuel i = some l.length := by
    intro fuel
    induction fuel with
    | zero => intro i hi hf; omega
    | succ fuel ih =>
      intro i hi hf
      rcases hi.eq_or_lt with rfl | hlt
      · rw [strlenFrom, if_pos h.end_nul]
      · have hmem : m i ∈ l := by
          rw [← h.text]
          exact List.mem_map_of_mem (List.mem_range.2 hlt)
        have hne : m i ≠ nul := fun heq => h.no_nul (heq ▸ hmem)
        rw [strlenFrom, if_neg hne]
        exact ih (i + 1) hlt (by omega)
  exact hwalk fuel 0 (Nat.zero_le _) (by omega)

end Strlen

end CString
