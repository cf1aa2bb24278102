import Mathlib.Algebra.BigOperators.Group.Finset.Basic
import Mathlib.Algebra.Order.BigOperators.Group.Finset
import Mathlib.Data.List.Basic
import Mathlib.Tactic

/-!
# Priority arrays

One queue for each priority, and a bitmap that says which of them are not empty.  The first bit that is set
leads to the most urgent element; the number of priorities is the answer when there is none.

* `PrioArray`, `firstBit`, `first`, `add`, `del`;
* `PrioArray.Wf prio`: the bitmap is right, and every element is in the queue of its own priority, once;
* `Wf.first_spec`: the first element of the first queue is one of the most urgent elements;
* `firstBit_add`, `firstBit_del`, `size_add`, `size_del`: what a cached first bit and a count have to
  follow.
-/

/-- Queues by priority with a bitmap. -/
structure PrioArray (α : Type*) where
  queue : ℕ → List α
  bitmap : ℕ → Bool

namespace PrioArray

variable {α : Type*} {n p : ℕ} {a : PrioArray α} {x y : α} {prio prio' : α → ℕ}

instance : Membership α (PrioArray α) := ⟨fun a x => ∃ p, x ∈ a.queue p⟩

/-- The first of the bits below `n` that is set, and `n` if none is. -/
def firstBit (n : ℕ) (a : PrioArray α) : ℕ := ((List.range n).find? a.bitmap).getD n

/-- The first element of the first queue. -/
def first (n : ℕ) (a : PrioArray α) : Option α := (a.queue (a.firstBit n)).head?

/-- The number of elements of priorities below `n`. -/
def size (n : ℕ) (a : PrioArray α) : ℕ := ∑ p ∈ Finset.range n, (a.queue p).length

/-- `x` is put at the head or at the tail of the queue `p`. -/
def add (head : Bool) (p : ℕ) (x : α) (a : PrioArray α) : PrioArray α where
  queue := Function.update a.queue p (if head then x :: a.queue p else a.queue p ++ [x])
  bitmap := Function.update a.bitmap p true

/-- `x` is unlinked, and the bit of the queue `p` is cleared if that leaves it empty. -/
def del [DecidableEq α] (p : ℕ) (x : α) (a : PrioArray α) : PrioArray α where
  queue := fun i => (a.queue i).erase x
  bitmap := if (a.queue p).erase x = [] then Function.update a.bitmap p false else a.bitmap

/-- `x` goes to the tail of the queue `p`, if it is in it. -/
def requeue [DecidableEq α] (p : ℕ) (x : α) (a : PrioArray α) : PrioArray α :=
  if x ∈ a.queue p then { a with queue := Function.update a.queue p ((a.queue p).erase x ++ [x]) } else a

/-- The bitmap tells the queues that are not empty, and each element is in its own queue, once. -/
structure Wf (prio : α → ℕ) (a : PrioArray α) : Prop where
  bit : ∀ p, a.bitmap p = true ↔ a.queue p ≠ []
  place : ∀ p, ∀ x ∈ a.queue p, prio x = p
  nodup : ∀ p, (a.queue p).Nodup

/-! ### The first bit -/

theorem firstBit_le (a : PrioArray α) : a.firstBit n ≤ n := by
  unfold firstBit
  cases h : (List.range n).find? a.bitmap with
  | none => exact le_rfl
  | some i => exact (List.mem_range.1 (List.mem_of_find?_eq_some h)).le

theorem bitmap_firstBit (h : a.firstBit n < n) : a.bitmap (a.firstBit n) = true := by
  unfold firstBit at h ⊢
  cases hf : (List.range n).find? a.bitmap with
  | none =>
    rw [hf] at h
    exact absurd h (lt_irrefl n)
  | some i => exact List.find?_some hf

theorem firstBit_le_of_bitmap (hbit : a.bitmap p = true) : a.firstBit n ≤ p := by
  by_cases hp : p < n
  · unfold firstBit
    cases h : (List.range n).find? a.bitmap with
    | none => exact absurd hbit (List.find?_eq_none.1 h p (List.mem_range.2 hp))
    | some i =>
      obtain ⟨-, -, hmin⟩ := List.find?_range_eq_some.1 h
      by_contra hlt
      have hnot := hmin p (by simpa using hlt)
      rw [hbit] at hnot
      cases hnot
  · exact a.firstBit_le.trans (not_lt.1 hp)

/-- What the first bit is. -/
theorem firstBit_eq (hp : p ≤ n) (hbit : p < n → a.bitmap p = true)
    (hmin : ∀ i, i < p → a.bitmap i = false) : a.firstBit n = p := by
  apply le_antisymm
  · rcases hp.lt_or_eq with hlt | rfl
    · exact firstBit_le_of_bitmap (hbit hlt)
    · exact a.firstBit_le
  · by_contra hlt
    have hset := bitmap_firstBit (lt_of_lt_of_le (not_le.1 hlt) hp)
    rw [hmin _ (not_le.1 hlt)] at hset
    cases hset

theorem firstBit_eq_of_lt {i : ℕ} (hi : i < a.firstBit n) : a.bitmap i = false := by
  by_contra h
  exact absurd (firstBit_le_of_bitmap (Bool.eq_true_of_not_eq_false h)) (not_le.2 hi)

theorem firstBit_add (head : Bool) (hp : p < n) : (a.add head p x).firstBit n = min p (a.firstBit n) := by
  apply firstBit_eq ((min_le_left _ _).trans hp.le)
  · intro _
    rcases le_total p (a.firstBit n) with h | h
    · rw [min_eq_left h]
      simp [add]
    · rw [min_eq_right h]
      have hbit := bitmap_firstBit (a := a) (n := n) (h.trans_lt hp)
      by_cases heq : a.firstBit n = p
      · simp [add, heq]
      · simpa [add, heq] using hbit
  · intro i hi
    obtain ⟨hip, hib⟩ := lt_min_iff.1 hi
    simpa [add, hip.ne] using firstBit_eq_of_lt hib

/-! ### The elements -/

theorem Wf.mem_iff (h : a.Wf prio) : x ∈ a ↔ x ∈ a.queue (prio x) := by
  constructor
  · rintro ⟨p, hp⟩
    rwa [h.place p x hp]
  · exact fun hx => ⟨prio x, hx⟩

/-- The priorities of the elements decide. -/
theorem Wf.congr (h : a.Wf prio) (hprio : ∀ x ∈ a, prio' x = prio x) : a.Wf prio' :=
  ⟨h.bit, fun p x hx => (hprio x ⟨p, hx⟩).trans (h.place p x hx), h.nodup⟩

theorem Wf.first_spec (h : a.Wf prio) (hx : x ∈ a) (hn : prio x < n) :
    ∃ y, a.first n = some y ∧ y ∈ a ∧ prio y = a.firstBit n := by
  have hbit : a.bitmap (prio x) = true := (h.bit _).2 (List.ne_nil_of_mem (h.mem_iff.1 hx))
  have hlt : a.firstBit n < n := (firstBit_le_of_bitmap hbit).trans_lt hn
  have hne := (h.bit _).1 (bitmap_firstBit hlt)
  cases hq : a.queue (a.firstBit n) with
  | nil => exact absurd hq hne
  | cons y rest =>
    have hy : y ∈ a.queue (a.firstBit n) := by rw [hq]; exact List.mem_cons_self
    exact ⟨y, by rw [first, hq]; rfl, ⟨_, hy⟩, h.place _ y hy⟩

/-- No element is more urgent than the first bit. -/
theorem Wf.firstBit_le (h : a.Wf prio) (hx : x ∈ a) : a.firstBit n ≤ prio x :=
  firstBit_le_of_bitmap ((h.bit _).2 (List.ne_nil_of_mem (h.mem_iff.1 hx)))

theorem mem_add {head : Bool} : y ∈ a.add head p x ↔ y = x ∨ y ∈ a := by
  constructor
  · rintro ⟨i, hi⟩
    by_cases hip : i = p
    · subst hip
      cases head <;> simp [add] at hi <;> rcases hi with hi | hi
      all_goals first | exact Or.inl hi | exact Or.inr ⟨_, hi⟩
    · simp only [add, Function.update_of_ne hip] at hi
      exact Or.inr ⟨i, hi⟩
  · rintro (rfl | ⟨i, hi⟩)
    · exact ⟨p, by cases head <;> simp [add]⟩
    · by_cases hip : i = p
      · subst hip
        exact ⟨i, by cases head <;> simp [add, hi]⟩
      · exact ⟨i, by simpa [add, hip] using hi⟩

theorem Wf.add (h : a.Wf prio) (hx : x ∉ a) (head : Bool) : (a.add head (prio x) x).Wf prio := by
  have hnot : x ∉ a.queue (prio x) := fun hq => hx ⟨_, hq⟩
  constructor
  · intro p
    by_cases hp : p = prio x
    · subst hp
      cases head <;> simp [PrioArray.add]
    · simpa [PrioArray.add, hp] using h.bit p
  · intro p y hy
    by_cases hp : p = prio x
    · subst hp
      cases head <;> simp [PrioArray.add] at hy <;> rcases hy with hy | hy
      all_goals first | exact h.place _ y hy | rw [hy]
    · exact h.place p y (by simpa [PrioArray.add, hp] using hy)
  · intro p
    by_cases hp : p = prio x
    · subst hp
      cases head
      · simpa [PrioArray.add, List.nodup_append] using ⟨h.nodup _, fun y hy hyx => hnot (hyx ▸ hy)⟩
      · simpa [PrioArray.add] using ⟨hnot, h.nodup _⟩
    · simpa [PrioArray.add, hp] using h.nodup p

/-- One queue gets another length. -/
theorem size_update {b : PrioArray α} {k : ℕ} (hp : p < n) (hlen : ∀ i, (b.queue i).length =
    Function.update (fun i => (a.queue i).length) p k i) :
    b.size n + (a.queue p).length = a.size n + k := by
  have hsum := Finset.sum_update_of_mem (Finset.mem_range.2 hp) (fun i => (a.queue i).length) k
  have hrest := Finset.add_sum_erase (Finset.range n) (fun i => (a.queue i).length)
    (Finset.mem_range.2 hp)
  rw [Finset.sdiff_singleton_eq_erase] at hsum
  simp only [size, hlen, hsum]
  omega

theorem size_add (head : Bool) (hp : p < n) : (a.add head p x).size n = a.size n + 1 := by
  have hsize := size_update (a := a) (b := a.add head p x) (k := (a.queue p).length + 1) hp
    fun i => by
      by_cases hip : i = p
      · subst hip
        cases head <;> simp [add]
      · simp [add, hip]
  omega

section Del

variable [DecidableEq α]

theorem Wf.del_queue_of_ne (h : a.Wf prio) (hp : p ≠ prio x) : (a.queue p).erase x = a.queue p :=
  List.erase_of_not_mem fun hx => hp (h.place p x hx).symm

theorem Wf.mem_del (h : a.Wf prio) : y ∈ a.del (prio x) x ↔ y ≠ x ∧ y ∈ a := by
  constructor
  · rintro ⟨p, hp⟩
    have hmem : y ∈ (a.queue p).erase x := hp
    rw [(h.nodup p).mem_erase_iff] at hmem
    exact ⟨hmem.1, p, hmem.2⟩
  · rintro ⟨hne, p, hp⟩
    exact ⟨p, (h.nodup p).mem_erase_iff.2 ⟨hne, hp⟩⟩

theorem Wf.del (h : a.Wf prio) : (a.del (prio x) x).Wf prio := by
  constructor
  · intro p
    show (if (a.queue (prio x)).erase x = [] then Function.update a.bitmap (prio x) false
      else a.bitmap) p = true ↔ (a.queue p).erase x ≠ []
    by_cases hp : p = prio x
    · subst hp
      split_ifs with hempty
      · simp [hempty]
      · refine iff_of_true ((h.bit _).2 fun hnil => hempty ?_) hempty
        rw [hnil]
        rfl
    · rw [h.del_queue_of_ne hp]
      split_ifs
      · simpa [hp] using h.bit p
      · exact h.bit p
  · exact fun p y hy => h.place p y (List.mem_of_mem_erase hy)
  · exact fun p => (h.nodup p).erase x

/-- Only the queue of `x` gets shorter. -/
theorem Wf.size_del (h : a.Wf prio) (hx : x ∈ a) (hn : prio x < n) :
    (a.del (prio x) x).size n + 1 = a.size n := by
  have hmem := h.mem_iff.1 hx
  have hpos : 0 < (a.queue (prio x)).length := List.length_pos_of_mem hmem
  have hsize := size_update (a := a) (b := a.del (prio x) x) (k := (a.queue (prio x)).length - 1) hn
    fun i => by
      by_cases hip : i = prio x
      · subst hip
        simp [PrioArray.del, List.length_erase_of_mem hmem]
      · simp [PrioArray.del, hip, h.del_queue_of_ne hip]
  omega

/-- The first bit is another one only if `x` was of the most urgent ones. -/
theorem Wf.firstBit_del (h : a.Wf prio) (hne : prio x ≠ a.firstBit n) :
    (a.del (prio x) x).firstBit n = a.firstBit n := by
  have hsame : ∀ p, p ≠ prio x → (a.del (prio x) x).bitmap p = a.bitmap p := by
    intro p hp
    show (if (a.queue (prio x)).erase x = [] then Function.update a.bitmap (prio x) false
      else a.bitmap) p = a.bitmap p
    split_ifs
    · exact Function.update_of_ne hp _ _
    · rfl
  apply firstBit_eq a.firstBit_le
  · intro hlt
    rw [hsame _ hne.symm]
    exact bitmap_firstBit hlt
  · intro i hi
    by_contra hset
    have hq := (h.del (x := x)).bit i |>.1 (Bool.eq_true_of_not_eq_false hset)
    have hq' : a.queue i ≠ [] := fun hnil => hq (by
      show (a.queue i).erase x = []
      rw [hnil]
      rfl)
    rw [← h.bit, firstBit_eq_of_lt hi] at hq'
    cases hq'

/-- A queue is permuted. -/
theorem requeue_perm (i : ℕ) : ((a.requeue p x).queue i).Perm (a.queue i) := by
  unfold requeue
  split_ifs with hx
  · by_cases hip : i = p
    · subst hip
      simp only [Function.update_self]
      exact (List.perm_append_singleton x _).trans (List.perm_cons_erase hx).symm
    · simp only [Function.update_of_ne hip]
      exact List.Perm.refl _
  · exact List.Perm.refl _

theorem requeue_bitmap : (a.requeue p x).bitmap = a.bitmap := by
  unfold requeue
  split_ifs <;> rfl

theorem mem_requeue : y ∈ a.requeue p x ↔ y ∈ a :=
  exists_congr fun i => (requeue_perm i).mem_iff

theorem Wf.requeue (h : a.Wf prio) : (a.requeue p x).Wf prio := by
  constructor
  · intro i
    rw [requeue_bitmap, h.bit i, Ne, Ne, ← List.length_eq_zero_iff, ← List.length_eq_zero_iff,
      (requeue_perm i).length_eq]
  · exact fun i y hy => h.place i y ((requeue_perm i).mem_iff.1 hy)
  · exact fun i => (requeue_perm i).nodup_iff.2 (h.nodup i)

theorem size_requeue : (a.requeue p x).size n = a.size n :=
  Finset.sum_congr rfl fun i _ => (requeue_perm i).length_eq

theorem firstBit_requeue : (a.requeue p x).firstBit n = a.firstBit n := by
  rw [firstBit, firstBit, requeue_bitmap]

end Del

theorem Wf.size_eq_zero_iff (h : a.Wf prio) : a.size n = 0 ↔ ∀ x ∈ a, n ≤ prio x := by
  rw [size, Finset.sum_eq_zero_iff]
  constructor
  · intro hzero x hx
    by_contra hlt
    have hnil := List.length_eq_zero_iff.1 (hzero (prio x) (Finset.mem_range.2 (not_le.1 hlt)))
    exact absurd (h.mem_iff.1 hx) (by rw [hnil]; exact List.not_mem_nil)
  · intro hall p hp
    rw [List.length_eq_zero_iff, List.eq_nil_iff_forall_not_mem]
    intro x hx
    have hle := hall x ⟨p, hx⟩
    rw [h.place p x hx] at hle
    exact absurd (Finset.mem_range.1 hp) (not_lt.2 hle)

/-- Nothing is set when nothing is left. -/
theorem Wf.firstBit_of_size (h : a.Wf prio) (hzero : a.size n = 0) : a.firstBit n = n := by
  by_contra hne
  have hlt := lt_of_le_of_ne a.firstBit_le hne
  obtain ⟨x, hx⟩ := List.exists_mem_of_ne_nil _ ((h.bit _).1 (bitmap_firstBit hlt))
  have hle := h.size_eq_zero_iff.1 hzero x ⟨_, hx⟩
  rw [h.place _ x hx] at hle
  exact absurd hlt (not_lt.2 hle)

end PrioArray
