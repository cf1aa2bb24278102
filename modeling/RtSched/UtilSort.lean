import RtSched.Base.Loop
import RtSched.BinPacking

/-!
# Sorting the array by utilisation (`bubble_sort`)

`sort_periodic_tasklist` hands its array to `bubble_sort`, whose loops swap neighbours in place,
with one comparison less in each pass, until a pass has swapped nothing.  Every access is checked
here: an index that is not in the array gives no answer.

* `mySwap`, `bubbleSortArray`: the code, on the array;
* `bubbleSortArray_eq`: it ends, and it is the sort of lists (`bubbleSort`) on the first
  `total_tasks` entries, with the rest of the array left alone;
* `bubbleSortArray_sorts`: so these are sorted, and stably.
-/

namespace RtSched

open Loop

/-- `start[j + 1].util > start[j].util`. -/
def utilSwap (a b : TaskCt) : Bool := decide (b.util > a.util)

/-- `my_swap(&start[i], &start[j])`, field by field over a copy of the first entry. -/
def mySwap (start : List TaskCt) (i j : ℕ) : Option (List TaskCt) := do
  let a ← start[i]?
  let b ← start[j]?
  let temp : TaskCt := { budget := a.budget, period := a.period, util := a.util, task := a.task }
  let start := start.set i
    { a with budget := b.budget, period := b.period, util := b.util, task := b.task }
  let b ← start[j]?
  some (start.set j
    { b with budget := temp.budget, period := temp.period, util := temp.util, task := temp.task })

/-- One turn of the inner loop: `j`, the flag and the array. -/
def bubbleInnerTurn (totalTasks i : ℕ) (x : ℕ × Bool × List TaskCt) :
    Option (Loop.Turn (ℕ × Bool × List TaskCt) (Bool × List TaskCt)) :=
  if x.1 < totalTasks - i then do
    let a ← x.2.2[x.1]?
    let b ← x.2.2[x.1 + 1]?
    if utilSwap a b then do
      let start ← mySwap x.2.2 x.1 (x.1 + 1)
      some (.next (x.1 + 1, true, start))
    else some (.next (x.1 + 1, x.2))
  else some (.exit x.2)

/-- One turn of the outer loop: `i`, the flag and the array. -/
def bubbleOuterTurn (fuel totalTasks : ℕ) (x : ℕ × Bool × List TaskCt) :
    Option (Loop.Turn (ℕ × Bool × List TaskCt) (List TaskCt)) :=
  if x.1 ≤ totalTasks ∧ x.2.1 = true then do
    let y ← run (bubbleInnerTurn totalTasks x.1) fuel (0, false, x.2.2)
    some (.next (x.1 + 1, y))
  else some (.exit x.2.2)

/-- `bubble_sort`. -/
def bubbleSortArray (fuel : ℕ) (start : List TaskCt) (totalTasks : ℕ) : Option (List TaskCt) :=
  run (bubbleOuterTurn fuel totalTasks) fuel (1, true, start)

/-! ### The loops are the sort of lists -/

section Loops

variable {pre l u v : List TaskCt} {a b : TaskCt} {total i j k n fuel : ℕ} {flag : Bool}

/-- Two neighbours are swapped. -/
theorem mySwap_append (hj : pre.length = j) :
    mySwap (pre ++ a :: b :: l) j (j + 1) = some (pre ++ b :: a :: l) := by
  subst hj
  simp [mySwap]

theorem getElem?_append_pair (hj : pre.length = j) :
    (pre ++ a :: b :: l)[j]? = some a ∧ (pre ++ a :: b :: l)[j + 1]? = some b := by
  subst hj
  simp

/-- The inner loop from `j` on is a pass over what stands there. -/
theorem bubbleInner_eq (hj : pre.length = j) (hk : j + k = total - i) (hl : k < l.length)
    (hfuel : k < fuel) : run (bubbleInnerTurn total i) fuel (j, flag, pre ++ l) =
      some (flag || (bubblePass utilSwap k l).2, pre ++ (bubblePass utilSwap k l).1) := by
  induction k generalizing pre l j flag fuel with
  | zero =>
    obtain ⟨n, rfl⟩ := Nat.exists_eq_succ_of_ne_zero hfuel.ne'
    have hexit : bubbleInnerTurn total i (j, flag, pre ++ l) = some (.exit (flag, pre ++ l)) :=
      if_neg (by simp only; omega)
    rw [run_succ_exit hexit]
    simp [bubblePass]
  | succ k ih =>
    obtain ⟨n, rfl⟩ := Nat.exists_eq_succ_of_ne_zero (Nat.ne_zero_of_lt hfuel)
    obtain ⟨a, b, l, rfl⟩ : ∃ a b r, l = a :: b :: r := by
      cases l with
      | nil => exact absurd hl (Nat.not_lt_zero _)
      | cons a l =>
        cases l with
        | nil => exact absurd (Nat.lt_of_succ_lt_succ hl) (Nat.not_lt_zero _)
        | cons b r => exact ⟨a, b, r, rfl⟩
    obtain ⟨ha, hb⟩ : (pre ++ a :: b :: l)[j]? = some a ∧ (pre ++ a :: b :: l)[j + 1]? = some b :=
      getElem?_append_pair hj
    have hturn : bubbleInnerTurn total i (j, flag, pre ++ a :: b :: l) =
        if utilSwap a b then some (.next (j + 1, true, pre ++ b :: a :: l))
        else some (.next (j + 1, flag, pre ++ a :: b :: l)) := by
      simp only [bubbleInnerTurn, if_pos (show j < total - i by omega), ha, hb,
        mySwap_append hj, Option.bind_eq_bind, Option.bind_some]
    rw [bubblePass]
    by_cases hswap : utilSwap a b = true
    · rw [if_pos hswap] at hturn ⊢
      rw [run_succ_next hturn, List.append_cons, ih (by simp [hj]) (by omega) (by simpa using hl)
        (by omega)]
      simp
    · rw [if_neg hswap] at hturn ⊢
      rw [run_succ_next hturn, List.append_cons, ih (by simp [hj]) (by omega) (by simpa using hl)
        (by omega)]
      simp

/-- The outer loop from `i` on makes the passes that are left. -/
theorem bubbleOuter_eq (hn : i + n = total + 1) (hi : 1 ≤ i) (hl : total ≤ l.length)
    {fuel' : ℕ} (hfuel : total < fuel) (hfuel' : n < fuel') :
    run (bubbleOuterTurn fuel total) fuel' (i, true, l) =
      some (bubbleFrom utilSwap n n l) := by
  induction n generalizing i l fuel' with
  | zero =>
    obtain ⟨m, rfl⟩ := Nat.exists_eq_succ_of_ne_zero hfuel'.ne'
    have hexit : bubbleOuterTurn fuel total (i, true, l) = some (.exit l) :=
      if_neg (by simp only; omega)
    exact run_succ_exit hexit m
  | succ n ih =>
    obtain ⟨m, rfl⟩ := Nat.exists_eq_succ_of_ne_zero (Nat.ne_zero_of_lt hfuel')
    have hpass : run (bubbleInnerTurn total i) fuel (0, false, [] ++ l) =
        some (false || (bubblePass utilSwap n l).2, [] ++ (bubblePass utilSwap n l).1) :=
      bubbleInner_eq rfl (by omega) (by omega) (by omega)
    have hturn : bubbleOuterTurn fuel total (i, true, l) =
        some (.next (i + 1, (bubblePass utilSwap n l).2, (bubblePass utilSwap n l).1)) := by
      rw [List.nil_append] at hpass
      simp only [bubbleOuterTurn, if_pos (show i ≤ total ∧ True from ⟨by omega, trivial⟩), hpass,
        Option.bind_eq_bind, Option.bind_some, Bool.false_or, List.nil_append]
    rw [run_succ_next hturn, bubbleFrom, Nat.add_sub_cancel]
    have hlen : total ≤ (bubblePass utilSwap n l).1.length := by
      rwa [(bubblePass_perm utilSwap n l).length_eq]
    cases hflag : (bubblePass utilSwap n l).2 with
    | true =>
      rw [if_pos rfl]
      exact ih (by omega) (by omega) hlen (by omega)
    | false =>
      -- a pass without a swap: the flag ends the loop
      obtain ⟨m, rfl⟩ := Nat.exists_eq_succ_of_ne_zero (show m ≠ 0 by omega)
      have hexit : bubbleOuterTurn fuel total (i + 1, false, (bubblePass utilSwap n l).1) =
          some (.exit (bubblePass utilSwap n l).1) := if_neg fun h => Bool.false_ne_true h.2
      rw [if_neg Bool.false_ne_true]
      exact run_succ_exit hexit m

/-- Entries behind the sorted part are not compared. -/
theorem bubbleFrom_append (hk : k ≤ u.length) (hn : n ≤ k) :
    bubbleFrom utilSwap n k (u ++ v) = bubbleFrom utilSwap n k u ++ v := by
  induction n generalizing k u with
  | zero => rfl
  | succ n ih =>
    have hu : k - 1 + 1 ≤ u.length := by omega
    rw [bubbleFrom, bubbleFrom, bubblePass_append hu]
    split_ifs
    · refine ih ?_ (by omega)
      rw [(bubblePass_perm utilSwap _ u).length_eq]
      omega
    · rfl

/-- **`bubble_sort` ends**, and sorts the first `total_tasks` entries as `bubbleSort` does. -/
theorem bubbleSortArray_eq {start : List TaskCt} (htotal : total ≤ start.length)
    (hfuel : total < fuel) : bubbleSortArray fuel start total =
      some (bubbleSort utilSwap (start.take total) ++ start.drop total) := by
  have hlen : (start.take total).length = total := List.length_take_of_le htotal
  have hrun := bubbleOuter_eq (i := 1) (n := total) (by omega) le_rfl htotal hfuel hfuel
  rw [bubbleSortArray, hrun, bubbleSort, hlen]
  conv_lhs => rw [← List.take_append_drop total start]
  rw [bubbleFrom_append hlen.ge le_rfl]

end Loops

/-! ### What the sort gives -/

/-- The first `total` entries of `out` are those of `start`, by decreasing utilisation, and entries of
one utilisation stand in their old order; the others are where they were. -/
structure SortedByUtil (start : List TaskCt) (total : ℕ) (out : List TaskCt) : Prop where
  perm : (out.take total).Perm (start.take total)
  decreasing : (out.take total).Pairwise fun a b => b.util ≤ a.util
  stable : ∀ u, (out.take total).filter (fun c => decide (c.util = u)) =
    (start.take total).filter fun c => decide (c.util = u)
  rest : out.drop total = start.drop total

theorem bubbleSort_utilSwap_sorted (l : List TaskCt) :
    (bubbleSort utilSwap l).Pairwise fun a b => b.util ≤ a.util := by
  have h : (bubbleSort utilSwap l).Pairwise fun a b => utilSwap a b = false := by
    refine bubbleSort_sorted (fun a b => ?_) (fun a b c => ?_) _
    · simp only [utilSwap, decide_eq_true_eq, decide_eq_false_iff_not]
      omega
    · simp only [utilSwap, decide_eq_false_iff_not]
      omega
  refine h.imp fun hab => ?_
  rw [utilSwap, decide_eq_false_iff_not] at hab
  omega

theorem bubbleSort_utilSwap_stable (l : List TaskCt) (u : ℤ) :
    (bubbleSort utilSwap l).filter (fun c => decide (c.util = u)) =
      l.filter fun c => decide (c.util = u) := by
  refine bubbleSort_filter (fun a b ha hb => ?_) _
  rw [decide_eq_true_eq] at ha hb
  rw [utilSwap, decide_eq_false_iff_not, ha, hb]
  exact lt_irrefl u

/-- **`bubble_sort` sorts by utilisation.**  For every array and every number of tasks up to its
length the loops end, and leave the array sorted. -/
theorem bubbleSortArray_sorts (start : List TaskCt) (total : ℕ) (htotal : total ≤ start.length) :
    ∃ out, SortedByUtil start total out ∧
      ∀ fuel, total < fuel → bubbleSortArray fuel start total = some out := by
  have hlen : (bubbleSort utilSwap (start.take total)).length = total := by
    rw [(bubbleSort_perm _ _).length_eq, List.length_take_of_le htotal]
  refine ⟨_, ⟨?_, ?_, fun u => ?_, ?_⟩, fun fuel hfuel => bubbleSortArray_eq htotal hfuel⟩
  · rw [List.take_left' hlen]
    exact bubbleSort_perm _ _
  · rw [List.take_left' hlen]
    exact bubbleSort_utilSwap_sorted _
  · rw [List.take_left' hlen]
    exact bubbleSort_utilSwap_stable _ u
  · exact List.drop_left' hlen

/-- Three tasks of four, of utilisations 300, 700 and 300. -/
theorem bubbleSortArray_sorts_three :
    ∃ out, SortedByUtil [⟨3, 10, 300, 1⟩, ⟨7, 10, 700, 2⟩, ⟨6, 20, 300, 3⟩, ⟨9, 10, 900, 4⟩] 3 out ∧
      out = [⟨7, 10, 700, 2⟩, ⟨3, 10, 300, 1⟩, ⟨6, 20, 300, 3⟩, ⟨9, 10, 900, 4⟩] := by
  obtain ⟨out, hout, hrun⟩ := bubbleSortArray_sorts
    [⟨3, 10, 300, 1⟩, ⟨7, 10, 700, 2⟩, ⟨6, 20, 300, 3⟩, ⟨9, 10, 900, 4⟩] 3 (by decide)
  exact ⟨out, hout, Option.some.inj ((hrun 4 (by decide)).symm.trans (by decide))⟩

end RtSched
