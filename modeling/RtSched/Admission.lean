import Mathlib.Data.List.GetD
import RtSched.Base.Demand
import RtSched.Base.Loop
import RtSched.Task

/-!
# The schedulability test (`kernel/sched.c`)

`ceiling`, `rt_test` and `__check_admission`.  The test of task `pos` iterates the demand of the
tasks `0 … pos` from the sum of their budgets until it repeats or exceeds the period.

* `ceiling_eq`: the C function is the ceiling of the quotient;
* `rtTest_iff`: the iteration comes back, and accepts exactly when some instant within the period
  covers the demand;
* `checkAdmissionList_iff`, and `passes_iff_feasible`: on an array sorted by period the verdict is
  the feasibility of its entries as a multiset;
* `checkAdmissionList_sustainable`: so it survives fewer tasks, smaller budgets and another order of
  equal periods.
-/

namespace RtSched

open TimeDemand Loop

/-- `ceiling`. -/
def ceiling (numerator denominator : ℤ) : ℤ :=
  if numerator.tmod denominator > 0 then numerator.tdiv denominator + 1
  else numerator.tdiv denominator

/-- The demand `rt_test` computes from `a`: its own budget once, and every task before it as often
as it is released. -/
def rtDemand (list : List TaskCt) (pos : ℕ) (a : ℤ) : ℤ :=
  (list.getD pos default).budget + ((list.take pos).map fun c => ceiling a c.period * c.budget).sum

/-- One turn of the loop of `rt_test`: `prev_a` is the demand reached so far. -/
def rtTurn (list : List TaskCt) (pos : ℕ) (prevA : ℤ) : Option (Turn ℤ Bool) :=
  if prevA ≤ (list.getD pos default).period then
    let currA := rtDemand list pos prevA
    if prevA = currA then some (.exit true) else some (.next currA)
  else some (.exit false)

/-- `rt_test`. -/
def rtTest (fuel : ℕ) (list : List TaskCt) (pos : ℕ) : Option Bool :=
  run (rtTurn list pos) fuel ((list.take (pos + 1)).map TaskCt.budget).sum

/-- The loop of `__check_admission` from index `i` on, with `n` tasks to go. -/
def checkFrom (fuel : ℕ) (list : List TaskCt) : ℕ → ℕ → Option Bool
  | 0, _ => some true
  | n + 1, i =>
      match rtTest fuel list i with
      | some true => checkFrom fuel list n (i + 1)
      | some false => some false
      | none => none

/-- `__check_admission`. -/
def checkAdmissionList (fuel : ℕ) (list : List TaskCt) (size : ℕ) : Option Bool :=
  checkFrom fuel list size 0

/-! ### The ceiling -/

theorem ceiling_eq {n d : ℤ} (hn : 0 ≤ n) (hd : 0 < d) : ceiling n d = ⌈(n : ℚ) / d⌉ := by
  have hd' : (0 : ℚ) < d := by exact_mod_cast hd
  have hdiv := Int.emod_add_mul_ediv n d
  have hmod := Int.emod_nonneg n hd.ne'
  have hlt := Int.emod_lt_of_pos n hd
  unfold ceiling
  rw [Int.tdiv_eq_ediv_of_nonneg hn, Int.tmod_eq_emod_of_nonneg hn]
  symm
  rw [Int.ceil_eq_iff, lt_div_iff₀ hd', div_le_iff₀ hd']
  split_ifs with h
  · constructor <;> norm_cast <;> nlinarith
  · have h0 : n % d = 0 := by omega
    constructor
    · have : (n / d - 1) * d < n := by nlinarith
      exact_mod_cast this
    · have : n ≤ n / d * d := by nlinarith
      exact_mod_cast this

/-! ### The iteration of `rt_test` -/

/-- Arrays the test is meant for. -/
def WfCts (list : List TaskCt) : Prop := ∀ c ∈ list, 0 ≤ c.budget ∧ 1 ≤ c.period

/-- An instant within the period of task `pos` that covers the demand. -/
def Covers (list : List TaskCt) (pos : ℕ) (t : ℤ) : Prop :=
  0 < t ∧ t ≤ (list.getD pos default).period ∧ rtDemand list pos t ≤ t

section Iteration

variable {list : List TaskCt} {pos : ℕ}

theorem WfCts.take (hw : WfCts list) (n : ℕ) : WfCts (list.take n) :=
  fun c hc => hw c (List.mem_of_mem_take hc)

theorem WfCts.cost (hw : WfCts list) : ∀ c ∈ (↑list : Multiset TaskCt), 0 ≤ c.budget :=
  fun c hc => (hw c hc).1

theorem WfCts.period (hw : WfCts list) : ∀ c ∈ (↑list : Multiset TaskCt), 0 < c.period :=
  fun c hc => (hw c hc).2

theorem getD_mem (hpos : pos < list.length) : list.getD pos default ∈ list := by
  rw [List.getD_eq_getElem _ _ hpos]
  exact List.getElem_mem hpos

theorem take_succ_getD (hpos : pos < list.length) :
    list.take (pos + 1) = list.take pos ++ [list.getD pos default] := by
  rw [List.take_succ_eq_append_getElem hpos, List.getD_eq_getElem _ _ hpos]

/-- The code's demand is its own budget and the demand of the tasks before it. -/
theorem rtDemand_eq (hw : WfCts list) {a : ℤ} (ha : 0 ≤ a) :
    rtDemand list pos a = (list.getD pos default).budget +
      demand TaskCt.budget TaskCt.period (↑(list.take pos) : Multiset TaskCt) a := by
  rw [rtDemand, demand, Multiset.map_coe, Multiset.sum_coe]
  congr 2
  refine List.map_congr_left fun c hc => ?_
  rw [ceiling_eq ha (hw.take pos c hc).2]

theorem rtDemand_mono (hw : WfCts list) {a b : ℤ} (ha : 0 ≤ a) (hab : a ≤ b) :
    rtDemand list pos a ≤ rtDemand list pos b := by
  rw [rtDemand_eq hw ha, rtDemand_eq hw (by omega)]
  have := demand_mono_time (hw.take pos).cost (hw.take pos).period hab
  omega

/-- The iteration starts at the sum of the budgets, which every instant after zero demands. -/
theorem sum_le_rtDemand (hw : WfCts list) (hpos : pos < list.length) {a : ℤ} (ha : 0 < a) :
    ((list.take (pos + 1)).map TaskCt.budget).sum ≤ rtDemand list pos a := by
  rw [rtDemand_eq hw ha.le, take_succ_getD hpos, List.map_append, List.sum_append]
  have := sum_cost_le_demand (hw.take pos).cost (hw.take pos).period ha
  rw [Multiset.map_coe, Multiset.sum_coe] at this
  simp only [List.map_cons, List.map_nil, List.sum_cons, List.sum_nil]
  omega

theorem sum_budget_nonneg (hw : WfCts list) (n : ℕ) :
    0 ≤ ((list.take n).map TaskCt.budget).sum := by
  refine List.sum_nonneg fun x hx => ?_
  obtain ⟨c, hc, rfl⟩ := List.mem_map.1 hx
  exact (hw.take n c hc).1

/-- Before the first microsecond is over every task has been released once. -/
theorem rtDemand_one (hw : WfCts list) (hpos : pos < list.length) :
    rtDemand list pos 1 = ((list.take (pos + 1)).map TaskCt.budget).sum := by
  rw [rtDemand, take_succ_getD hpos, List.map_append, List.sum_append, add_comm]
  congr 2
  · refine List.map_congr_left fun c hc => ?_
    have hp := (hw.take pos c hc).2
    rw [ceiling_eq one_pos.le hp, ceil_eq_one one_pos hp, one_mul]
  · simp

/-- What the loop of `rt_test` keeps: it has not passed its own next value, nor any instant that
covers the demand. -/
structure RtInv (list : List TaskCt) (pos : ℕ) (a : ℤ) : Prop where
  start : ((list.take (pos + 1)).map TaskCt.budget).sum ≤ a
  nonneg : 0 ≤ a
  le : a ≤ rtDemand list pos a
  below : ∀ t, Covers list pos t → a ≤ t

theorem rtInv_start (hw : WfCts list) (hpos : pos < list.length) :
    RtInv list pos ((list.take (pos + 1)).map TaskCt.budget).sum := by
  have h0 := sum_budget_nonneg hw (pos + 1)
  refine ⟨le_rfl, h0, ?_, fun t ht => le_trans (sum_le_rtDemand hw hpos ht.1) ht.2.2⟩
  rcases h0.eq_or_lt with h | h
  · rw [← h, rtDemand_eq hw le_rfl]
    simpa [demand] using (hw _ (getD_mem hpos)).1
  · exact sum_le_rtDemand hw hpos h

theorem rtInv_next (hw : WfCts list) {a : ℤ} (h : RtInv list pos a) :
    RtInv list pos (rtDemand list pos a) := by
  refine ⟨h.start.trans h.le, h.nonneg.trans h.le, rtDemand_mono hw h.nonneg h.le, fun t ht => ?_⟩
  exact le_trans (rtDemand_mono hw h.nonneg (h.below t ht)) ht.2.2

/-- A repeated value covers the demand; from zero, the first microsecond does. -/
theorem covers_of_fixed (hw : WfCts list) (hpos : pos < list.length) {a : ℤ}
    (h : RtInv list pos a) (hle : a ≤ (list.getD pos default).period)
    (hfix : a = rtDemand list pos a) : ∃ t, Covers list pos t := by
  rcases h.nonneg.eq_or_lt with h0 | h0
  · refine ⟨1, one_pos, (hw _ (getD_mem hpos)).2, ?_⟩
    rw [rtDemand_one hw hpos]
    have := h.start
    omega
  · exact ⟨a, h0, hle, hfix.symm.le⟩

/-- `rt_test` comes back, and accepts exactly when some instant covers the demand. -/
theorem rtTest_spec (hw : WfCts list) (hpos : pos < list.length) {fuel : ℕ}
    (hfuel : (list.getD pos default).period.toNat + 1 < fuel) :
    ∃ r, rtTest fuel list pos = some r ∧ (r = true ↔ ∃ t, Covers list pos t) := by
  -- the iterates increase, so the distance to the period bounds the number of turns
  refine run_total (I := RtInv list pos)
    (fun a => ((list.getD pos default).period + 1 - a).toNat) (fun a ha => ?_)
    (rtInv_start hw hpos) ?_
  · by_cases hle : a ≤ (list.getD pos default).period
    · by_cases hfix : a = rtDemand list pos a
      · refine Or.inr ⟨true, ?_, fun _ => covers_of_fixed hw hpos ha hle hfix, fun _ => rfl⟩
        simp only [rtTurn, if_pos hle, if_pos hfix]
      · refine Or.inl ⟨rtDemand list pos a, ?_, rtInv_next hw ha, ?_⟩
        · simp only [rtTurn, if_pos hle, if_neg hfix]
        · have := ha.le
          omega
    · refine Or.inr ⟨false, by simp only [rtTurn, if_neg hle], by simp, ?_⟩
      rintro ⟨t, ht⟩
      have h1 := ha.below t ht
      have h2 := ht.2.1
      omega
  · have := sum_budget_nonneg hw (pos + 1)
    omega

/-- Whatever `rt_test` answered is right. -/
theorem rtTest_iff (hw : WfCts list) (hpos : pos < list.length) {fuel : ℕ} {r : Bool}
    (h : rtTest fuel list pos = some r) : r = true ↔ ∃ t, Covers list pos t := by
  obtain ⟨r', hr', hiff⟩ := rtTest_spec hw hpos (Nat.lt_succ_self _)
  rwa [run_unique h hr']

/-! ### `__check_admission` -/

theorem checkFrom_iff (hw : WfCts list) {fuel n i : ℕ} (hn : i + n ≤ list.length) {v : Bool}
    (h : checkFrom fuel list n i = some v) :
    v = true ↔ ∀ k, i ≤ k → k < i + n → ∃ t, Covers list k t := by
  induction n generalizing i with
  | zero =>
    cases h
    exact ⟨fun _ k h1 h2 => by omega, fun _ => rfl⟩
  | succ n ih =>
    rw [checkFrom] at h
    cases hr : rtTest fuel list i with
    | none => rw [hr] at h; cases h
    | some r =>
      rw [hr] at h
      have hiff := rtTest_iff hw (by omega) hr
      cases r with
      | true =>
        rw [ih (by omega) h]
        constructor
        · intro hall k h1 h2
          rcases h1.eq_or_lt with rfl | h1
          · exact hiff.1 rfl
          · exact hall k h1 (by omega)
        · exact fun hall k h1 h2 => hall k (by omega) (by omega)
      | false =>
        cases h
        refine ⟨Bool.noConfusion, fun hall => ?_⟩
        exact hiff.2 (hall i le_rfl (by omega))

theorem checkAdmissionList_iff (hw : WfCts list) {fuel size : ℕ} (hn : size ≤ list.length) {v : Bool}
    (h : checkAdmissionList fuel list size = some v) :
    v = true ↔ ∀ k < size, ∃ t, Covers list k t := by
  rw [checkFrom_iff hw (by omega) h]
  simp

/-- With enough turns for the largest period, every call of `rt_test` comes back. -/
theorem exists_fuel (hw : WfCts list) : ∃ n, ∀ fuel, n ≤ fuel → ∀ i < list.length,
    ∃ r, rtTest fuel list i = some r := by
  refine ⟨(list.map fun c => c.period.toNat).sum + 2, fun fuel hf i hi => ?_⟩
  have hle : (list.getD i default).period.toNat ≤ (list.map fun c => c.period.toNat).sum :=
    List.single_le_sum (fun _ _ => Nat.zero_le _) _
      (List.mem_map_of_mem (f := fun c : TaskCt => c.period.toNat) (getD_mem hi))
  have hlt : (list.getD i default).period.toNat + 1 < fuel := by omega
  obtain ⟨r, hr, -⟩ := rtTest_spec hw hi hlt
  exact ⟨r, hr⟩

theorem checkFrom_isSome {fuel n i : ℕ}
    (h : ∀ k, i ≤ k → k < i + n → ∃ r, rtTest fuel list k = some r) :
    ∃ v, checkFrom fuel list n i = some v := by
  induction n generalizing i with
  | zero => exact ⟨true, rfl⟩
  | succ n ih =>
    obtain ⟨r, hr⟩ := h i le_rfl (by omega)
    rw [checkFrom, hr]
    cases r with
    | true => exact ih fun k h1 h2 => h k (by omega) (by omega)
    | false => exact ⟨false, rfl⟩

end Iteration

/-- **The admission test is exact.**  On budgets of at least zero and periods of at least one, every
call of `rt_test` comes back, and `__check_admission` accepts exactly when for every task some
instant within its period covers the demand of the tasks up to it. -/
theorem checkAdmissionList_exact (list : List TaskCt) (hw : ∀ c ∈ list, 0 ≤ c.budget ∧ 1 ≤ c.period)
    (size : ℕ) (hsize : size ≤ list.length) :
    ∃ n, ∀ fuel, n ≤ fuel → (∀ i < size, ∃ r, rtTest fuel list i = some r) ∧
      ∃ v, checkAdmissionList fuel list size = some v ∧
        (v = true ↔ ∀ i (hi : i < size), ∃ t : ℤ, 0 < t ∧ t ≤ list[i].period ∧
          ((list.take i).map fun c => ⌈(t : ℚ) / c.period⌉ * c.budget).sum + list[i].budget ≤ t) := by
  obtain ⟨n, hn⟩ := exists_fuel hw
  refine ⟨n, fun fuel hf => ⟨fun i hi => hn fuel hf i (by omega), ?_⟩⟩
  obtain ⟨v, hv⟩ : ∃ v, checkAdmissionList fuel list size = some v :=
    checkFrom_isSome fun k _ hk => hn fuel hf k (by omega)
  refine ⟨v, hv, ?_⟩
  rw [checkAdmissionList_iff hw hsize hv]
  refine forall₂_congr fun i hi => exists_congr fun t => ?_
  rw [Covers, List.getD_eq_getElem _ _ (by omega : i < list.length)]
  refine and_congr_right fun ht => and_congr_right fun _ => ?_
  rw [rtDemand_eq hw ht.le, List.getD_eq_getElem _ _ (by omega : i < list.length), demand,
    Multiset.map_coe, Multiset.sum_coe, add_comm]

theorem checkAdmissionList_exact_pair :
    ∃ n, ∀ fuel, n ≤ fuel → (∀ i < 2, ∃ r, rtTest fuel [⟨1, 4, 0, 0⟩, ⟨2, 6, 0, 0⟩] i = some r) ∧
      ∃ v, checkAdmissionList fuel [⟨1, 4, 0, 0⟩, ⟨2, 6, 0, 0⟩] 2 = some v ∧
        (v = true ↔ ∀ i (hi : i < 2), ∃ t : ℤ, 0 < t ∧
          t ≤ ([⟨1, 4, 0, 0⟩, ⟨2, 6, 0, 0⟩] : List TaskCt)[i].period ∧
          ((([⟨1, 4, 0, 0⟩, ⟨2, 6, 0, 0⟩] : List TaskCt).take i).map fun c =>
            ⌈(t : ℚ) / c.period⌉ * c.budget).sum +
            ([⟨1, 4, 0, 0⟩, ⟨2, 6, 0, 0⟩] : List TaskCt)[i].budget ≤ t) :=
  checkAdmissionList_exact [⟨1, 4, 0, 0⟩, ⟨2, 6, 0, 0⟩] (by decide) 2 (by decide)

/-! ### The verdict -/

/-- `__check_admission` accepts the whole array. -/
def Passes (list : List TaskCt) : Prop :=
  ∃ fuel, checkAdmissionList fuel list list.length = some true

/-- Two answers of the loop agree, however long its tests were followed. -/
theorem checkFrom_unique {list : List TaskCt} {fuel fuel' n i : ℕ} {v v' : Bool}
    (h : checkFrom fuel list n i = some v) (h' : checkFrom fuel' list n i = some v') : v = v' := by
  induction n generalizing i with
  | zero =>
    cases h
    cases h'
    rfl
  | succ n ih =>
    rw [checkFrom] at h h'
    cases hr : rtTest fuel list i with
    | none =>
      rw [hr] at h
      cases h
    | some r =>
      cases hr' : rtTest fuel' list i with
      | none =>
        rw [hr'] at h'
        cases h'
      | some r' =>
        obtain rfl := run_unique hr hr'
        rw [hr] at h
        rw [hr'] at h'
        cases r with
        | true => exact ih h h'
        | false =>
          cases h
          cases h'
          rfl

/-- The answer of the code, whenever it comes. -/
theorem checkAdmissionList_passes {list : List TaskCt} {fuel : ℕ} {v : Bool}
    (h : checkAdmissionList fuel list list.length = some v) : v = true ↔ Passes list := by
  constructor
  · rintro rfl
    exact ⟨fuel, h⟩
  · rintro ⟨fuel', h'⟩
    exact checkFrom_unique h h'

theorem passes_iff {list : List TaskCt} (hw : WfCts list) :
    Passes list ↔ ∀ k < list.length, ∃ t, Covers list k t := by
  constructor
  · rintro ⟨fuel, h⟩
    exact (checkAdmissionList_iff hw le_rfl h).1 rfl
  · intro h
    obtain ⟨n, hn⟩ := exists_fuel hw
    obtain ⟨v, hv⟩ : ∃ v, checkAdmissionList n list list.length = some v :=
      checkFrom_isSome fun k _ hk => hn n le_rfl k (by omega)
    rw [← checkAdmissionList_iff hw le_rfl hv] at h
    exact ⟨n, by rw [hv, h]⟩

/-- An instant covers the code's demand exactly when it covers the demand of the tasks up to
`pos`: within its period a task is released once. -/
theorem covers_iff {list : List TaskCt} (hw : WfCts list) {pos : ℕ} (hpos : pos < list.length)
    (t : ℤ) : Covers list pos t ↔ 0 < t ∧ t ≤ (list.getD pos default).period ∧
      demand TaskCt.budget TaskCt.period (↑(list.take (pos + 1)) : Multiset TaskCt) t ≤ t := by
  refine and_congr_right fun ht => and_congr_right fun htp => ?_
  rw [rtDemand_eq hw ht.le, take_succ_getD hpos, ← Multiset.coe_add, demand_add,
    Multiset.coe_singleton, ← Multiset.cons_zero, demand_cons, demand_zero, ceil_eq_one ht htp]
  constructor <;> intro h <;> omega

/-- An accepted list does not ask for more than the processor. -/
theorem Passes.utilisation_le {list : List TaskCt} (hw : WfCts list) (h : Passes list) :
    utilisation TaskCt.budget TaskCt.period (↑list : Multiset TaskCt) ≤ 1 := by
  rcases Nat.eq_zero_or_pos list.length with h0 | hpos
  · rw [List.eq_nil_of_length_eq_zero h0]
    simp [utilisation]
  · obtain ⟨t, ht⟩ := (passes_iff hw).1 h (list.length - 1) (by omega)
    obtain ⟨ht0, -, hd⟩ := (covers_iff hw (by omega) t).1 ht
    rw [Nat.sub_add_cancel hpos, List.take_length] at hd
    exact utilisation_le_one hw.cost ht0 hd

/-- On an array sorted by period the verdict is the feasibility of its entries, in whatever order
equal periods stand. -/
theorem passes_iff_feasible {list : List TaskCt} (hw : WfCts list)
    (hs : list.Pairwise fun a b => a.period ≤ b.period) :
    Passes list ↔ Feasible TaskCt.budget TaskCt.period (↑list : Multiset TaskCt) := by
  rw [passes_iff hw, ← prefixFeasible_iff hs hw.cost hw.period]
  constructor
  · rintro h u a v rfl
    obtain ⟨t, ht⟩ := h u.length (by simp)
    rw [covers_iff hw (by simp)] at ht
    refine ⟨t, ht.1, ?_, ?_⟩
    · simpa using ht.2.1
    · have hd := ht.2.2
      rw [take_succ_getD (by simp)] at hd
      simpa using hd
  · intro h k hk
    obtain ⟨t, ht, htp, hd⟩ := h (list.take k) (list.getD k default) (list.drop (k + 1)) (by
      rw [List.append_cons, ← take_succ_getD hk, List.take_append_drop])
    refine ⟨t, (covers_iff hw hk t).2 ⟨ht, htp, ?_⟩⟩
    rwa [take_succ_getD hk]

/-! ### Sustainability -/

/-- One entry deleted, one budget lowered, or two neighbours of equal period exchanged. -/
inductive EaseStep : List TaskCt → List TaskCt → Prop
  | delete (u : List TaskCt) (c : TaskCt) (v : List TaskCt) : EaseStep (u ++ c :: v) (u ++ v)
  | lower (u : List TaskCt) (c : TaskCt) (v : List TaskCt) {budget : ℤ} (h0 : 0 ≤ budget)
      (hle : budget ≤ c.budget) : EaseStep (u ++ c :: v) (u ++ { c with budget := budget } :: v)
  | swap (u : List TaskCt) (c d : TaskCt) (v : List TaskCt) (h : c.period = d.period) :
      EaseStep (u ++ c :: d :: v) (u ++ d :: c :: v)

/-- An array as `__check_admission` gets it. -/
structure SortedCts (list : List TaskCt) : Prop where
  wf : WfCts list
  sorted : list.Pairwise fun a b => a.period ≤ b.period

theorem EaseStep.sortedCts {list list' : List TaskCt} (h : EaseStep list list')
    (hl : SortedCts list) : SortedCts list' := by
  obtain ⟨hw, hs⟩ := hl
  cases h with
  | delete u c v =>
    have hsub : List.Sublist (u ++ v) (u ++ c :: v) :=
      List.Sublist.append_left (List.sublist_cons_self c v) u
    exact ⟨fun d hd => hw d (hsub.subset hd), hs.sublist hsub⟩
  | @lower u c v budget h0 hle =>
    refine ⟨fun d hd => ?_, ?_⟩
    · rw [List.mem_append, List.mem_cons] at hd
      rcases hd with hd | rfl | hd
      · exact hw d (List.mem_append_left _ hd)
      · exact ⟨h0, (hw c (by simp)).2⟩
      · exact hw d (by simp [hd])
    · rw [List.pairwise_append, List.pairwise_cons] at hs ⊢
      exact ⟨hs.1, hs.2.1, fun a ha b hb => by
        rcases List.mem_cons.1 hb with rfl | hb
        · exact hs.2.2 a ha c List.mem_cons_self
        · exact hs.2.2 a ha b (List.mem_cons_of_mem _ hb)⟩
  | swap u c d v heq =>
    have hperm : (u ++ d :: c :: v).Perm (u ++ c :: d :: v) :=
      (List.Perm.swap c d v).append_left u
    refine ⟨fun b hb => hw b (hperm.mem_iff.1 hb), ?_⟩
    simp only [List.pairwise_append, List.pairwise_cons, List.mem_cons] at hs ⊢
    grind

theorem EaseStep.feasible {list list' : List TaskCt} (h : EaseStep list list')
    (hw : WfCts list) (hf : Feasible TaskCt.budget TaskCt.period (↑list : Multiset TaskCt)) :
    Feasible TaskCt.budget TaskCt.period (↑list' : Multiset TaskCt) := by
  cases h with
  | delete u c v =>
    refine hf.mono ?_ hw.cost hw.period
    exact Multiset.coe_le.2 (List.Sublist.append_left (List.sublist_cons_self c v) u).subperm
  | @lower u c v budget h0 hle =>
    -- the entry that changes, in front of the others
    have hfront : ∀ d, (↑(u ++ d :: v) : Multiset TaskCt) = d ::ₘ ↑(u ++ v) :=
      fun d => Multiset.coe_eq_coe.2 List.perm_middle
    have hpos := (hw c (by simp)).2
    rw [hfront] at hf ⊢
    exact hf.replace hle rfl hpos
  | swap u c d v heq =>
    have hperm : (↑(u ++ d :: c :: v) : Multiset TaskCt) = ↑(u ++ c :: d :: v) :=
      Multiset.coe_eq_coe.2 ((List.Perm.swap c d v).append_left u)
    rwa [hperm]

/-- The test accepts for all that follow once it has accepted. -/
theorem Passes.returns {list : List TaskCt} (hw : WfCts list) (h : Passes list) :
    ∃ n, ∀ fuel, n ≤ fuel → checkAdmissionList fuel list list.length = some true := by
  obtain ⟨n, hn⟩ := exists_fuel hw
  refine ⟨n, fun fuel hf => ?_⟩
  obtain ⟨v, hv⟩ : ∃ v, checkAdmissionList fuel list list.length = some v :=
    checkFrom_isSome fun k _ hk => hn fuel hf k (by omega)
  rw [hv, (checkAdmissionList_passes hv).2 h]

/-- **The admission test is sustainable.**  What `__check_admission` has accepted it accepts after
entries have been deleted, budgets lowered and entries of equal period exchanged; and its verdict is
the same for every order of the entries that is sorted by period. -/
theorem checkAdmissionList_sustainable (list : List TaskCt)
    (hw : ∀ c ∈ list, 0 ≤ c.budget ∧ 1 ≤ c.period)
    (hs : list.Pairwise fun a b => a.period ≤ b.period) :
    (∀ fuel, checkAdmissionList fuel list list.length = some true →
      ∀ list', Relation.ReflTransGen EaseStep list list' →
        ∃ n, ∀ fuel, n ≤ fuel → checkAdmissionList fuel list' list'.length = some true) ∧
    ∀ list', list'.Perm list → (list'.Pairwise fun a b => a.period ≤ b.period) →
      ∃ n, ∀ fuel, n ≤ fuel → ∃ v, checkAdmissionList fuel list list.length = some v ∧
        checkAdmissionList fuel list' list'.length = some v := by
  constructor
  · intro fuel hpass list' hease
    have hfeas := (passes_iff_feasible hw hs).1 ⟨fuel, hpass⟩
    -- both facts along the steps, since the next step needs a sorted array
    have hend : SortedCts list' ∧
        Feasible TaskCt.budget TaskCt.period (↑list' : Multiset TaskCt) := by
      induction hease with
      | refl => exact ⟨⟨hw, hs⟩, hfeas⟩
      | tail _ hstep ih => exact ⟨hstep.sortedCts ih.1, hstep.feasible ih.1.wf ih.2⟩
    exact Passes.returns hend.1.wf ((passes_iff_feasible hend.1.wf hend.1.sorted).2 hend.2)
  · intro list' hperm hs'
    have hw' : WfCts list' := fun c hc => hw c (hperm.mem_iff.1 hc)
    have hsame : Passes list ↔ Passes list' := by
      rw [passes_iff_feasible hw hs, passes_iff_feasible hw' hs', Multiset.coe_eq_coe.2 hperm]
    obtain ⟨n, hn⟩ := exists_fuel hw
    obtain ⟨n', hn'⟩ := exists_fuel hw'
    refine ⟨max n n', fun fuel hf => ?_⟩
    obtain ⟨v, hv⟩ : ∃ v, checkAdmissionList fuel list list.length = some v :=
      checkFrom_isSome fun k _ hk => hn fuel (by omega) k (by omega)
    obtain ⟨v', hv'⟩ : ∃ v, checkAdmissionList fuel list' list'.length = some v :=
      checkFrom_isSome fun k _ hk => hn' fuel (by omega) k (by omega)
    have heq : v = v' := by
      rw [Bool.eq_iff_iff, checkAdmissionList_passes hv, checkAdmissionList_passes hv', hsame]
    exact ⟨v, hv, heq ▸ hv'⟩

/-- The second of two tasks deleted, and the first one's budget lowered. -/
theorem checkAdmissionList_sustainable_pair :
    ∃ n, ∀ fuel, n ≤ fuel → checkAdmissionList fuel [⟨1, 4, 0, 0⟩] 1 = some true := by
  have hease : Relation.ReflTransGen EaseStep [⟨2, 4, 0, 0⟩, ⟨2, 6, 0, 0⟩] [⟨1, 4, 0, 0⟩] :=
    .tail (.single (.delete [⟨2, 4, 0, 0⟩] ⟨2, 6, 0, 0⟩ []))
      (.lower [] ⟨2, 4, 0, 0⟩ [] (by decide) (by decide))
  exact (checkAdmissionList_sustainable [⟨2, 4, 0, 0⟩, ⟨2, 6, 0, 0⟩] (by decide) (by decide)).1 10
    (by decide) _ hease

end RtSched
