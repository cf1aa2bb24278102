import RtSched.Base.Word
import RtSched.Admission

/-!
# The schedulability test in 32-bit arithmetic

`__check_admission` as the 32-bit target computes it: budgets and periods are `unsigned long`, the
accumulators of `rt_test` and both arguments of `ceiling` are `long`, and the loop compares an
accumulator with a period, which makes the comparison unsigned.  All of them are `BitVec 32`; `sdiv`
and `srem` are the signed operations, `≤` is the unsigned comparison.

A sum may become negative as a `long`, and it is then larger than every period.  It never wraps past
`2 ^ 32`: the positions accepted before do not ask for more than the processor, so an iterate exceeds
the previous one by at most one job of each task, and these fit into the period
(`rtDemand_lt`).  So the verdict is that of unbounded integers (`checkAdmissionList32_exact`).
-/

namespace RtSched

open TimeDemand Loop Word

/-- `struct task_ct_struct`, with the fields that the test and `sysclock` use. -/
structure TaskCt32 where
  budget : BitVec 32
  period : BitVec 32
  task : Tid := 0
  deriving DecidableEq, Repr, Inhabited

/-- The entry over unbounded integers. -/
def TaskCt32.ct (c : TaskCt32) : TaskCt :=
  { budget := c.budget.toNat, period := c.period.toNat, task := c.task }

/-- `ceiling`, of two `long`s. -/
def ceiling32 (numerator denominator : BitVec 32) : BitVec 32 :=
  if (numerator.srem denominator).toInt > 0 then numerator.sdiv denominator + 1
  else numerator.sdiv denominator

/-- The new value of `curr_a`. -/
def rtDemand32 (list : List TaskCt32) (pos : ℕ) (prevA : BitVec 32) : BitVec 32 :=
  (list.getD pos default).budget +
    ((list.take pos).map fun c => ceiling32 prevA c.period * c.budget).sum

/-- One turn of the loop of `rt_test`. -/
def rtTurn32 (list : List TaskCt32) (pos : ℕ) (prevA : BitVec 32) :
    Option (Loop.Turn (BitVec 32) Bool) :=
  if prevA ≤ (list.getD pos default).period then
    let currA := rtDemand32 list pos prevA
    if prevA = currA then some (.exit true) else some (.next currA)
  else some (.exit false)

/-- `rt_test`. -/
def rtTest32 (fuel : ℕ) (list : List TaskCt32) (pos : ℕ) : Option Bool :=
  run (rtTurn32 list pos) fuel ((list.take (pos + 1)).map TaskCt32.budget).sum

/-- The loop of `__check_admission` from index `i` on, with `n` tasks to go. -/
def checkFrom32 (fuel : ℕ) (list : List TaskCt32) : ℕ → ℕ → Option Bool
  | 0, _ => some true
  | n + 1, i =>
      match rtTest32 fuel list i with
      | some true => checkFrom32 fuel list n (i + 1)
      | some false => some false
      | none => none

/-- `__check_admission`. -/
def checkAdmissionList32 (fuel : ℕ) (list : List TaskCt32) (size : ℕ) : Option Bool :=
  checkFrom32 fuel list size 0

/-- Budgets and periods between 1 and `2 ^ 31 - 1`. -/
def Long (list : List TaskCt32) : Prop :=
  ∀ c ∈ list, (1 ≤ c.budget.toNat ∧ c.budget.toNat ≤ 2 ^ 31 - 1) ∧
    1 ≤ c.period.toNat ∧ c.period.toNat ≤ 2 ^ 31 - 1

/-! ### No accumulator wraps past `2 ^ 32` -/

section Bounds

variable {list : List TaskCt} {pos : ℕ}

/-- The positions before `pos` have been accepted. -/
def AcceptedBefore (list : List TaskCt) (pos : ℕ) : Prop := ∀ k < pos, ∃ t, Covers list k t

/-- Tasks that have been accepted do not ask for more than the processor, and all their jobs fit into
the last period. -/
theorem AcceptedBefore.fits (hw : WfCts list) (hpos : pos ≤ list.length)
    (h : AcceptedBefore list pos) {m : ℤ} (h0 : 0 ≤ m) (hm : ∀ c ∈ list, c.period ≤ m) :
    utilisation TaskCt.budget TaskCt.period (↑(list.take pos) : Multiset TaskCt) ≤ 1 ∧
      ((list.take pos).map TaskCt.budget).sum ≤ m := by
  cases pos with
  | zero => simpa [utilisation] using h0
  | succ pos =>
    obtain ⟨t, ht⟩ := h pos (Nat.lt_succ_self pos)
    obtain ⟨ht0, htp, hd⟩ := (covers_iff hw hpos t).1 ht
    refine ⟨utilisation_le_one (hw.take _).cost ht0 hd, ?_⟩
    have hsum := sum_cost_le_demand (hw.take (pos + 1)).cost (hw.take (pos + 1)).period ht0
    rw [Multiset.map_coe, Multiset.sum_coe] at hsum
    have hlast := hm _ (getD_mem hpos)
    omega

/-- The next value of the accumulator, while all jobs together fit into it. -/
theorem rtDemand_lt (hw : WfCts list) (hpos : pos < list.length)
    (hu : utilisation TaskCt.budget TaskCt.period (↑(list.take pos) : Multiset TaskCt) ≤ 1)
    {a m : ℤ} (ha : 0 ≤ a) (ham : a ≤ m)
    (hsum : ((list.take (pos + 1)).map TaskCt.budget).sum ≤ a) : rtDemand list pos a ≤ 2 * m := by
  have hd := demand_le_add (hw.take pos).cost ha hu
  rw [Multiset.map_coe, Multiset.sum_coe] at hd
  rw [take_succ_getD hpos, List.map_append, List.sum_append] at hsum
  simp only [List.map_cons, List.map_nil, List.sum_cons, List.sum_nil, add_zero] at hsum
  rw [rtDemand_eq hw ha]
  omega

end Bounds

/-! ### In step with unbounded integers -/

section Step

variable {list : List TaskCt32} {pos : ℕ}

theorem Long.wf (h : Long list) : WfCts (list.map TaskCt32.ct) := by
  intro c hc
  obtain ⟨d, hd, rfl⟩ := List.mem_map.1 hc
  have := h d hd
  exact ⟨Int.natCast_nonneg _, by simp only [TaskCt32.ct]; omega⟩

theorem Long.period_le (h : Long list) :
    ∀ c ∈ list.map TaskCt32.ct, c.period ≤ 2 ^ 31 - 1 := by
  intro c hc
  obtain ⟨d, hd, rfl⟩ := List.mem_map.1 hc
  have := h d hd
  simp only [TaskCt32.ct]
  omega

theorem getD_ct (list : List TaskCt32) (pos : ℕ) :
    (list.map TaskCt32.ct).getD pos default = (list.getD pos default).ct := by
  have hdefault : (default : TaskCt32).ct = default := rfl
  rw [← hdefault]
  exact List.getD_map ..

@[simp] theorem ofInt_budget (c : TaskCt32) : BitVec.ofInt 32 c.ct.budget = c.budget := by
  simp only [TaskCt32.ct, ofInt_toNat]

@[simp] theorem ofInt_period (c : TaskCt32) : BitVec.ofInt 32 c.ct.period = c.period := by
  simp only [TaskCt32.ct, ofInt_toNat]

/-- `ceiling` of an accumulator that is not negative as a `long`. -/
theorem ceiling32_eq {c : TaskCt32} (hc : 1 ≤ c.period.toNat) (hc' : c.period.toNat ≤ 2 ^ 31 - 1)
    {a : ℤ} (h0 : 0 ≤ a) (ha : a < 2 ^ 31) :
    ceiling32 (BitVec.ofInt 32 a) c.period = BitVec.ofInt 32 (ceiling a c.ct.period) := by
  have hp : 0 < c.ct.period ∧ c.ct.period < 2 ^ 31 := by
    simp only [TaskCt32.ct]
    omega
  rw [ceiling32, ceiling, ← ofInt_period, srem_ofInt h0 ha hp.1 hp.2,
    sdiv_ofInt h0 ha hp.1 hp.2]
  split_ifs
  · rw [BitVec.ofInt_add]
    rfl
  · rfl

theorem rtDemand32_eq (h : Long list) {a : ℤ} (h0 : 0 ≤ a) (ha : a < 2 ^ 31) :
    rtDemand32 list pos (BitVec.ofInt 32 a) =
      BitVec.ofInt 32 (rtDemand (list.map TaskCt32.ct) pos a) := by
  have hterm : ∀ c ∈ list.take pos, ceiling32 (BitVec.ofInt 32 a) c.period * c.budget =
      BitVec.ofInt 32 (ceiling a c.ct.period * c.ct.budget) := by
    intro c hc
    obtain ⟨-, hp, hp'⟩ := h c (List.mem_of_mem_take hc)
    rw [ceiling32_eq hp hp' h0 ha, BitVec.ofInt_mul, ofInt_budget]
  rw [rtDemand32, rtDemand, getD_ct, BitVec.ofInt_add, List.map_congr_left hterm, ofInt_sum,
    ofInt_budget, ← List.map_take, List.map_map]
  rfl

theorem rtStart32_eq (list : List TaskCt32) (pos : ℕ) :
    ((list.take (pos + 1)).map TaskCt32.budget).sum =
      BitVec.ofInt 32 (((list.map TaskCt32.ct).take (pos + 1)).map TaskCt.budget).sum := by
  rw [← List.map_take, List.map_map, ← ofInt_sum]
  simp only [Function.comp_apply, ofInt_budget]

/-- The accumulators, after as many turns: the register holds the exact value. -/
structure InStep (list : List TaskCt32) (pos : ℕ) (x : BitVec 32) (a : ℤ) : Prop
    extends RtInv (list.map TaskCt32.ct) pos a where
  register : x = BitVec.ofInt 32 a
  lt : a < 2 ^ 32

/-- **One turn.** -/
theorem rtTurn32_rel (h : Long list) (hpos : pos < list.length)
    (hacc : AcceptedBefore (list.map TaskCt32.ct) pos) {x : BitVec 32} {a : ℤ}
    (hx : InStep list pos x a) :
    Option.Rel (Loop.Turn.Rel (InStep list pos) Eq) (rtTurn32 list pos x)
      (rtTurn (list.map TaskCt32.ct) pos a) := by
  have hpos' : pos < (list.map TaskCt32.ct).length := by rwa [List.length_map]
  obtain ⟨hu, -⟩ := hacc.fits h.wf hpos'.le (by norm_num) h.period_le
  have hperiod := h.period_le _ (getD_mem hpos')
  have hperiod' := (h.wf _ (getD_mem hpos')).2
  have hcmp : x ≤ (list.getD pos default).period ↔
      a ≤ ((list.map TaskCt32.ct).getD pos default).period := by
    rw [hx.register, ← ofInt_le_iff hx.nonneg hx.lt (by omega) (by omega), getD_ct, ofInt_period]
  rw [rtTurn32, rtTurn]
  by_cases hle : a ≤ ((list.map TaskCt32.ct).getD pos default).period
  · -- the accumulator is at most the period, so the next one is less than `2 ^ 32`
    have hnext := rtInv_next h.wf hx.toRtInv
    have hlt := rtDemand_lt h.wf hpos' hu hx.nonneg (hle.trans hperiod) hx.start
    have hreg : rtDemand32 list pos (BitVec.ofInt 32 a) = _ := rtDemand32_eq h hx.nonneg (by omega)
    rw [if_pos hle, if_pos (hcmp.2 hle), hx.register, hreg]
    simp only [ofInt_inj hx.nonneg hx.lt hnext.nonneg (by omega)]
    split_ifs
    · exact .some (.exit rfl)
    · exact .some (.next ⟨hnext, rfl, by omega⟩)
  · rw [if_neg hle, if_neg fun hx => hle (hcmp.1 hx)]
    exact .some (.exit rfl)

/-- The test of one position, if those before have been accepted. -/
theorem rtTest32_eq (h : Long list) (hpos : pos < list.length)
    (hacc : AcceptedBefore (list.map TaskCt32.ct) pos) (fuel : ℕ) :
    rtTest32 fuel list pos = rtTest fuel (list.map TaskCt32.ct) pos := by
  have hpos' : pos < (list.map TaskCt32.ct).length := by rwa [List.length_map]
  have hstart : InStep list pos ((list.take (pos + 1)).map TaskCt32.budget).sum
      (((list.map TaskCt32.ct).take (pos + 1)).map TaskCt.budget).sum := by
    refine ⟨rtInv_start h.wf hpos', rtStart32_eq list pos, ?_⟩
    obtain ⟨-, hsum⟩ := hacc.fits h.wf hpos'.le (by norm_num) h.period_le
    have hlast : (list.getD pos default).budget.toNat ≤ 2 ^ 31 - 1 := by
      rw [List.getD_eq_getElem _ _ hpos]
      exact (h _ (List.getElem_mem hpos)).1.2
    rw [take_succ_getD hpos', List.map_append, List.sum_append, getD_ct]
    simp only [List.map_cons, List.map_nil, List.sum_cons, List.sum_nil, TaskCt32.ct] at hsum ⊢
    omega
  have hrel := run_rel (fun _ _ hx => rtTurn32_rel h hpos hacc hx) hstart fuel
  rw [rtTest32, rtTest]
  generalize run (rtTurn32 list pos) fuel _ = r at hrel
  generalize run (rtTurn (list.map TaskCt32.ct) pos) fuel _ = r' at hrel
  cases hrel with
  | none => rfl
  | some heq => rw [heq]

theorem checkFrom32_eq (h : Long list) {n i : ℕ} (hn : i + n ≤ list.length)
    (hacc : AcceptedBefore (list.map TaskCt32.ct) i) (fuel : ℕ) :
    checkFrom32 fuel list n i = checkFrom fuel (list.map TaskCt32.ct) n i := by
  induction n generalizing i with
  | zero => rfl
  | succ n ih =>
    rw [checkFrom32, checkFrom, rtTest32_eq h (by omega) hacc]
    cases hr : rtTest fuel (list.map TaskCt32.ct) i with
    | none => rfl
    | some r =>
      cases r with
      | false => rfl
      | true =>
        refine ih (by omega) fun k hk => ?_
        rcases Nat.lt_succ_iff_lt_or_eq.1 hk with hk | rfl
        · exact hacc k hk
        · exact (rtTest_iff h.wf (by rw [List.length_map]; omega) hr).1 rfl

end Step

/-- **The admission test is exact in machine arithmetic.**  On budgets and periods between 1 and
`2 ^ 31 - 1`, however many, the 32-bit test comes back with the verdict of unbounded integers. -/
theorem checkAdmissionList32_exact (list : List TaskCt32)
    (h : ∀ c ∈ list, (1 ≤ c.budget.toNat ∧ c.budget.toNat ≤ 2 ^ 31 - 1) ∧
      1 ≤ c.period.toNat ∧ c.period.toNat ≤ 2 ^ 31 - 1) (size : ℕ) (hsize : size ≤ list.length) :
    ∃ n, ∀ fuel, n ≤ fuel → ∃ v, checkAdmissionList32 fuel list size = some v ∧
      checkAdmissionList fuel (list.map TaskCt32.ct) size = some v := by
  have hlong : Long list := h
  obtain ⟨n, hn⟩ := exists_fuel hlong.wf
  refine ⟨n, fun fuel hf => ?_⟩
  obtain ⟨v, hv⟩ : ∃ v, checkAdmissionList fuel (list.map TaskCt32.ct) size = some v :=
    checkFrom_isSome fun k _ hk => hn fuel hf k (by rw [List.length_map]; omega)
  refine ⟨v, ?_, hv⟩
  rw [← hv]
  exact checkFrom32_eq hlong (by omega) (fun k hk => absurd hk (Nat.not_lt_zero k)) fuel

/-- Two tasks whose budgets together are negative as a `long`. -/
theorem checkAdmissionList32_exact_pair :
    ∃ n, ∀ fuel, n ≤ fuel → ∃ v,
      checkAdmissionList32 fuel
          [⟨2000000000, 2000000000, 0⟩, ⟨2000000000, 2147483647, 0⟩] 2 = some v ∧
        checkAdmissionList fuel
          [⟨2000000000, 2000000000, 0, 0⟩, ⟨2000000000, 2147483647, 0, 0⟩] 2 = some v :=
  checkAdmissionList32_exact [⟨2000000000, 2000000000, 0⟩, ⟨2000000000, 2147483647, 0⟩] (by decide)
    2 (by decide)

end RtSched
