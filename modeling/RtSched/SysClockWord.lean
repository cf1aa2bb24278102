import RtSched.AdmissionWord
import RtSched.SysClock

/-!
# `sysclock` in 32-bit arithmetic

`sysclock` as the 32-bit target computes it: every variable is an `unsigned long`, only the arguments
of `ceiling` are `long`.  On a list that `__check_admission` accepts, with periods below `2 ^ 31`, one
operation alone can wrap, the scaled workload `w * SCALE_UP_FACTOR` (`walkTurn32_rel`):

* an iterate of a busy period exceeds the previous one by at most one job of each task, and these
  fit into the previous one as soon as every task has been counted once (`Roomy.next_lt`);
* only the first busy period of a task entered with the flag cleared starts below that.  Its idle
  time is at most 234567, or the other tasks have no more than what the budget leaves
  (`Roomy.stale_lt`).

So the walk goes in step with one over unbounded integers in which the scaled workload is taken
modulo `2 ^ 32` (`walkTurnMod`).
-/

namespace RtSched

open TimeDemand Loop Word

/-! ### The code -/

/-- The work released up to and including `c`. -/
def releasedUpTo32 (list : List TaskCt32) (i : ℕ) (c : BitVec 32) : BitVec 32 :=
  ((list.take (i + 1)).map fun d => (c / d.period + 1) * d.budget).sum

/-- One turn of the loop of a busy period. -/
def busyTurn32 (list : List TaskCt32) (i : ℕ) (slack period : BitVec 32) (x : BitVec 32 × Bool) :
    Option (Loop.Turn (BitVec 32 × Bool) (BitVec 32)) :=
  if x.1 < period ∧ x.2 = true then
    let cTemp := slack + releasedUpTo32 list i x.1
    some (.next (cTemp, decide (0 < cTemp - x.1)))
  else some (.exit x.1)

/-- The idle time from `c` on. -/
def idleDuration32 (list : List TaskCt32) (i : ℕ) (period c : BitVec 32) : BitVec 32 :=
  let idle := (list.take (i + 1)).foldl (fun idle d =>
    let temp := ceiling32 c d.period * d.period - c
    if temp < idle then temp else idle) 234567
  if period - c < idle then period - c else idle

/-- The variables of the walk. -/
structure Walk32 where
  inBzp : Bool
  c : BitVec 32
  slack : BitVec 32
  alpha : BitVec 32
  deriving DecidableEq, Repr

/-- One turn of the walk. -/
def walkTurn32 (fuel : ℕ) (list : List TaskCt32) (i : ℕ) (w : Walk32) :
    Option (Loop.Turn Walk32 Walk32) :=
  let period := (list.getD i default).period
  if w.c < period then
    if w.inBzp then do
      let c ← run (busyTurn32 list i w.slack period) fuel (w.c, true)
      some (.next { w with c := c, inBzp := false })
    else
      let idle := idleDuration32 list i period w.c
      let tW := w.c + idle
      let slack := w.slack + idle
      let speed := (tW - slack) * 1000 / tW
      some (.next { inBzp := true, c := tW, slack := slack,
                    alpha := if w.alpha < speed then w.alpha else speed })
  else some (.exit w)

/-- The part of `sysclock` for task `i`. -/
def alphaOf32 (fuel : ℕ) (list : List TaskCt32) (i : ℕ) (inBzp : Bool) : Option Walk32 :=
  run (walkTurn32 fuel list i) fuel ⟨inBzp, (list.getD i default).budget, 0, 2000⟩

/-- The speeds of `n` tasks from task `i` on. -/
def alphasFrom32 (fuel : ℕ) (list : List TaskCt32) : ℕ → ℕ → Bool → Option (List (BitVec 32))
  | 0, _, _ => some []
  | n + 1, i, inBzp => do
      let w ← alphaOf32 fuel list i inBzp
      let rest ← alphasFrom32 fuel list n (i + 1) w.inBzp
      some (w.alpha :: rest)

/-- What `sysclock` computes: every task's speed, and the frequency in kHz. -/
def sysclockSpeeds32 (fuel : ℕ) (maxFrequency : BitVec 32) (list : List TaskCt32) (size : ℕ) :
    Option (List (BitVec 32) × BitVec 32) := do
  let alphas ← alphasFrom32 fuel list size 0 true
  let maxAlpha := alphas.foldl (fun m a => if m < a then a else m) 0
  some (alphas, maxFrequency * maxAlpha)

/-- `walkTurn` with the scaled workload taken modulo `2 ^ 32`. -/
def walkTurnMod (fuel : ℕ) (list : List TaskCt) (i : ℕ) (w : Walk) : Option (Loop.Turn Walk Walk) :=
  let period := (list.getD i default).period
  if w.c < period then
    if w.inBzp then do
      let c ← run (busyTurn list i w.slack period) fuel (w.c, true)
      some (.next { w with c := c, inBzp := false })
    else
      let idle := idleDuration list i period w.c
      let tW := w.c + idle
      let slack := w.slack + idle
      let speed := (tW - slack) * scaleUpFactor % 2 ^ 32 / tW
      some (.next { inBzp := true, c := tW, slack := slack,
                    alpha := if w.alpha < speed then w.alpha else speed })
  else some (.exit w)

def alphaOfMod (fuel : ℕ) (list : List TaskCt) (i : ℕ) (inBzp : Bool) : Option Walk :=
  run (walkTurnMod fuel list i) fuel ⟨inBzp, (list.getD i default).budget, 0, 2 * scaleUpFactor⟩

/-! ### Bounds -/

/-- The tasks `0 … i` do not ask for more than the processor, all their jobs fit into the period of
task `i`, and that is below `2 ^ 31`. -/
structure Roomy (list : List TaskCt) (i : ℕ) : Prop where
  wf : WfCts list
  lt : i < list.length
  util : utilisation TaskCt.budget TaskCt.period (↑(list.take (i + 1)) : Multiset TaskCt) ≤ 1
  sum : ((list.take (i + 1)).map TaskCt.budget).sum ≤ (list.getD i default).period
  period : (list.getD i default).period < 2 ^ 31

section Bounds

variable {list : List TaskCt} {i : ℕ}

theorem Roomy.budget_le (h : Roomy list i) :
    0 ≤ (list.getD i default).budget ∧
      (list.getD i default).budget ≤ ((list.take (i + 1)).map TaskCt.budget).sum := by
  refine ⟨(h.wf _ (getD_mem h.lt)).1, ?_⟩
  have := sum_budget_nonneg h.wf i
  rw [take_succ_getD h.lt, List.map_append, List.sum_append]
  simp only [List.map_cons, List.map_nil, List.sum_cons, List.sum_nil]
  omega

theorem releasedUpTo_mono (h : WfCts list) {c d : ℤ} (hcd : c ≤ d) :
    releasedUpTo list i c ≤ releasedUpTo list i d := by
  rw [releasedUpTo_eq h, releasedUpTo_eq h]
  exact workBefore_mono h (by omega)

/-- Every task has been counted. -/
theorem sum_le_releasedUpTo (h : WfCts list) {c : ℤ} (hc : 0 ≤ c) :
    ((list.take (i + 1)).map TaskCt.budget).sum ≤ releasedUpTo list i c := by
  rw [releasedUpTo_eq h, ← Multiset.sum_coe, ← Multiset.map_coe]
  exact sum_cost_le_demand (h.take _).cost (h.take _).period (by omega)

theorem Roomy.releasedUpTo_le (h : Roomy list i) {c : ℤ} (hc : 0 ≤ c) :
    releasedUpTo list i c ≤ c + 1 + ((list.take (i + 1)).map TaskCt.budget).sum := by
  rw [releasedUpTo_eq h.wf, ← Multiset.sum_coe, ← Multiset.map_coe]
  exact demand_le_add (h.wf.take _).cost (by omega) h.util

/-- The next iterate, once every task has been counted. -/
theorem Roomy.next_lt (h : Roomy list i) {slack c : ℤ} (hslack : 0 ≤ slack)
    (hc : slack + ((list.take (i + 1)).map TaskCt.budget).sum ≤ c)
    (hlt : c < (list.getD i default).period) : slack + releasedUpTo list i c < 2 ^ 32 := by
  have hsum := sum_budget_nonneg h.wf (i + 1)
  have := h.releasedUpTo_le (by omega : 0 ≤ c)
  have := h.period
  omega

/-- A large budget leaves little to the other tasks before the deadline. -/
theorem Roomy.workBefore_le (h : Roomy list i) :
    workBefore list i (list.getD i default).period ≤
      2 * (list.getD i default).period - (list.getD i default).budget := by
  have hp : 0 < (list.getD i default).period := (h.wf _ (getD_mem h.lt)).2
  have hp' : (0 : ℚ) < (list.getD i default).period := by exact_mod_cast hp
  have hsplit := take_succ_getD h.lt
  have hutil := h.util
  have hsum := h.sum
  rw [hsplit, ← Multiset.coe_add, Multiset.coe_singleton, utilisation, Multiset.map_add,
    Multiset.sum_add, Multiset.map_singleton, Multiset.sum_singleton] at hutil
  rw [hsplit, List.map_append, List.sum_append] at hsum
  simp only [List.map_cons, List.map_nil, List.sum_cons, List.sum_nil, add_zero] at hsum
  have hbefore : (demand TaskCt.budget TaskCt.period (↑(list.take i) : Multiset TaskCt)
      (list.getD i default).period : ℚ) ≤ _ :=
    demand_le_mul_utilisation_add (list.getD i default).period (h.wf.take i).cost
  rw [utilisation, Multiset.map_coe TaskCt.budget, Multiset.sum_coe] at hbefore
  have hshare : ((list.getD i default).period : ℚ) *
      ((list.getD i default).budget / (list.getD i default).period) =
      (list.getD i default).budget := mul_div_cancel₀ _ hp'.ne'
  have hcast : (demand TaskCt.budget TaskCt.period (↑(list.take i) : Multiset TaskCt)
      (list.getD i default).period : ℚ) ≤
      ((2 * ((list.getD i default).period - (list.getD i default).budget) : ℤ) : ℚ) := by
    have hsum' : (((list.take i).map TaskCt.budget).sum : ℚ) + (list.getD i default).budget ≤
        (list.getD i default).period := by exact_mod_cast hsum
    push_cast
    nlinarith
  have hdemand : demand TaskCt.budget TaskCt.period (↑(list.take i) : Multiset TaskCt)
      (list.getD i default).period ≤
      2 * ((list.getD i default).period - (list.getD i default).budget) := by exact_mod_cast hcast
  rw [workBefore, hsplit, ← Multiset.coe_add, demand_add, Multiset.coe_singleton,
    ← Multiset.cons_zero, demand_cons, demand_zero, ceil_eq_one hp le_rfl]
  omega

/-- The first iterate of a task entered with the flag cleared. -/
theorem Roomy.stale_lt (h : Roomy list i) {idle : ℤ} (h0 : 0 ≤ idle) (hcap : idle ≤ 234567)
    (hlt : (list.getD i default).budget + idle < (list.getD i default).period) :
    idle + releasedUpTo list i ((list.getD i default).budget + idle) < 2 ^ 32 := by
  obtain ⟨hb, hbs⟩ := h.budget_le
  have hsum := h.sum
  have hperiod := h.period
  rcases le_or_gt (list.getD i default).budget 234567 with hsmall | hlarge
  · have := h.releasedUpTo_le (by omega : 0 ≤ (list.getD i default).budget + idle)
    omega
  · have := h.workBefore_le
    have hle : releasedUpTo list i ((list.getD i default).budget + idle) ≤
        workBefore list i (list.getD i default).period := by
      rw [releasedUpTo_eq h.wf]
      exact workBefore_mono h.wf (by omega)
    omega

end Bounds

/-! ### In step with unbounded integers -/

/-- What the walk keeps of the bounds. -/
structure Fits (list : List TaskCt) (i : ℕ) (w : Walk) : Prop where
  slack : 0 ≤ w.slack
  le : w.slack ≤ w.c
  lt : w.c < 2 ^ 32
  up : w.c ≤ w.slack + releasedUpTo list i w.c
  alpha : 0 ≤ w.alpha ∧ w.alpha ≤ 2 * scaleUpFactor
  busy : w.inBzp = true → w.c < (list.getD i default).period →
    w.slack + releasedUpTo list i w.c < 2 ^ 32
  idle : w.inBzp = false → w.c < (list.getD i default).period →
    w.slack + ((list.take (i + 1)).map TaskCt.budget).sum ≤ w.c ∨
      w.slack = 0 ∧ w.c = (list.getD i default).budget

/-- What the loop of a busy period keeps of them. -/
structure BusyFits (list : List TaskCt) (i : ℕ) (slack : ℤ) (x : ℤ × Bool) : Prop where
  le : slack ≤ x.1
  lt : x.1 < 2 ^ 32
  up : x.1 ≤ slack + releasedUpTo list i x.1
  next : x.2 = true → x.1 < (list.getD i default).period →
    slack + releasedUpTo list i x.1 < 2 ^ 32
  counted : x.2 = false → slack + ((list.take (i + 1)).map TaskCt.budget).sum ≤ x.1

section Exact

variable {list : List TaskCt} {i : ℕ}

theorem Fits.start (h : Roomy list i) (inBzp : Bool) :
    Fits list i ⟨inBzp, (list.getD i default).budget, 0, 2 * scaleUpFactor⟩ := by
  obtain ⟨hb, hbs⟩ := h.budget_le
  have hsum := h.sum
  have hperiod := h.period
  have hle := h.releasedUpTo_le hb
  have hge := sum_le_releasedUpTo (i := i) h.wf hb
  refine ⟨le_rfl, hb, ?_, ?_, by norm_num [scaleUpFactor], fun _ hlt => ?_, fun _ _ => Or.inr ⟨rfl, rfl⟩⟩
  all_goals simp only at *; omega

theorem BusyFits.step (h : Roomy list i) {slack : ℤ} (h0 : 0 ≤ slack) {x : ℤ}
    (hx : BusyFits list i slack (x, true)) (hlt : x < (list.getD i default).period) (more : Bool) :
    BusyFits list i slack (slack + releasedUpTo list i x, more) := by
  have hup : x ≤ slack + releasedUpTo list i x := hx.up
  have hle : slack ≤ x := hx.le
  have hnext := hx.next rfl hlt
  have hcount := sum_le_releasedUpTo (i := i) h.wf (by omega : 0 ≤ x)
  have hmono := releasedUpTo_mono (i := i) h.wf hup
  refine ⟨hle.trans hup, hnext, by simp only; omega, fun _ hlt' => ?_, fun _ => by simp only; omega⟩
  exact h.next_lt h0 (by simp only; omega) hlt'

theorem Fits.busyFits {w : Walk} (hw : Fits list i w) (hb : w.inBzp = true) :
    BusyFits list i w.slack (w.c, true) :=
  ⟨hw.le, hw.lt, hw.up, fun _ => hw.busy hb, Bool.noConfusion⟩

theorem Fits.afterBusy {w : Walk} (hw : Fits list i w) {x : ℤ × Bool}
    (hx : BusyFits list i w.slack x)
    (hend : ¬ (x.1 < (list.getD i default).period ∧ x.2 = true)) :
    Fits list i { w with c := x.1, inBzp := false } := by
  refine ⟨hw.slack, hx.le, hx.lt, hx.up, hw.alpha, Bool.noConfusion, fun _ hlt => Or.inl ?_⟩
  exact hx.counted (Bool.eq_false_of_not_eq_true fun hmore => hend ⟨hlt, hmore⟩)

/-- The idle time of a turn. -/
theorem Fits.idle_bounds (h : Roomy list i) {w : Walk} (hw : Fits list i w)
    (hlt : w.c < (list.getD i default).period) :
    0 ≤ idleDuration list i (list.getD i default).period w.c ∧
      idleDuration list i (list.getD i default).period w.c ≤ 234567 ∧
      idleDuration list i (list.getD i default).period w.c ≤ (list.getD i default).period - w.c := by
  have hc : 0 ≤ w.c := hw.slack.trans hw.le
  obtain ⟨hcap, hend, -⟩ := (le_idleDuration_iff h.wf hc i _ _).1
    (le_refl (idleDuration list i (list.getD i default).period w.c))
  exact ⟨idleDuration_nonneg h.wf hc hlt.le i, hcap, hend⟩

theorem Fits.afterIdle (h : Roomy list i) {w : Walk} (hw : Fits list i w) (hb : w.inBzp = false)
    (hlt : w.c < (list.getD i default).period) {idle alpha : ℤ}
    (hidle : idle = idleDuration list i (list.getD i default).period w.c)
    (halpha : 0 ≤ alpha ∧ alpha ≤ 2 * scaleUpFactor) :
    Fits list i ⟨true, w.c + idle, w.slack + idle, alpha⟩ := by
  obtain ⟨h0, hcap, hend⟩ := hw.idle_bounds h hlt
  rw [← hidle] at h0 hcap hend
  have hslack := hw.slack
  have hle := hw.le
  have hup := hw.up
  have hperiod := h.period
  have hmono := releasedUpTo_mono (i := i) h.wf (by omega : w.c ≤ w.c + idle)
  refine ⟨by simp only; omega, by simp only; omega, by simp only; omega, by simp only; omega,
    halpha, fun _ hlt' => ?_, Bool.noConfusion⟩
  rcases hw.idle hb hlt with hcounted | ⟨hs, hc⟩
  · exact h.next_lt (by simp only; omega) (by simp only; omega) hlt'
  · simp only [hs, hc, zero_add] at hlt' ⊢
    exact h.stale_lt h0 hcap hlt'

theorem speedMod_bounds (x : ℤ) {tW : ℤ} (hW : 0 ≤ tW) :
    0 ≤ x % 2 ^ 32 / tW ∧ x % 2 ^ 32 / tW < 2 ^ 32 := by
  have hmod := Int.emod_nonneg x (by norm_num : (2 ^ 32 : ℤ) ≠ 0)
  have hlt := Int.emod_lt_of_pos x (by norm_num : (0 : ℤ) < 2 ^ 32)
  exact ⟨Int.ediv_nonneg hmod hW, (Int.ediv_le_self _ hmod).trans_lt hlt⟩

/-- If the work released before the deadline fits when it is scaled, nothing wraps. -/
theorem walkTurnMod_eq (h : Roomy list i) {w : Walk} (hw : Fits list i w)
    (hfits : workBefore list i (list.getD i default).period * scaleUpFactor < 2 ^ 32) (fuel : ℕ) :
    walkTurnMod fuel list i w = walkTurn fuel list i w := by
  by_cases hlt : w.c < (list.getD i default).period
  · have hle := hw.le
    have hup := hw.up
    have hwork : releasedUpTo list i w.c ≤ workBefore list i (list.getD i default).period := by
      rw [releasedUpTo_eq h.wf]
      exact workBefore_mono h.wf (by omega)
    have hmod : (w.c - w.slack) * scaleUpFactor % 2 ^ 32 = (w.c - w.slack) * scaleUpFactor := by
      simp only [scaleUpFactor] at hfits ⊢
      omega
    simp only [walkTurn, walkTurnMod, add_sub_add_right_eq_sub, hmod]
  · simp only [walkTurn, walkTurnMod, if_neg hlt]

end Exact

section Step

variable {list : List TaskCt32} {i : ℕ}

/-- Periods of at least a microsecond and below `2 ^ 31`. -/
def LongPeriods (list : List TaskCt32) : Prop :=
  ∀ c ∈ list, 1 ≤ c.period.toNat ∧ c.period.toNat ≤ 2 ^ 31 - 1

theorem releasedUpTo32_eq (h : LongPeriods list) {c : ℤ} (h0 : 0 ≤ c) (hc : c < 2 ^ 32) :
    releasedUpTo32 list i (BitVec.ofInt 32 c) =
      BitVec.ofInt 32 (releasedUpTo (list.map TaskCt32.ct) i c) := by
  have hterm : ∀ d ∈ list.take (i + 1), (BitVec.ofInt 32 c / d.period + 1) * d.budget =
      BitVec.ofInt 32 ((c / d.ct.period + 1) * d.ct.budget) := by
    intro d hd
    have hp : 0 ≤ d.ct.period ∧ d.ct.period < 2 ^ 32 := by
      have := h d (List.mem_of_mem_take hd)
      simp only [TaskCt32.ct]
      omega
    rw [BitVec.ofInt_mul, BitVec.ofInt_add, ← udiv_ofInt h0 hc hp.1 hp.2, ofInt_budget,
      ofInt_period]
    rfl
  rw [releasedUpTo32, releasedUpTo, List.map_congr_left hterm, ofInt_sum, ← List.map_take,
    List.map_map]
  rfl

/-- One turn of a busy period: the registers hold the exact values. -/
theorem busyTurn32_rel (h : LongPeriods list) (hroom : Roomy (list.map TaskCt32.ct) i) {slack : ℤ}
    (h0 : 0 ≤ slack) {x : BitVec 32 × Bool} {y : ℤ × Bool}
    (hxy : x.1 = BitVec.ofInt 32 y.1 ∧ x.2 = y.2 ∧ BusyFits (list.map TaskCt32.ct) i slack y) :
    Option.Rel (Loop.Turn.Rel
        (fun x y => x.1 = BitVec.ofInt 32 y.1 ∧ x.2 = y.2 ∧
          BusyFits (list.map TaskCt32.ct) i slack y)
        (fun c d => c = BitVec.ofInt 32 d ∧ ∃ more, BusyFits (list.map TaskCt32.ct) i slack (d, more) ∧
          ¬ (d < ((list.map TaskCt32.ct).getD i default).period ∧ more = true)))
      (busyTurn32 list i (BitVec.ofInt 32 slack) (list.getD i default).period x)
      (busyTurn (list.map TaskCt32.ct) i slack ((list.map TaskCt32.ct).getD i default).period y) := by
  obtain ⟨x, more⟩ := x
  obtain ⟨y, more'⟩ := y
  obtain ⟨rfl, rfl, hy⟩ : x = BitVec.ofInt 32 y ∧ more = more' ∧ _ := hxy
  have hy0 : 0 ≤ y := h0.trans hy.le
  have hperiod := hroom.period
  have hpos : 0 < ((list.map TaskCt32.ct).getD i default).period := (hroom.wf _ (getD_mem hroom.lt)).2
  have hcmp : BitVec.ofInt 32 y < (list.getD i default).period ↔
      y < ((list.map TaskCt32.ct).getD i default).period := by
    rw [← ofInt_lt_iff hy0 hy.lt hpos.le (by omega), getD_ct, ofInt_period]
  simp only [busyTurn32, busyTurn, hcmp]
  by_cases hlt : y < ((list.map TaskCt32.ct).getD i default).period ∧ more = true
  · obtain ⟨hlt, rfl⟩ := hlt
    have hstep := fun more => hy.step hroom h0 hlt more
    rw [if_pos ⟨hlt, rfl⟩, if_pos ⟨hlt, rfl⟩, releasedUpTo32_eq h hy0 hy.lt, ← BitVec.ofInt_add]
    refine .some (.next ⟨rfl, ?_, hstep _⟩)
    have hup : y ≤ slack + releasedUpTo (list.map TaskCt32.ct) i y := hy.up
    have hnext : slack + releasedUpTo (list.map TaskCt32.ct) i y < 2 ^ 32 := hy.next rfl hlt
    have hpos : 0 < BitVec.ofInt 32 (slack + releasedUpTo (list.map TaskCt32.ct) i y) -
        BitVec.ofInt 32 y ↔ 0 < slack + releasedUpTo (list.map TaskCt32.ct) i y - y := by
      rw [← ofInt_sub]
      exact ofInt_lt_iff le_rfl (by norm_num) (by omega) (by omega)
    simp only [hpos, decide_eq_decide]
    omega
  · rw [if_neg hlt, if_neg hlt]
    exact .some (.exit ⟨rfl, more, hy, hlt⟩)

/-- The minimum over the next releases. -/
theorem foldl_min32 (f : TaskCt32 → BitVec 32) (g : TaskCt32 → ℤ) {l : List TaskCt32}
    (hfg : ∀ d ∈ l, f d = BitVec.ofInt 32 (g d) ∧ 0 ≤ g d ∧ g d < 2 ^ 32) {m : ℤ} (h0 : 0 ≤ m)
    (hm : m < 2 ^ 32) :
    l.foldl (fun m d => if f d < m then f d else m) (BitVec.ofInt 32 m) =
      BitVec.ofInt 32 (l.foldl (fun m d => if g d < m then g d else m) m) := by
  induction l generalizing m with
  | nil => rfl
  | cons d l ih =>
    obtain ⟨hf, hg0, hg⟩ := hfg d List.mem_cons_self
    have hrest := fun e he => hfg e (List.mem_cons_of_mem d he)
    simp only [List.foldl_cons, hf, ofInt_lt_iff hg0 hg h0 hm]
    split_ifs
    · exact ih hrest hg0 hg
    · exact ih hrest h0 hm

theorem idleDuration32_eq (h : LongPeriods list) (hroom : Roomy (list.map TaskCt32.ct) i) {c : ℤ}
    (h0 : 0 ≤ c) (hlt : c < ((list.map TaskCt32.ct).getD i default).period) :
    idleDuration32 list i (list.getD i default).period (BitVec.ofInt 32 c) = BitVec.ofInt 32
      (idleDuration (list.map TaskCt32.ct) i ((list.map TaskCt32.ct).getD i default).period c) := by
  have hperiod := hroom.period
  have hrelease : ∀ d ∈ list.take (i + 1),
      ceiling32 (BitVec.ofInt 32 c) d.period * d.period - BitVec.ofInt 32 c =
        BitVec.ofInt 32 (ceiling c d.ct.period * d.ct.period - c) ∧
      0 ≤ ceiling c d.ct.period * d.ct.period - c ∧
      ceiling c d.ct.period * d.ct.period - c < 2 ^ 32 := by
    intro d hd
    obtain ⟨hd1, hd2⟩ := h d (List.mem_of_mem_take hd)
    have hp : 1 ≤ d.ct.period ∧ d.ct.period ≤ 2 ^ 31 - 1 := by
      simp only [TaskCt32.ct]
      omega
    have hge := le_ceil_mul (t := c) hp.1
    have hceil := ceiling_eq h0 hp.1
    have hle : ⌈(c : ℚ) / d.ct.period⌉ * d.ct.period < c + d.ct.period := by
      have hp' : (0 : ℚ) < d.ct.period := by exact_mod_cast hp.1
      have := mul_lt_mul_of_pos_right (Int.ceil_lt_add_one ((c : ℚ) / d.ct.period)) hp'
      rw [add_mul, div_mul_cancel₀ _ hp'.ne', one_mul] at this
      exact_mod_cast this
    refine ⟨?_, by rw [hceil]; omega, by rw [hceil]; omega⟩
    rw [ofInt_sub, BitVec.ofInt_mul, ofInt_period, ceiling32_eq hd1 hd2 h0 (by omega)]
  have hfold := foldl_min32 _ _ hrelease (by norm_num : (0 : ℤ) ≤ 234567) (by norm_num)
  have hmin := (le_foldl_min_iff (fun d : TaskCt32 => ceiling c d.ct.period * d.ct.period - c)
    (list.take (i + 1)) 234567 0).2 ⟨by norm_num, fun d hd => (hrelease d hd).2.1⟩
  have hcap := ((le_foldl_min_iff (fun d : TaskCt32 => ceiling c d.ct.period * d.ct.period - c)
    (list.take (i + 1)) 234567 _).1 le_rfl).1
  have hend : (list.getD i default).period - BitVec.ofInt 32 c = BitVec.ofInt 32
      (((list.map TaskCt32.ct).getD i default).period - c) := by
    rw [ofInt_sub, getD_ct, ofInt_period]
  simp only [idleDuration32, idleDuration, ← List.map_take, List.foldl_map, hend]
  set m := (list.take (i + 1)).foldl
    (fun idle d => if ceiling c d.ct.period * d.ct.period - c < idle then
      ceiling c d.ct.period * d.ct.period - c else idle) 234567
  have hfold' : (list.take (i + 1)).foldl (fun idle d =>
      if ceiling32 (BitVec.ofInt 32 c) d.period * d.period - BitVec.ofInt 32 c < idle then
        ceiling32 (BitVec.ofInt 32 c) d.period * d.period - BitVec.ofInt 32 c else idle)
      234567 = BitVec.ofInt 32 m := hfold
  have hcmp := ofInt_lt_iff (w := 32)
    (by omega : 0 ≤ ((list.map TaskCt32.ct).getD i default).period - c) (by omega) hmin (by omega)
  simp only [hfold', hcmp]
  split_ifs <;> rfl

/-- The walks, after as many turns: the registers hold the exact values. -/
structure WalkInStep (list : List TaskCt32) (i : ℕ) (x : Walk32) (w : Walk) : Prop
    extends Fits (list.map TaskCt32.ct) i w where
  flag_eq : x.inBzp = w.inBzp
  c_eq : x.c = BitVec.ofInt 32 w.c
  slack_eq : x.slack = BitVec.ofInt 32 w.slack
  alpha_eq : x.alpha = BitVec.ofInt 32 w.alpha

/-- **One turn.** -/
theorem walkTurn32_rel (h : LongPeriods list) (hroom : Roomy (list.map TaskCt32.ct) i) (fuel : ℕ)
    {x : Walk32} {w : Walk} (hx : WalkInStep list i x w) :
    Option.Rel (Loop.Turn.Rel (WalkInStep list i) (WalkInStep list i)) (walkTurn32 fuel list i x)
      (walkTurnMod fuel (list.map TaskCt32.ct) i w) := by
  have hw := hx.toFits
  have hc0 : 0 ≤ w.c := hw.slack.trans hw.le
  have hperiod := hroom.period
  have hpos : 0 < ((list.map TaskCt32.ct).getD i default).period := (hroom.wf _ (getD_mem hroom.lt)).2
  have hcmp : x.c < (list.getD i default).period ↔
      w.c < ((list.map TaskCt32.ct).getD i default).period := by
    rw [hx.c_eq, ← ofInt_lt_iff hc0 hw.lt hpos.le (by omega), getD_ct, ofInt_period]
  simp only [walkTurn32, walkTurnMod, hcmp, hx.flag_eq]
  by_cases hlt : w.c < ((list.map TaskCt32.ct).getD i default).period
  · rw [if_pos hlt, if_pos hlt]
    cases hb : w.inBzp with
    | true =>
      have hstart : (x.c, true).1 = BitVec.ofInt 32 (w.c, true).1 ∧ (x.c, true).2 = (w.c, true).2 ∧
          BusyFits (list.map TaskCt32.ct) i w.slack (w.c, true) :=
        ⟨hx.c_eq, rfl, hw.busyFits hb⟩
      have hrun := run_rel (fun _ _ hxy => busyTurn32_rel h hroom hw.slack hxy) hstart fuel
      rw [← hx.slack_eq] at hrun
      simp only [if_true]
      generalize run (busyTurn32 list i x.slack _) fuel _ = r at hrun
      generalize run (busyTurn (list.map TaskCt32.ct) i w.slack _) fuel _ = r' at hrun
      cases hrun with
      | none => exact .none
      | some hr =>
        obtain ⟨rfl, more, hfits, hend⟩ := hr
        exact .some (.next ⟨hw.afterBusy hfits hend, rfl, rfl, hx.slack_eq, hx.alpha_eq⟩)
    | false =>
      obtain ⟨hi0, -, hi2⟩ := hw.idle_bounds hroom hlt
      simp only [Bool.false_eq_true, if_false, hx.c_eq, hx.slack_eq, hx.alpha_eq,
        idleDuration32_eq h hroom hc0 hlt]
      set idle := idleDuration (list.map TaskCt32.ct) i
        ((list.map TaskCt32.ct).getD i default).period w.c with hidle
      set scaled := (w.c + idle - (w.slack + idle)) * scaleUpFactor with hscaled
      obtain ⟨hs0, hs1⟩ := speedMod_bounds scaled (by omega : 0 ≤ w.c + idle)
      have hspeed : (BitVec.ofInt 32 w.c + BitVec.ofInt 32 idle -
          (BitVec.ofInt 32 w.slack + BitVec.ofInt 32 idle)) * 1000 /
          (BitVec.ofInt 32 w.c + BitVec.ofInt 32 idle) =
          BitVec.ofInt 32 (scaled % 2 ^ 32 / (w.c + idle)) := by
        rw [← udiv_ofInt (Int.emod_nonneg _ (by norm_num)) (Int.emod_lt_of_pos _ (by norm_num))
          (by omega) (by omega), ofInt_emod, hscaled, BitVec.ofInt_mul, ofInt_sub,
          BitVec.ofInt_add, BitVec.ofInt_add]
        rfl
      obtain ⟨ha0, ha1⟩ := hw.alpha
      have hcmp := ofInt_lt_iff (w := 32) ha0 (ha1.trans_lt (by norm_num [scaleUpFactor])) hs0 hs1
      simp only [hspeed, hcmp]
      refine .some (.next ⟨hw.afterIdle hroom hb hlt hidle ?_, rfl, ?_, ?_, ?_⟩)
      · split_ifs <;> omega
      · rw [BitVec.ofInt_add]
      · rw [BitVec.ofInt_add]
      · split_ifs <;> rfl
  · rw [if_neg hlt, if_neg hlt]
    exact .some (.exit hx)

/-- The walk of one task, in step with any walk whose turns are. -/
theorem alphaOf32_rel (hroom : Roomy (list.map TaskCt32.ct) i) {fuel : ℕ}
    {turn : Walk → Option (Loop.Turn Walk Walk)}
    (hturn : ∀ x w, WalkInStep list i x w → Option.Rel
      (Loop.Turn.Rel (WalkInStep list i) (WalkInStep list i)) (walkTurn32 fuel list i x) (turn w))
    (inBzp : Bool) :
    Option.Rel (WalkInStep list i) (alphaOf32 fuel list i inBzp)
      (run turn fuel ⟨inBzp, ((list.map TaskCt32.ct).getD i default).budget, 0,
        2 * scaleUpFactor⟩) := by
  refine run_rel hturn ⟨Fits.start hroom inBzp, rfl, ?_, rfl, rfl⟩ fuel
  rw [getD_ct, ofInt_budget]

/-- The registers of the speeds hold exact values. -/
theorem alphasFrom32_rel {fuel : ℕ} {walk : ℕ → Bool → Option Walk}
    (hwalk : ∀ i < list.length, ∀ inBzp,
      Option.Rel (WalkInStep list i) (alphaOf32 fuel list i inBzp) (walk i inBzp))
    {n : ℕ} (hn : i + n ≤ list.length) (inBzp : Bool) :
    Option.Rel (fun xs as => xs = as.map (BitVec.ofInt 32) ∧
        ∀ a ∈ as, 0 ≤ a ∧ a ≤ 2 * scaleUpFactor)
      (alphasFrom32 fuel list n i inBzp) (alphasFromBy walk n i inBzp) := by
  induction n generalizing i inBzp with
  | zero => exact .some ⟨rfl, by simp⟩
  | succ n ih =>
    have hrel := hwalk i (by omega) inBzp
    simp only [alphasFrom32, alphasFromBy]
    generalize alphaOf32 fuel list i inBzp = r at hrel
    generalize walk i inBzp = r' at hrel
    cases hrel with
    | none => exact .none
    | @some x w hxw =>
      have hrest := ih (i := i + 1) (by omega) w.inBzp
      simp only [Option.bind_eq_bind, Option.bind_some, hxw.flag_eq]
      generalize alphasFrom32 fuel list n (i + 1) w.inBzp = xs at hrest
      generalize alphasFromBy walk n (i + 1) w.inBzp = as at hrest
      cases hrest with
      | none => exact .none
      | some h =>
        obtain ⟨rfl, hbounds⟩ := h
        exact .some ⟨by rw [List.map_cons, hxw.alpha_eq],
          List.forall_mem_cons.2 ⟨hxw.toFits.alpha, hbounds⟩⟩

/-- The greatest speed, in a register. -/
theorem foldl_max32 {l : List ℤ} (hl : ∀ a ∈ l, 0 ≤ a ∧ a < 2 ^ 32) {m : ℤ} (h0 : 0 ≤ m)
    (hm : m < 2 ^ 32) :
    (l.map (BitVec.ofInt 32)).foldl (fun m a => if m < a then a else m) (BitVec.ofInt 32 m) =
      BitVec.ofInt 32 (l.foldl (fun m a => if a > m then a else m) m) := by
  induction l generalizing m with
  | nil => rfl
  | cons a l ih =>
    obtain ⟨ha0, ha⟩ := hl a List.mem_cons_self
    have hrest := fun b hb => hl b (List.mem_cons_of_mem a hb)
    simp only [List.map_cons, List.foldl_cons, ofInt_lt_iff h0 hm ha0 ha, gt_iff_lt]
    split_ifs
    · exact ih hrest ha0 ha
    · exact ih hrest h0 hm

/-- What the registers read as. -/
def read32 (x : List (BitVec 32) × BitVec 32) : List ℤ × ℕ :=
  (x.1.map fun a => (a.toNat : ℤ), x.2.toNat)

theorem sysclockSpeeds32_eq {fuel : ℕ} {walk : ℕ → Bool → Option Walk}
    (hwalk : ∀ i < list.length, ∀ inBzp,
      Option.Rel (WalkInStep list i) (alphaOf32 fuel list i inBzp) (walk i inBzp))
    (maxFrequency : BitVec 32) :
    (sysclockSpeeds32 fuel maxFrequency list list.length).map read32 =
      (alphasFromBy walk list.length 0 true).map fun alphas => (alphas,
        (maxFrequency.toNat * alphas.foldl (fun m a => if a > m then a else m) 0 %
          2 ^ 32).toNat) := by
  have hrel := alphasFrom32_rel hwalk (i := 0) (n := list.length) (by omega) true
  simp only [sysclockSpeeds32]
  generalize alphasFrom32 fuel list list.length 0 true = xs at hrel
  generalize alphasFromBy walk list.length 0 true = as at hrel
  cases hrel with
  | none => rfl
  | @some _ alphas h =>
    obtain ⟨rfl, hbounds⟩ := h
    have hfit : ∀ a ∈ alphas, 0 ≤ a ∧ a < 2 ^ 32 := by
      intro a ha
      have := hbounds a ha
      simp only [scaleUpFactor] at this
      omega
    have hmax := foldl_max32 hfit le_rfl (by norm_num)
    have hzero : (0 : BitVec 32) = BitVec.ofInt 32 0 := rfl
    simp only [Option.bind_eq_bind, Option.bind_some, Option.map_some, Option.some.injEq, read32,
      List.map_map, hzero, hmax, Prod.mk.injEq]
    constructor
    · have hread : ∀ a ∈ alphas, ((BitVec.ofInt 32 a).toNat : ℤ) = a :=
        fun a ha => toNat_ofInt_of_lt (hfit a ha).1 (hfit a ha).2
      calc alphas.map _ = alphas.map id := List.map_congr_left hread
        _ = alphas := List.map_id alphas
    · have hfreq := ofInt_toNat maxFrequency
      conv_lhs => rw [← hfreq, ← BitVec.ofInt_mul, BitVec.toNat_ofInt]
      norm_cast

end Step

end RtSched
