import RtSched.AdmissionWord
import RtSched.Registry
import RtSched.TimespecWord

/-!
# Cycle budgets in 32-bit arithmetic (`sys_setProcessBudget`)

A budget is a number of cycles.  `sys_setProcessBudget` divides it by a frequency in MHz, which gives
microseconds, and multiplies by a thousand, all in `unsigned long`.  From 4294968 microseconds on the
product wraps, and a long budget becomes a short one.  The check against the period sees the budget
at the maximum frequency; the one the task gets under `power_scheme` 0 is that of the current
frequency, which may be much longer.

* `cpufreqTables`: the frequency tables of Tegra 3;
* `setProcessBudget32`: the checks of the call and the times it writes into the task;
* `taskBudgetOf32_ns`: what the conversion gives, wrapped or not;
* `cycleBudget_exact_iff`: the times are exact exactly if the microseconds are at most 4294967.
-/

namespace RtSched

open Word

/-! ### The frequency tables -/

/-- `freq_table_300MHz`, in kHz. -/
def freqTable300MHz : List (BitVec 32) := [204000, 300000]

/-- `freq_table_1p0GHz`. -/
def freqTable1p0GHz : List (BitVec 32) :=
  [51000, 102000, 204000, 312000, 456000, 608000, 760000, 816000, 912000, 1000000]

/-- `freq_table_1p3GHz`. -/
def freqTable1p3GHz : List (BitVec 32) :=
  [51000, 102000, 204000, 340000, 475000, 640000, 760000, 860000, 1000000, 1100000, 1200000, 1300000]

/-- `freq_table_1p4GHz`. -/
def freqTable1p4GHz : List (BitVec 32) :=
  [51000, 102000, 204000, 370000, 475000, 620000, 760000, 860000, 1000000, 1100000, 1200000, 1300000,
    1400000]

/-- `freq_table_1p5GHz`. -/
def freqTable1p5GHz : List (BitVec 32) :=
  [51000, 102000, 204000, 340000, 475000, 640000, 760000, 860000, 1000000, 1100000, 1200000, 1300000,
    1400000, 1500000]

/-- `freq_table_1p7GHz`. -/
def freqTable1p7GHz : List (BitVec 32) :=
  [51000, 102000, 204000, 370000, 475000, 620000, 760000, 910000, 1150000, 1300000, 1400000, 1500000,
    1600000, 1700000]

/-- `cpufreq_tables`. -/
def cpufreqTables : List (List (BitVec 32)) :=
  [freqTable300MHz, freqTable1p0GHz, freqTable1p3GHz, freqTable1p4GHz, freqTable1p5GHz,
    freqTable1p7GHz]

/-- The frequency occurs in one of the tables. -/
def Shipped (freq : BitVec 32) : Prop := ∃ table ∈ cpufreqTables, freq ∈ table

instance (freq : BitVec 32) : Decidable (Shipped freq) :=
  inferInstanceAs (Decidable (∃ table ∈ cpufreqTables, freq ∈ table))

/-! ### The call -/

/-- The times of a task. -/
structure Times32 where
  timePeriod : Timespec32
  minBudgetTime : Timespec32
  budgetTime : Timespec32
  deriving DecidableEq, Repr

/-- What `sys_setProcessBudget` reads: the frequencies of the policy in kHz, the modes, the tasks on
the periodic list and the hashed pids. -/
structure System32 where
  maxFreq : BitVec 32
  cur : BitVec 32
  isBinPackingSet : Bool
  powerScheme : PowerScheme
  periodicTasks : List Tid
  task : Tid → Times32
  pidHash : List Tid

/-- Budget and period of a listed task. -/
def System32.ctOf (s : System32) (t : Tid) : TaskCt32 :=
  { budget := convertToUsecs32 (s.task t).minBudgetTime
    period := convertToUsecs32 (s.task t).timePeriod }

/-- `check_admission`.  A division by zero gives zero. -/
def checkAdmission32 (fuel : ℕ) (budget period : Timespec32) (s : System32) : Option Bool :=
  let budgetUs := convertToUsecs32 budget
  let periodUs := convertToUsecs32 period
  if s.periodicTasks = [] then
    some (decide (((budgetUs * 1000).sdiv periodUs).toInt ≤ 1000))
  else
    let list := (s.periodicTasks.map s.ctOf).orderedInsert
      (fun c d => c.period.toInt ≤ d.period.toInt) { budget := budgetUs, period := periodUs }
    checkAdmissionList32 fuel list (s.periodicTasks.length + 1)

/-- The admission test, which is skipped in bin-packing mode. -/
def admits32 (fuel : ℕ) (taskBudget period : Timespec32) (s : System32) : Option Bool :=
  if s.isBinPackingSet then some true else checkAdmission32 fuel taskBudget period s

/-- What the call itself writes.  With SysClock and PM-Clock it leaves `budget_time` to
`apply_sysclock` and `apply_pmclock`. -/
structure Written32 where
  timePeriod : Timespec32
  minBudgetTime : Timespec32
  budgetTime : Option Timespec32
  deriving DecidableEq, Repr

/-- The times written for a task that was found. -/
def writeReservation32 (budget : BitVec 32) (taskBudget period : Timespec32) (s : System32) :
    Written32 where
  timePeriod := period
  minBudgetTime := taskBudget
  budgetTime :=
    if s.isBinPackingSet then some taskBudget
    else match s.powerScheme with
      | .noPm => some (taskBudgetOf32 (s.cur / 1000) budget)
      | .sysClock => none
      | .pmClock => none

/-- `sys_setProcessBudget`: an error, or what it writes.  `none`: the admission test is still
running. -/
def setProcessBudget32 (fuel : ℕ) (pid : ℤ) (budget : BitVec 32) (period : Timespec32)
    (s : System32) : Option (Except ℤ Written32) :=
  let taskBudget := taskBudgetOf32 (s.maxFreq / 1000) budget
  if ¬ (period.tvSec.toInt > 0 ∨ period.tvNsec.toInt > 0) then some (.error (-einval))
  else if pid ≤ 0 then some (.error (-einval))
  else if (timespecCompare32 taskBudget period).toInt ≥ 0 then some (.error (-einval))
  else do
    let admitted ← admits32 fuel taskBudget period s
    if admitted = false then some (.error (-eperm))
    else if pid.toNat ∈ s.pidHash then some (.ok (writeReservation32 budget taskBudget period s))
    else some (.error (-esrch))

/-- An accepted call has written the reservation. -/
theorem setProcessBudget32_ok {fuel : ℕ} {pid : ℤ} {budget : BitVec 32} {period : Timespec32}
    {s : System32} {w : Written32} (h : setProcessBudget32 fuel pid budget period s = some (.ok w)) :
    w = writeReservation32 budget (taskBudgetOf32 (s.maxFreq / 1000) budget) period s := by
  unfold setProcessBudget32 at h
  extract_lets taskBudget at h
  split at h
  · cases h
  split at h
  · cases h
  split at h
  · cases h
  obtain ⟨admitted, -, h⟩ := Option.bind_eq_some_iff.1 h
  split_ifs at h
  · cases h
  · cases h
    rfl
  · cases h

/-! ### The conversion -/

section Convert

variable {freq freq' cycles : BitVec 32}

/-- The microseconds of a number of cycles. -/
def usecsAt (freq cycles : BitVec 32) : ℕ := cycles.toNat / (freq.toNat / 1000)

/-- The conversion gives the nanoseconds modulo `2 ^ 32`. -/
theorem taskBudgetOf32_ns (freq cycles : BitVec 32) :
    (taskBudgetOf32 (freq / 1000) cycles).ns = (usecsAt freq cycles * 1000 % 2 ^ 32 : ℕ) := by
  have htemp : (cycles / (freq / 1000) * 1000).toNat = usecsAt freq cycles * 1000 % 2 ^ 32 := by
    rw [BitVec.toNat_mul, BitVec.toNat_udiv, BitVec.toNat_udiv]
    rfl
  have hlt : usecsAt freq cycles * 1000 % 2 ^ 32 < 2 ^ 32 := Nat.mod_lt _ (by decide)
  -- at most four seconds, so both fields are read back
  rw [taskBudgetOf32, htemp, nsToTimespec_of_nonneg (Int.natCast_nonneg _), Timespec32.ns]
  generalize usecsAt freq cycles * 1000 % 2 ^ 32 = n at hlt
  have hsec : (BitVec.ofInt 32 ((n : ℤ) / 1000000000)).toInt = (n : ℤ) / 1000000000 :=
    toInt_ofInt_of_lt (by omega) (by omega)
  have hnsec : (BitVec.ofInt 32 ((n : ℤ) % 1000000000)).toInt = (n : ℤ) % 1000000000 :=
    toInt_ofInt_of_lt (by omega) (by omega)
  simp only [hsec, hnsec]
  omega

/-- The time is that of the cycles exactly if there are at most 4294967 microseconds. -/
theorem taskBudgetOf32_exact_iff (freq cycles : BitVec 32) :
    (taskBudgetOf32 (freq / 1000) cycles).ns = 1000 * (usecsAt freq cycles : ℤ) ↔
      usecsAt freq cycles ≤ 4294967 := by
  rw [taskBudgetOf32_ns]
  omega

/-- All frequencies of the tables are at least one MHz. -/
theorem Shipped.one_le (h : Shipped freq) : 1 ≤ freq.toNat / 1000 := by
  have hall : (cpufreqTables.all fun table => table.all fun f => decide (1 ≤ f.toNat / 1000)) = true :=
    by decide +kernel
  obtain ⟨table, ht, hf⟩ := h
  exact of_decide_eq_true (List.all_eq_true.1 (List.all_eq_true.1 hall table ht) freq hf)

/-- At a lower frequency the cycles take longer. -/
theorem usecsAt_anti (h : Shipped freq) (hle : freq ≤ freq') :
    usecsAt freq' cycles ≤ usecsAt freq cycles :=
  Nat.div_le_div_left (Nat.div_le_div_right (BitVec.le_def.1 hle)) h.one_le

end Convert

/-- **When cycle budgets convert without wrapping.**  For an accepted call, with the current frequency
one of the tables and not above the maximum, `min_budget_time` is exact exactly if the cycles take at
most 4294967 microseconds at the maximum frequency.  Under `power_scheme` 0 both times are exact, and
`budget_time` is not the smaller one, exactly if they take at most 4294967 microseconds at the
current frequency, and in bin-packing mode, where `budget_time` is the time at the maximum frequency,
as many as there. -/
theorem cycleBudget_exact_iff (fuel : ℕ) (s : System32) (hcur : Shipped s.cur)
    (hle : s.cur ≤ s.maxFreq) (pid : ℤ) (cycles : BitVec 32) (period : Timespec32) (w : Written32)
    (h : setProcessBudget32 fuel pid cycles period s = some (.ok w)) :
    (w.minBudgetTime.ns = 1000 * (usecsAt s.maxFreq cycles : ℤ) ↔
      usecsAt s.maxFreq cycles ≤ 4294967) ∧
    (s.powerScheme = .noPm → ∃ b, w.budgetTime = some b ∧
      (w.minBudgetTime.ns = 1000 * (usecsAt s.maxFreq cycles : ℤ) ∧
        b.ns = 1000 * (usecsAt s.cur cycles : ℤ) ∧ w.minBudgetTime.ns ≤ b.ns ↔
      usecsAt s.cur cycles ≤ 4294967 ∧
        (s.isBinPackingSet = true → usecsAt s.cur cycles = usecsAt s.maxFreq cycles))) := by
  obtain rfl := setProcessBudget32_ok h
  have hanti : usecsAt s.maxFreq cycles ≤ usecsAt s.cur cycles := usecsAt_anti hcur hle
  have hmin := taskBudgetOf32_exact_iff s.maxFreq cycles
  refine ⟨hmin, fun hscheme => ?_⟩
  cases hbin : s.isBinPackingSet with
  | true =>
    refine ⟨taskBudgetOf32 (s.maxFreq / 1000) cycles, by simp [writeReservation32, hbin], ?_⟩
    simp only [writeReservation32, true_imp_iff]
    omega
  | false =>
    have hbudget := taskBudgetOf32_exact_iff s.cur cycles
    refine ⟨taskBudgetOf32 (s.cur / 1000) cycles, by simp [writeReservation32, hbin, hscheme], ?_⟩
    simp only [writeReservation32]
    constructor
    · rintro ⟨-, hexact, -⟩
      exact ⟨hbudget.1 hexact, fun hb => Bool.noConfusion hb⟩
    · rintro ⟨hfit, -⟩
      have h1 := hmin.2 (hanti.trans hfit)
      have h2 := hbudget.2 hfit
      exact ⟨h1, h2, by omega⟩

/-- No reservation yet, 1300 MHz at most and 51 MHz now. -/
def slowSystem : System32 where
  maxFreq := 1300000
  cur := 51000
  isBinPackingSet := false
  powerScheme := .noPm
  periodicTasks := []
  task := fun _ => ⟨⟨0, 0⟩, ⟨0, 0⟩, ⟨0, 0⟩⟩
  pidHash := [1]

/-- A hundred million cycles per ten seconds. -/
theorem cycleBudget_exact_iff_hundred :
    ∃ w, setProcessBudget32 0 1 100000000 ⟨10, 0⟩ slowSystem = some (.ok w) ∧
      w.minBudgetTime.ns = 1000 * (usecsAt 1300000 100000000 : ℤ) ∧
      ∃ b, w.budgetTime = some b ∧ b.ns = 1000 * (usecsAt 51000 100000000 : ℤ) := by
  refine ⟨writeReservation32 100000000 (taskBudgetOf32 1300 100000000) ⟨10, 0⟩ slowSystem,
    by decide +kernel, ?_⟩
  obtain ⟨hmin, hbudget⟩ := cycleBudget_exact_iff 0 slowSystem (by decide) (by decide) 1
    100000000 ⟨10, 0⟩ (writeReservation32 100000000 (taskBudgetOf32 1300 100000000) ⟨10, 0⟩ slowSystem)
    (by decide +kernel)
  obtain ⟨b, hb, hiff⟩ := hbudget rfl
  exact ⟨hmin.2 (by decide +kernel), b, hb, (hiff.2 ⟨by decide +kernel, fun h => by cases h⟩).2.1⟩

/-- At 51 MHz a budget of 4.294968 seconds becomes one of 704 nanoseconds. -/
theorem cycleBudget_wraps :
    ¬ ∀ (fuel : ℕ) (s : System32), Shipped s.maxFreq → Shipped s.cur → s.cur ≤ s.maxFreq →
      ∀ (pid : ℤ) (cycles : BitVec 32) (period : Timespec32) (w : Written32),
        setProcessBudget32 fuel pid cycles period s = some (.ok w) →
          s.powerScheme = .noPm → s.isBinPackingSet = false →
            ∃ b, w.budgetTime = some b ∧ b.ns = 1000 * (usecsAt s.cur cycles : ℤ) ∧
              w.minBudgetTime.ns ≤ b.ns := by
  intro hall
  obtain ⟨b, hb, -, hle⟩ := hall 0 slowSystem (by decide) (by decide) (by decide) 1 219043368 ⟨10, 0⟩
    (writeReservation32 219043368 (taskBudgetOf32 1300 219043368) ⟨10, 0⟩ slowSystem) (by decide +kernel) rfl
    rfl
  obtain rfl : taskBudgetOf32 51 219043368 = b := Option.some.inj hb
  revert hle
  decide +kernel

end RtSched
