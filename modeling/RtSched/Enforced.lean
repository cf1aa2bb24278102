import RtSched.AdmissionExact
import RtSched.Isolation

/-!
# What is enforced without power management

With `power_scheme` 0 `sys_setProcessBudget` turns the cycles of a request into time twice: for the
admission test at the maximum frequency, for the enforcement at the current one.  As long as the two
times are the same, the budgets that are enforced are those that were admitted (`EnforcedInv`), and
they pass the test (`enforced_passes`).  At a lower frequency they need not
(`enforced_exceeds_period`).
-/

namespace RtSched

open Call TimeDemand

variable {e : Env} {s s' : KState} {list : List Tid} {t u : Tid}

/-! ### Requests -/

/-- A call of `sys_setProcessBudget`, and the current frequency it finds in `lastcpupolicy`. -/
structure Request where
  freq : ℕ
  pid : ℤ
  budget : ℕ
  period : Timespec

def Request.exec (e : Env) (s : KState) (q : Request) : Call KState (KState × ℤ) :=
  setProcessBudget e q.pid q.budget q.period { s with cpuFreq := q.freq }

/-- An entry of the list as the scheduler enforces it. -/
def enforcedCt (s : KState) (t : Tid) : TaskCt where
  budget := convertToUsecs (s.task t).budgetTime
  period := convertToUsecs (s.task t).timePeriod

/-- What is enforced passes the admission test, and every budget is below its period. -/
def EnforcedPasses (s : KState) : Prop :=
  ∃ list, OnList s list ∧ Passes (list.map (enforcedCt s)) ∧
    ∀ t ∈ list, timespecCompare (s.task t).budgetTime (s.task t).timePeriod < 0

/-! ### The budget at the current frequency -/

/-- The budget of the task after the last part of the call. -/
theorem launchReservation_budget (h : Kept s list) (hpow : s.powerScheme = .noPm) (t : Tid)
    (budget : ℕ) :
    Sat (fun s' => (s'.task t).budgetTime = nsToTimespec (budget / (s.cpuFreq / 1000) * 1000 : ℕ))
      (fun _ => True) (launchReservation e t budget s) := by
  refine sat_numbered h fun r => ?_
  have hfreq : (numberTasks s list).cpuFreq = s.cpuFreq := numberTasks_cpuFreq s list
  dsimp only
  rw [numberTasks_power, hpow]
  show ((startPeriodTimer _ t).task t).budgetTime = _
  simp [startPeriodTimer, hfreq]

theorem setReservation_budget (h : Kept s list) (hok : SetOk s list t)
    (hoff : s.isBinPackingSet = false) (hpow : s.powerScheme = .noPm) (budget : ℕ)
    (b p : Timespec) :
    Sat (fun s' => (s'.task t).budgetTime = nsToTimespec (budget / (s.cpuFreq / 1000) * 1000 : ℕ))
      (fun _ => True) (setReservation e t budget b p s) := by
  refine Sat.bind ((reserve_sat h hok b p).mono (fun _ h => h) fun _ _ => trivial) ?_
  rintro s₁ ⟨hk, hr⟩
  refine sat_ite (fun hb => ?_) fun _ => ?_
  · rw [hr.step.bin, hoff] at hb
    cases hb
  · rw [← hr.step.cpuFreq]
    exact launchReservation_budget hk (hr.step.power.trans hpow) t budget

/-! ### The invariant -/

/-- What is enforced is what was admitted. -/
structure EnforcedInv (s : KState) (list : List Tid) : Prop extends StoredInv s list where
  noPm : s.powerScheme = .noPm
  feasible : FeasibleList s list
  budget : ∀ t ∈ list, (s.task t).budgetTime = (s.task t).minBudgetTime
  below : ∀ t ∈ list, timespecCompare (s.task t).minBudgetTime (s.task t).timePeriod < 0

theorem EnforcedInv.passes (h : EnforcedInv s list) : EnforcedPasses s := by
  refine ⟨list, h.kept.onList, ?_, fun t ht => ?_⟩
  · have hcts : list.map (enforcedCt s) = listCts s list := by
      apply List.map_congr_left
      intro t ht
      rw [enforcedCt, ctOf, h.budget t ht]
    rw [hcts]
    exact (passes_listCts h.kept.sorted h.stored).2 h.feasible
  · rw [h.budget t ht]
    exact h.below t ht

/-- The frequency the processor runs at does not matter between calls. -/
theorem EnforcedInv.setFreq (h : EnforcedInv s list) (f : ℕ) :
    EnforcedInv { s with cpuFreq := f } list :=
  ⟨⟨h.kept.of_registry rfl, h.binOff, h.stored⟩, h.noPm, h.feasible, h.budget, h.below⟩

/-- The cycles of the request make as much time at the current frequency as at the maximum. -/
def SameTime (e : Env) (s : KState) (q : Request) : Prop :=
  ListedOk s (.setProcessBudget q.pid q.budget q.period) ∧
    q.budget / (q.freq / 1000) = q.budget / e.maxFrequency

/-- A request that makes the same time at both frequencies. -/
theorem exec_enforcedInv (h : ∃ list, EnforcedInv s list) {q : Request} (hok : SameTime e s q) :
    Sat (fun x => ∃ list, EnforcedInv x.1 list) (fun _ => True) (q.exec e s) := by
  obtain ⟨list, h⟩ := h
  obtain ⟨⟨hp, hp1, -, hset⟩, hsame⟩ := hok
  have h₀ := h.setFreq q.freq
  have hk := h₀.kept
  refine setProcessBudget_rule (Q := fun s' => ∃ list, EnforcedInv s' list) hk ⟨list, h₀⟩
    fun t ht hlt hadm => ?_
  have hokt : SetOk { s with cpuFreq := q.freq } list t := hset t ht list h.kept.onList
  refine ((setReservation_off hk hokt h₀.binOff q.budget _ q.period).and
    (setReservation_budget hk hokt h₀.binOff h₀.noPm q.budget _ q.period)).mono ?_
    fun _ _ => trivial
  rintro s' ⟨⟨s₁, hk₁, hr, hl⟩, hbudget⟩
  have hb0 := convertToUsecs_taskBudgetOf e q.budget
  have hper := hr.timePeriod
  have hmin := hr.minBudgetTime
  have hreg := fun u => registry_task hl.update.quiet_of_numbered.registry u
  have hper' : ∀ u, (s'.task u).timePeriod = (s₁.task u).timePeriod := fun u => (hreg u).timePeriod
  have hmin' : ∀ u, (s'.task u).minBudgetTime = (s₁.task u).minBudgetTime :=
    fun u => congrArg TaskReg.minBudgetTime (hreg u)
  have hinv := h₀.toStoredInv.next hk₁ hr.step hl.update (hr.stored hk h₀.stored hp1 hb0 hp)
  refine ⟨_, hinv, ?_, ?_, fun u hu => ?_, fun u hu => ?_⟩
  · rw [registry_power hl.update.quiet_of_numbered.registry, hr.step.power]
    exact h₀.noPm
  · rw [FeasibleList, listCts_congr fun u _ => ⟨hper' u, hmin' u⟩]
    exact hr.feasible hk h₀.stored hp1 hb0 (taskBudgetOf_le hp hlt) (hadm h₀.binOff)
  · rw [hmin', hmin]
    by_cases hut : u = t
    · rw [if_pos hut, hut, hbudget]
      show nsToTimespec (q.budget / (q.freq / 1000) * 1000 : ℕ) = _
      rw [hsame, taskBudgetOf]
    · have hold : u ∈ list := List.mem_of_mem_erase ((mem_reservedList.1 hu).resolve_left hut)
      rw [if_neg hut, (hl.noPm (hr.step.power.trans h₀.noPm)).2 u hut, hr.budget u hut]
      exact h₀.budget u hold
  · rw [hmin', hmin, hper', hper]
    by_cases hut : u = t
    · rw [if_pos hut, if_pos hut]
      exact hlt
    · have hold : u ∈ list := List.mem_of_mem_erase ((mem_reservedList.1 hu).resolve_left hut)
      rw [if_neg hut, if_neg hut]
      exact h₀.below u hold

/-! ### Runs -/

theorem enforcedInv_booted (h : BootedNoPm s) : EnforcedInv s [] :=
  ⟨⟨kept_booted h.1, h.1.binOff, by simp⟩, h.2, (admInv_booted h.1).feasible, by simp, by simp⟩

/-- **What is enforced passes the test**, after any requests whose cycles make the same time at the
current and at the maximum frequency. -/
theorem enforced_passes (e : Env) {s : KState}
    (h : Reach BootedNoPm (SameTime e) (Request.exec e) s) : EnforcedPasses s := by
  obtain ⟨list, hinv⟩ := h.inv (I := fun s => ∃ list, EnforcedInv s list)
    (fun _ hs => ⟨[], enforcedInv_booted hs⟩) fun _ _ hs hok => exec_enforcedInv hs hok
  exact hinv.passes

/-- 100 ms in 1 s and 300 ms in 2 s, asked for at the maximum frequency. -/
theorem enforced_passes_pair :
    ∃ s, Reach BootedNoPm (SameTime twoSpeeds) (Request.exec twoSpeeds) s ∧ OnList s [1, 2] ∧
      (s.task 1).budgetTime = ⟨0, 100000000⟩ ∧ (s.task 2).budgetTime = ⟨0, 300000000⟩ ∧
      EnforcedPasses s := by
  obtain ⟨x, hx, hlist, hfind, hflag, htest⟩ : ∃ x, Request.exec twoSpeeds (bootState [1, 2] .noPm)
      ⟨1000000, 1, 100000000, ⟨1, 0⟩⟩ = .ok x ∧ OnList x.1 [1] ∧ x.1.findTaskByVpid 2 = some 2 ∧
      (x.1.task 2).isBudgetSet = false ∧
      (Request.exec twoSpeeds x.1 ⟨1000000, 2, 300000000, ⟨2, 0⟩⟩).test (fun y => decide
        (OnList y.1 [1, 2] ∧ (y.1.task 1).budgetTime = ⟨0, 100000000⟩ ∧
          (y.1.task 2).budgetTime = ⟨0, 300000000⟩)) = true := exists_ok_of_test (by decide)
  obtain ⟨y, hy, hlist', hfirst, hsecond⟩ := exists_ok_of_test htest
  have hboot : BootedNoPm (bootState [1, 2] .noPm) := ⟨booted_bootState [1, 2] .noPm, rfl⟩
  have hempty := (kept_booted hboot.1).onList
  have hok : SameTime twoSpeeds (bootState [1, 2] .noPm) ⟨1000000, 1, 100000000, ⟨1, 0⟩⟩ :=
    ⟨listedOk_of_empty hempty (by decide) (by decide) (by decide), by decide⟩
  have hok' : SameTime twoSpeeds x.1 ⟨1000000, 2, 300000000, ⟨2, 0⟩⟩ :=
    ⟨listedOk_of_unlisted hlist hfind (by decide) hflag (by decide) (by decide) (by decide),
      by decide⟩
  have hreach := ((Reach.start hboot).step hok hx).step hok' hy
  exact ⟨y.1, hreach, hlist', hfirst, hsecond, enforced_passes twoSpeeds hreach⟩

/-- Successful calls, at frequencies of the table. -/
def Granted (e : Env) (s : KState) (q : Request) : Prop :=
  ListedOk s (.setProcessBudget q.pid q.budget q.period) ∧ some q.freq ∈ e.table ∧
    q.freq ≤ e.maxFreq ∧ ∃ s', q.exec e s = .ok (s', 0)

/-- 600 million cycles in every second, asked for at 500 MHz, half the maximum.  They are admitted as
600 ms, and enforced as 1.2 s. -/
theorem enforced_exceeds_period :
    ¬ ∀ e s, Reach BootedNoPm (Granted e) (Request.exec e) s → EnforcedPasses s := by
  intro hall
  have hboot : BootedNoPm (bootState [1] .noPm) := ⟨booted_bootState [1] .noPm, rfl⟩
  have hlist := (kept_booted hboot.1).onList
  obtain ⟨⟨s, r⟩, hx, hr, hlist', hbudget, hperiod⟩ : ∃ x, Request.exec twoSpeeds
      (bootState [1] .noPm) ⟨500000, 1, 600000000, ⟨1, 0⟩⟩ = .ok x ∧ x.2 = 0 ∧ OnList x.1 [1] ∧
      (x.1.task 1).budgetTime = ⟨1, 200000000⟩ ∧ (x.1.task 1).timePeriod = ⟨1, 0⟩ :=
    exists_ok_of_test (by decide)
  obtain rfl : r = 0 := hr
  have hok : Granted twoSpeeds (bootState [1] .noPm) ⟨500000, 1, 600000000, ⟨1, 0⟩⟩ :=
    ⟨listedOk_of_empty hlist (by decide) (by decide) (by decide), by decide, by decide, s, hx⟩
  obtain ⟨list, honlist, -, hbelow⟩ := hall twoSpeeds s ((Reach.start hboot).step hok hx)
  obtain rfl := honlist.unique hlist'
  have hlt := hbelow 1 (List.mem_singleton_self 1)
  rw [hbudget, hperiod] at hlt
  exact absurd hlt (by decide)

end RtSched
