import RtSched.Base.Run
import RtSched.Task

/-!
# Budget enforcement (`kernel/sched.c`)

One CPU and one reserved process of a single thread: the hook in `__schedule`, the two timer
callbacks, and the clock.  The running task is stopped by its budget timer, which is armed when it
is switched in, and by nothing else; so whoever leaves it running without a timer lets it run on.

* `hookOut`, `hookIn`: the code between `prev != next` and `context_switch`;
* `budgetTimerCallback`, `periodTimerCallback`;
* `budget_enforced`: within one period the task runs for at most its budget, in every run in which
  it is picked again only while its timer is armed and switched in only while it is not asleep;
* `budget_not_enforced`: when both timers expire at one instant it is not.
-/

namespace RtSched

open Call

/-! ### The code -/

/-- `hrtimer_forward`, for a resolution of one nanosecond: the new expiry. -/
def hrtimerForward (expires now interval : ℤ) : ℤ :=
  let delta := now - expires
  if delta < 0 then expires
  else
    let interval := if interval < 1 then 1 else interval
    if delta ≥ interval then
      let expires := expires + interval * (delta / interval)
      if expires > now then expires else expires + interval
    else expires + interval

/-- `budget_timer_callback`; the timer is not restarted. -/
def budgetTimerCallback (p : TaskStruct) : TaskStruct :=
  if p.state ≠ .uninterruptible then
    { p with budgetTimer := none, state := .uninterruptible, needResched := true }
  else { p with budgetTimer := none }

/-- `period_timer_callback`. -/
def periodTimerCallback (now : ℤ) (p : TaskStruct) : TaskStruct :=
  wakeUpProcess { p with
    computeTime := ⟨0, 0⟩
    periodTimer := p.periodTimer.map fun expires =>
      hrtimerForward expires now (timespecToNs p.timePeriod) }

/-- The hook in `__schedule` for the task that leaves the CPU. -/
def hookOut (now : ℤ) (prev : TaskStruct) : TaskStruct :=
  if prev.isBudgetSet then
    let diff := timespecSub (nsToTimespec now) prev.execTime
    { prev with budgetTimer := none, computeTime := timespecAdd prev.computeTime diff }
  else prev

/-- The part of the hook that arms the budget timer or puts the task to sleep. -/
def armBudget (now : ℤ) (next : TaskStruct) : TaskStruct :=
  if timespecCompare next.budgetTime next.computeTime > 0 then
    let temp := timespecSub next.budgetTime next.computeTime
    -- the last 10 µs are not worth a timer
    if temp.tvSec = 0 ∧ temp.tvNsec ≤ 10000 then
      { next with state := .uninterruptible, needResched := true }
    else { next with budgetTimer := some (now + timespecToNs temp) }
  else if next.state ≠ .uninterruptible then
    { next with state := .uninterruptible, needResched := true }
  else next

/-- The hook in `__schedule` for the task that gets the CPU. -/
def hookIn (now : ℤ) (next : TaskStruct) : TaskStruct :=
  if next.isBudgetSet then armBudget now { next with execTime := nsToTimespec now } else next

/-! ### One CPU -/

/-- The CPU as the task sees it. -/
structure CpuState where
  /-- the clock, in nanoseconds -/
  now : ℤ
  task : TaskStruct
  /-- the task is `rq->curr` -/
  running : Bool
  onRq : Bool
  /-- for how long the task has run since the last `period_timer_callback` -/
  executed : ℤ

/-- What can happen. -/
inductive CpuEvent
  /-- time passes -/
  | pass (d : ℕ)
  /-- `__schedule` from another task to this one -/
  | switchIn
  /-- `__schedule` called by this task, with `PREEMPT_ACTIVE` or not; it is picked again or not -/
  | resched (preemptActive again : Bool)
  | budgetExpiry
  | periodExpiry

/-- `__schedule` takes the task it was called by off the runqueue. -/
def CpuState.deactivates (s : CpuState) (preemptActive : Bool) : Bool :=
  s.task.state ≠ .running && !preemptActive

/-- Timers expire on time, and a pending reschedule is served before time passes. -/
def Enabled (s : CpuState) : CpuEvent → Prop
  | .pass d => (s.running = true → s.task.needResched = false) ∧
      (∀ x ∈ s.task.budgetTimer, s.now + d ≤ x) ∧ ∀ x ∈ s.task.periodTimer, s.now + d ≤ x
  | .switchIn => s.running = false ∧ s.onRq = true
  | .resched preemptActive again => s.running = true ∧
      (again = true → s.onRq = true ∧ s.deactivates preemptActive = false)
  | .budgetExpiry => s.task.budgetTimer = some s.now
  | .periodExpiry => s.task.periodTimer = some s.now

instance (s : CpuState) (a : CpuEvent) : Decidable (Enabled s a) := by
  cases a <;> unfold Enabled <;> infer_instance

/-- The state after an event. -/
def CpuState.after (s : CpuState) : CpuEvent → CpuState
  | .pass d => { s with
      now := s.now + d
      executed := if s.running then s.executed + d else s.executed }
  | .switchIn => { s with task := hookIn s.now s.task, running := true }
  | .resched preemptActive again =>
      let s := { s with
        onRq := s.onRq && !s.deactivates preemptActive
        task := { s.task with needResched := false } }
      -- `prev == next` skips the hook
      if again then s else { s with task := hookOut s.now s.task, running := false }
  | .budgetExpiry => { s with task := budgetTimerCallback s.task }
  | .periodExpiry => { s with
      task := periodTimerCallback s.now s.task
      onRq := s.onRq || (s.task.state ≠ .running && s.task.state ≠ .dead)
      executed := 0 }

/-- An event as a step of a run. -/
def cpuExec (s : CpuState) (a : CpuEvent) : Call CpuState (CpuState × Unit) := .ok (s.after a, ())

/-- A task with a reservation, first seen switched out. -/
structure SwitchedOut (s : CpuState) : Prop where
  off : s.running = false
  budgetSet : s.task.isBudgetSet = true
  unarmed : s.task.budgetTimer = none
  budget : s.task.budgetTime.Normalised ∧ 0 ≤ timespecToNs s.task.budgetTime
  compute : s.task.computeTime.Normalised ∧ 0 ≤ timespecToNs s.task.computeTime
  executed : s.executed = 0

/-! ### The invariant -/

/-- The task is picked again only while its timer is armed, and switched in only while it is not
asleep. -/
def EnforceOk (s : CpuState) : CpuEvent → Prop
  | .switchIn => s.task.state ≠ .uninterruptible
  | .resched _ again => again = true → s.task.budgetTimer.isSome = true
  | _ => True

instance (s : CpuState) (a : CpuEvent) : Decidable (EnforceOk s a) := by
  cases a <;> unfold EnforceOk <;> infer_instance

/-- Off the CPU the task has been charged for what it ran.  On the CPU the rest of its budget is on
the timer; without a timer it is about to leave. -/
structure BudgetInv (s : CpuState) : Prop where
  budgetSet : s.task.isBudgetSet = true
  budget : s.task.budgetTime.Normalised ∧ 0 ≤ timespecToNs s.task.budgetTime
  compute : s.task.computeTime.Normalised
  nonneg : 0 ≤ s.executed
  le : s.executed ≤ timespecToNs s.task.budgetTime
  off : s.running = false →
    s.task.budgetTimer = none ∧ s.executed ≤ timespecToNs s.task.computeTime
  charge : s.running = true → timespecToNs s.task.execTime ≤ s.now ∧
    s.executed ≤ timespecToNs s.task.computeTime + (s.now - timespecToNs s.task.execTime)
  armed : ∀ x, s.task.budgetTimer = some x → s.task.state ≠ .uninterruptible ∧
    s.executed + (x - s.now) ≤ timespecToNs s.task.budgetTime
  leaving : s.running = true → s.task.budgetTimer = none → s.task.needResched = true

variable {s : CpuState}

theorem budgetInv_start (h : SwitchedOut s) : BudgetInv s := by
  obtain ⟨h1, h2, h3, h4, h5, h6⟩ := h
  refine ⟨h2, h4, h5.1, h6.symm.le, by omega, fun _ => ⟨h3, by omega⟩, fun hr => ?_, fun x hx => ?_,
    fun hr => ?_⟩
  · rw [h1] at hr
    cases hr
  · rw [h3] at hx
    cases hx
  · rw [h1] at hr
    cases hr

theorem budgetInv_pass (h : BudgetInv s) {d : ℕ} (hok : Enabled s (.pass d)) :
    BudgetInv (s.after (.pass d)) := by
  obtain ⟨hresched, htimer, -⟩ := hok
  cases hr : s.running with
  | false =>
    obtain ⟨hnone, hle⟩ := h.off hr
    refine ⟨h.budgetSet, h.budget, h.compute, ?_, ?_, fun _ => ⟨hnone, ?_⟩, ?_, ?_, ?_⟩ <;>
      simp only [CpuState.after, hr, Bool.false_eq_true, if_false, false_implies]
    · exact h.nonneg
    · exact h.le
    · exact hle
    · intro x hx
      rw [hnone] at hx
      cases hx
  | true =>
    obtain ⟨hexec, hle⟩ := h.charge hr
    -- the timer is armed, since nothing is pending
    obtain ⟨x, hx⟩ : ∃ x, s.task.budgetTimer = some x := by
      refine Option.ne_none_iff_exists'.1 fun hnone => ?_
      have h1 := h.leaving hr hnone
      rw [hresched hr] at h1
      cases h1
    have hle' := htimer x hx
    have harmed := (h.armed x hx).2
    have hnonneg := h.nonneg
    refine ⟨h.budgetSet, h.budget, h.compute, ?_, ?_, ?_, ?_, ?_, ?_⟩ <;>
      simp only [CpuState.after, hr, if_true, Bool.true_eq_false, false_implies, forall_const]
    · omega
    · omega
    · omega
    · intro y hy
      rw [hx] at hy
      cases hy
      exact ⟨(h.armed x hx).1, by omega⟩
    · intro hnone
      rw [hx] at hnone
      cases hnone

/-- The hook at switch-in arms the timer for the rest of the budget, or asks for a reschedule. -/
theorem hookIn_cases (now : ℤ) {p : TaskStruct} (hset : p.isBudgetSet = true)
    (hb : p.budgetTime.Normalised) (hc : p.computeTime.Normalised)
    (hstate : p.state ≠ .uninterruptible) :
    (timespecToNs p.computeTime < timespecToNs p.budgetTime ∧
      hookIn now p = { p with
        execTime := nsToTimespec now
        budgetTimer := some (now + (timespecToNs p.budgetTime - timespecToNs p.computeTime)) }) ∨
    hookIn now p = { p with
      execTime := nsToTimespec now, state := .uninterruptible, needResched := true } := by
  simp only [hookIn, hset, if_true, armBudget]
  split_ifs with h1 h2
  · exact Or.inr rfl
  · refine Or.inl ⟨(timespecCompare_pos_iff_ns hb hc).1 h1, ?_⟩
    rw [timespecToNs_sub]
  · exact Or.inr rfl

theorem budgetInv_switchIn (h : BudgetInv s) (hok : Enabled s .switchIn)
    (hstate : s.task.state ≠ .uninterruptible) : BudgetInv (s.after .switchIn) := by
  obtain ⟨hnone, hle⟩ := h.off hok.1
  have hbudget := h.le
  rcases hookIn_cases s.now h.budgetSet h.budget.1 h.compute hstate with ⟨hlt, heq⟩ | heq
  · refine ⟨?_, ?_, ?_, h.nonneg, ?_, ?_, ?_, ?_, ?_⟩ <;> simp only [CpuState.after, heq]
    · exact h.budgetSet
    · exact h.budget
    · exact h.compute
    · exact h.le
    · exact Bool.noConfusion
    · intro _
      rw [timespecToNs_nsToTimespec]
      omega
    · intro x hx
      cases hx
      exact ⟨hstate, by omega⟩
    · intro _ hx
      cases hx
  · refine ⟨?_, ?_, ?_, h.nonneg, ?_, ?_, ?_, ?_, ?_⟩ <;> simp only [CpuState.after, heq]
    · exact h.budgetSet
    · exact h.budget
    · exact h.compute
    · exact h.le
    · exact Bool.noConfusion
    · intro _
      rw [timespecToNs_nsToTimespec]
      omega
    · intro x hx
      rw [hnone] at hx
      cases hx
    · exact fun _ _ => trivial

theorem budgetInv_resched (h : BudgetInv s) {preemptActive again : Bool}
    (hok : Enabled s (.resched preemptActive again))
    (harmed : again = true → s.task.budgetTimer.isSome = true) :
    BudgetInv (s.after (.resched preemptActive again)) := by
  have hr := hok.1
  obtain ⟨hexec, hle⟩ := h.charge hr
  cases again with
  | true =>
    refine ⟨h.budgetSet, h.budget, h.compute, h.nonneg, h.le, ?_, fun _ => ⟨hexec, hle⟩, h.armed, ?_⟩
    · intro hoff
      simp only [CpuState.after, if_true] at hoff
      rw [hr] at hoff
      cases hoff
    · intro _ hnone
      have := harmed rfl
      simp only [CpuState.after, if_true] at hnone
      rw [hnone] at this
      cases this
  | false =>
    have hafter : s.after (.resched preemptActive false) =
        { s with
          onRq := s.onRq && !s.deactivates preemptActive
          running := false
          task := { s.task with
            needResched := false, budgetTimer := none
            computeTime := timespecAdd s.task.computeTime
              (timespecSub (nsToTimespec s.now) s.task.execTime) } } := by
      simp only [CpuState.after, hookOut, h.budgetSet, Bool.false_eq_true, if_false, if_true]
    rw [hafter]
    refine ⟨h.budgetSet, h.budget, setNormalizedTimespec_normalised _ _, h.nonneg, h.le,
      fun _ => ⟨rfl, ?_⟩, Bool.noConfusion, ?_, Bool.noConfusion⟩
    · simp only [timespecToNs_add, timespecToNs_sub, timespecToNs_nsToTimespec]
      exact hle
    · intro x hx
      cases hx

theorem budgetInv_budgetExpiry (h : BudgetInv s) (hok : Enabled s .budgetExpiry) :
    BudgetInv (s.after .budgetExpiry) := by
  obtain ⟨hstate, -⟩ := h.armed _ hok
  have hafter : s.after .budgetExpiry = { s with
      task := { s.task with
        budgetTimer := none, state := .uninterruptible, needResched := true } } := by
    simp only [CpuState.after, budgetTimerCallback, if_pos hstate]
  rw [hafter]
  refine ⟨h.budgetSet, h.budget, h.compute, h.nonneg, h.le, fun hoff => ?_, h.charge, ?_,
    fun _ _ => rfl⟩
  · exact ⟨rfl, (h.off hoff).2⟩
  · intro x hx
    cases hx

theorem budgetInv_periodExpiry (h : BudgetInv s) : BudgetInv (s.after .periodExpiry) := by
  obtain ⟨state, hstate, hwake⟩ := wakeUpProcess_eq { s.task with
    computeTime := ⟨0, 0⟩
    periodTimer := s.task.periodTimer.map fun expires =>
      hrtimerForward expires s.now (timespecToNs s.task.timePeriod) }
  have htask : (s.after .periodExpiry).task = _ := hwake
  have hnonneg := h.nonneg
  refine ⟨?_, ?_, ?_, le_rfl, ?_, ?_, ?_, ?_, ?_⟩ <;> rw [htask]
  · exact h.budgetSet
  · exact h.budget
  · exact ⟨by norm_num, by norm_num⟩
  · exact h.budget.2
  · exact fun hoff => ⟨(h.off hoff).1, le_rfl⟩
  · intro hr
    have hexec := (h.charge hr).1
    refine ⟨hexec, ?_⟩
    simp only [CpuState.after, timespecToNs]
    unfold timespecToNs at hexec
    omega
  · intro x hx
    have := (h.armed x hx).2
    refine ⟨hstate, ?_⟩
    simp only [CpuState.after]
    omega
  · exact h.leaving

/-- **The budget is enforced.**  In every run in which the task is picked again only while its timer
is armed, and switched in only while it is not asleep, it never runs for more than its budget since
the last `period_timer_callback`. -/
theorem budget_enforced {s : CpuState}
    (h : Reach SwitchedOut (fun s a => Enabled s a ∧ EnforceOk s a) cpuExec s) :
    s.executed ≤ timespecToNs s.task.budgetTime := by
  refine (h.inv (I := BudgetInv) (E := fun _ => False) (fun _ => budgetInv_start)
    fun s a hs hok => ?_).le
  cases a with
  | pass d => exact budgetInv_pass hs hok.1
  | switchIn => exact budgetInv_switchIn hs hok.1 hok.2
  | resched preemptActive again => exact budgetInv_resched hs hok.1 hok.2
  | budgetExpiry => exact budgetInv_budgetExpiry hs hok.1
  | periodExpiry => exact budgetInv_periodExpiry hs

/-- A task with 20 µs in 100 µs whose first period has just begun. -/
def shortBudget : CpuState where
  now := 0
  task := { newTask 1 with
    isBudgetSet := true, budgetTime := ⟨0, 20000⟩, timePeriod := ⟨0, 100000⟩
    computeTime := ⟨0, 0⟩, periodTimer := some 100000 }
  running := false
  onRq := true
  executed := 0

theorem switchedOut_shortBudget : SwitchedOut shortBudget :=
  ⟨rfl, rfl, rfl, by decide, by decide, rfl⟩

/-- The task uses up its budget, sleeps, and runs again in the next period. -/
theorem budget_enforced_run :
    ∃ s, Reach SwitchedOut (fun s a => Enabled s a ∧ EnforceOk s a) cpuExec s ∧
      s.executed = 5000 ∧ s.executed ≤ timespecToNs s.task.budgetTime := by
  obtain ⟨s, hs, hexec⟩ : ∃ s, follow (fun s a => Enabled s a ∧ EnforceOk s a) cpuExec
      [.pass 80000, .switchIn, .pass 20000, .budgetExpiry, .resched false false, .periodExpiry,
        .switchIn, .pass 5000] shortBudget = some s ∧ s.executed = 5000 :=
    exists_some_of_test (by decide)
  have hreach := reach_of_follow (Reach.start switchedOut_shortBudget) hs
  exact ⟨s, hreach, hexec, budget_enforced hreach⟩

/-- Both timers expire at one instant, the budget timer first: the period timer wakes the task again
before it has left the CPU, and it runs on without a timer. -/
theorem budget_not_enforced :
    ¬ ∀ s, Reach SwitchedOut Enabled cpuExec s → s.executed ≤ timespecToNs s.task.budgetTime := by
  intro h
  obtain ⟨s, hs, hgt⟩ : ∃ s, follow Enabled cpuExec
      [.pass 80000, .switchIn, .pass 20000, .budgetExpiry, .periodExpiry, .resched false true,
        .pass 30000] shortBudget = some s ∧
      timespecToNs s.task.budgetTime < s.executed :=
    exists_some_of_test (by decide)
  exact absurd (h s (reach_of_follow (Reach.start switchedOut_shortBudget) hs)) (not_le.2 hgt)

end RtSched
