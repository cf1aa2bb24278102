import RtSched.Enforcement

/-!
# A reservation that is used up every period

One reserved process of a single thread that never sleeps on its own, seen from its CPU.  When it
sleeps it has used up its budget, up to the 10 µs for which the hook starts no timer.

* `ReserveInv`: the account of such a task; all the time it ran is on record, and the rest of its budget
  is on the timer while it has the CPU;
* `ReserveInv.step`: every event keeps it, if the task is asleep whenever its period timer expires.
-/

namespace RtSched

/-- What is left of the budget; a task that sleeps has given it up. -/
def CpuState.left (s : CpuState) : ℤ :=
  if s.task.state = .running then timespecToNs s.task.budgetTime - s.executed else 0

/-- When the budget was last filled. -/
def CpuState.last (s : CpuState) : ℤ := s.task.periodTimer.getD 0 - timespecToNs s.task.timePeriod

/-- A reservation whose task never sleeps on its own. -/
structure ReserveInv (s : CpuState) : Prop where
  budgetSet : s.task.isBudgetSet = true
  budget : s.task.budgetTime.Normalised
  compute : s.task.computeTime.Normalised
  period : 0 < timespecToNs s.task.timePeriod
  state : s.task.state = .running ∨ s.task.state = .uninterruptible
  queued : s.onRq = true ↔ s.task.state = .running ∨ s.running = true
  timer : ∃ x, s.task.periodTimer = some x ∧ s.now ≤ x ∧
    x ≤ s.now + timespecToNs s.task.timePeriod
  nonneg : 0 ≤ s.executed
  le : s.executed ≤ timespecToNs s.task.budgetTime
  off : s.running = false →
    s.task.budgetTimer = none ∧ timespecToNs s.task.computeTime = s.executed
  on : s.running = true →
    timespecToNs s.task.computeTime + (s.now - timespecToNs s.task.execTime) = s.executed
  armed : s.running = true → s.task.state = .running → s.task.budgetTimer =
    some (s.now + (timespecToNs s.task.budgetTime - s.executed))
  leaving : s.running = true → s.task.state = .uninterruptible →
    s.task.budgetTimer = none ∧ s.task.needResched = true
  asleep : s.task.state = .uninterruptible →
    timespecToNs s.task.budgetTime - 10000 ≤ s.executed

/-- The task is not preempted in the kernel while it goes to sleep, and a period begins only when it
sleeps. -/
def ReserveOk (s : CpuState) : CpuEvent → Prop
  | .resched preemptActive _ => preemptActive = true → s.task.state = .running
  | .periodExpiry => s.running = false ∧ s.task.state = .uninterruptible
  | _ => True

variable {s : CpuState}

/-- The hook at switch-in arms the timer, or puts a task with at most 10 µs left to sleep. -/
theorem hookIn_short (now : ℤ) {p : TaskStruct} (hset : p.isBudgetSet = true)
    (hb : p.budgetTime.Normalised) (hc : p.computeTime.Normalised)
    (hstate : p.state = .running) :
    hookIn now p = { p with
      execTime := nsToTimespec now
      budgetTimer := some (now + (timespecToNs p.budgetTime - timespecToNs p.computeTime)) } ∨
    timespecToNs p.budgetTime - timespecToNs p.computeTime ≤ 10000 ∧
      hookIn now p = { p with
        execTime := nsToTimespec now, state := .uninterruptible, needResched := true } := by
  simp only [hookIn, hset, if_true, armBudget]
  split_ifs with hmore hshort hawake
  · refine Or.inr ⟨?_, rfl⟩
    rw [← timespecToNs_sub, timespecToNs]
    omega
  · refine Or.inl ?_
    rw [timespecToNs_sub]
  · refine Or.inr ⟨?_, rfl⟩
    have := (timespecCompare_le_iff_ns hb hc).1 (not_lt.1 hmore)
    omega
  · rw [hstate] at hawake
    exact absurd (by decide) hawake

theorem ReserveInv.awake_of_resched (h : ReserveInv s) (hr : s.running = true)
    (hresched : s.task.needResched = false) : s.task.state = .running := by
  refine h.state.resolve_right fun hsleep => ?_
  have := (h.leaving hr hsleep).2
  rw [hresched] at this
  cases this

theorem ReserveInv.pass (h : ReserveInv s) {d : ℕ} (hok : Enabled s (.pass d)) :
    ReserveInv (s.after (.pass d)) := by
  obtain ⟨hresched, hbudget, hperiod⟩ := hok
  obtain ⟨x, hx, hnow, hlast⟩ := h.timer
  have htimer : ∃ x, s.task.periodTimer = some x ∧ s.now + d ≤ x ∧
      x ≤ s.now + d + timespecToNs s.task.timePeriod := ⟨x, hx, hperiod x hx, by omega⟩
  cases hr : s.running with
  | false =>
    have hafter : s.after (.pass d) = { s with now := s.now + d } := by
      simp only [CpuState.after, hr, Bool.false_eq_true, if_false]
    have hoff : s.running ≠ true := by
      rw [hr]
      exact Bool.false_ne_true
    rw [hafter]
    exact ⟨h.budgetSet, h.budget, h.compute, h.period, h.state, h.queued, htimer, h.nonneg, h.le,
      h.off, fun hr' => absurd hr' hoff, fun hr' => absurd hr' hoff, h.leaving, h.asleep⟩
  | true =>
    have hawake := h.awake_of_resched hr (hresched hr)
    have harmed := h.armed hr hawake
    have hle := hbudget _ harmed
    have hon := h.on hr
    have hnonneg := h.nonneg
    have hafter : s.after (.pass d) = { s with now := s.now + d, executed := s.executed + d } := by
      simp only [CpuState.after, hr, if_true]
    rw [hafter]
    refine ⟨h.budgetSet, h.budget, h.compute, h.period, h.state, h.queued, htimer, ?_, ?_,
      fun hr' => absurd (hr.symm.trans hr') Bool.noConfusion, fun _ => ?_, fun _ _ => ?_, h.leaving,
      fun hsleep => ?_⟩
    · show 0 ≤ s.executed + d
      omega
    · show s.executed + d ≤ timespecToNs s.task.budgetTime
      omega
    · show timespecToNs s.task.computeTime + (s.now + d - timespecToNs s.task.execTime) =
        s.executed + d
      omega
    · show s.task.budgetTimer =
        some (s.now + d + (timespecToNs s.task.budgetTime - (s.executed + d)))
      rw [harmed]
      congr 1
      ring
    · cases hawake.symm.trans hsleep

/-- A task that is switched in gets a timer for the rest of its budget, or goes to sleep again. -/
theorem ReserveInv.after_switchIn (h : ReserveInv s) (hok : Enabled s .switchIn) :
    s.task.state = .running ∧
      (s.after .switchIn = { s with
        running := true
        task := { s.task with
          execTime := nsToTimespec s.now
          budgetTimer := some (s.now + (timespecToNs s.task.budgetTime - s.executed)) } } ∨
      timespecToNs s.task.budgetTime - 10000 ≤ s.executed ∧ s.after .switchIn = { s with
        running := true
        task := { s.task with
          execTime := nsToTimespec s.now, state := .uninterruptible, needResched := true } }) := by
  obtain ⟨hoff, hrq⟩ := hok
  have hawake : s.task.state = .running := by
    refine (h.queued.1 hrq).resolve_right fun hon => ?_
    rw [hoff] at hon
    cases hon
  refine ⟨hawake, ?_⟩
  obtain ⟨-, hcompute⟩ := h.off hoff
  simp only [CpuState.after]
  rcases hookIn_short s.now h.budgetSet h.budget h.compute hawake with heq | ⟨hshort, heq⟩
  · rw [heq, hcompute]
    exact Or.inl rfl
  · rw [heq]
    exact Or.inr ⟨by omega, rfl⟩

theorem ReserveInv.switchIn (h : ReserveInv s) (hok : Enabled s .switchIn) :
    ReserveInv (s.after .switchIn) := by
  obtain ⟨hnone, hcompute⟩ := h.off hok.1
  have hon : timespecToNs s.task.computeTime + (s.now - timespecToNs (nsToTimespec s.now)) =
      s.executed := by
    rw [timespecToNs_nsToTimespec]
    omega
  obtain ⟨hawake, hafter | ⟨hshort, hafter⟩⟩ := h.after_switchIn hok
  · rw [hafter]
    exact ⟨h.budgetSet, h.budget, h.compute, h.period, h.state, ⟨fun _ => Or.inr rfl, fun _ => hok.2⟩,
      h.timer, h.nonneg, h.le, Bool.noConfusion, fun _ => hon, fun _ _ => rfl,
      fun _ hsleep => absurd (hawake.symm.trans hsleep) RunState.noConfusion, h.asleep⟩
  · rw [hafter]
    exact ⟨h.budgetSet, h.budget, h.compute, h.period, Or.inr rfl,
      ⟨fun _ => Or.inr rfl, fun _ => hok.2⟩, h.timer, h.nonneg, h.le, Bool.noConfusion, fun _ => hon,
      fun _ => RunState.noConfusion, fun _ _ => ⟨hnone, rfl⟩, fun _ => hshort⟩

/-- A task that is preempted in the kernel is awake, so `__schedule` takes it off the runqueue just
when it is asleep. -/
theorem ReserveInv.deactivates (h : ReserveInv s) {preemptActive again : Bool}
    (hok : ReserveOk s (.resched preemptActive again)) :
    s.deactivates preemptActive = true ↔ s.task.state = .uninterruptible := by
  rcases h.state with hawake | hsleep
  · simp [CpuState.deactivates, hawake]
  · have hpre : preemptActive = false := by
      cases preemptActive with
      | false => rfl
      | true => cases hsleep.symm.trans (hok rfl)
    simp [CpuState.deactivates, hsleep, hpre]

theorem ReserveInv.resched (h : ReserveInv s) {preemptActive again : Bool}
    (hok : Enabled s (.resched preemptActive again))
    (hok' : ReserveOk s (.resched preemptActive again)) :
    ReserveInv (s.after (.resched preemptActive again)) := by
  obtain ⟨hr, hagain⟩ := hok
  have hdeact := h.deactivates hok'
  have hrq : s.onRq = true := h.queued.2 (Or.inr hr)
  cases again with
  | true =>
    have hawake : s.task.state = .running := by
      refine h.state.resolve_right fun hsleep => ?_
      rw [(hagain rfl).2] at hdeact
      exact Bool.false_ne_true (hdeact.2 hsleep)
    have hafter : s.after (.resched preemptActive true) =
        { s with task := { s.task with needResched := false } } := by
      simp only [CpuState.after, if_true, (hagain rfl).2, Bool.not_false, Bool.and_true]
    rw [hafter]
    exact ⟨h.budgetSet, h.budget, h.compute, h.period, h.state, h.queued, h.timer, h.nonneg, h.le,
      h.off, h.on, h.armed, fun _ hsleep => absurd (hawake.symm.trans hsleep) RunState.noConfusion,
      h.asleep⟩
  | false =>
    have hafter : s.after (.resched preemptActive false) = { s with
        onRq := s.onRq && !s.deactivates preemptActive
        running := false
        task := { s.task with
          needResched := false, budgetTimer := none
          computeTime := timespecAdd s.task.computeTime
            (timespecSub (nsToTimespec s.now) s.task.execTime) } } := by
      simp only [CpuState.after, hookOut, h.budgetSet, Bool.false_eq_true, if_false, if_true]
    rw [hafter]
    refine ⟨h.budgetSet, h.budget, setNormalizedTimespec_normalised _ _, h.period, h.state, ?_,
      h.timer, h.nonneg, h.le, fun _ => ⟨rfl, ?_⟩, Bool.noConfusion, Bool.noConfusion,
      Bool.noConfusion, h.asleep⟩
    · show (s.onRq && !s.deactivates preemptActive) = true ↔ s.task.state = .running ∨ false = true
      rw [hrq, Bool.true_and, Bool.not_eq_true', ← Bool.not_eq_true, hdeact]
      rcases h.state with hawake | hsleep
      · simp [hawake]
      · simp [hsleep]
    · show timespecToNs (timespecAdd s.task.computeTime _) = s.executed
      rw [timespecToNs_add, timespecToNs_sub, timespecToNs_nsToTimespec]
      exact h.on hr

/-- The timer is queued only while the task is awake on its CPU, for the rest of the budget. -/
theorem ReserveInv.of_budgetTimer (h : ReserveInv s) {x : ℤ} (hsome : s.task.budgetTimer = some x) :
    s.running = true ∧ s.task.state = .running ∧
      x = s.now + (timespecToNs s.task.budgetTime - s.executed) := by
  have hr : s.running = true := by
    by_contra hoff
    rw [(h.off (Bool.eq_false_of_not_eq_true hoff)).1] at hsome
    cases hsome
  have hawake : s.task.state = .running := by
    refine h.state.resolve_right fun hsleep => ?_
    rw [(h.leaving hr hsleep).1] at hsome
    cases hsome
  exact ⟨hr, hawake, Option.some.inj (hsome.symm.trans (h.armed hr hawake))⟩

/-- It is never late. -/
theorem ReserveInv.budget_due (h : ReserveInv s) (hdue : ∃ x ∈ s.task.budgetTimer, x ≤ s.now) :
    Enabled s .budgetExpiry := by
  obtain ⟨x, hx, hle⟩ := hdue
  obtain ⟨-, -, heq⟩ := h.of_budgetTimer hx
  have := h.le
  obtain rfl : x = s.now := by omega
  exact hx

/-- The timer expires when nothing is left, and the task goes to sleep. -/
theorem ReserveInv.after_budgetExpiry (h : ReserveInv s) (hok : Enabled s .budgetExpiry) :
    s.running = true ∧ s.task.state = .running ∧
      s.executed = timespecToNs s.task.budgetTime ∧
      s.after .budgetExpiry = { s with task := { s.task with
        budgetTimer := none, state := .uninterruptible, needResched := true } } := by
  obtain ⟨hr, hawake, hall⟩ := h.of_budgetTimer hok
  refine ⟨hr, hawake, by omega, ?_⟩
  simp only [CpuState.after, budgetTimerCallback, hawake, ne_eq, reduceCtorEq, not_false_eq_true,
    if_true]

theorem ReserveInv.budgetExpiry (h : ReserveInv s) (hok : Enabled s .budgetExpiry) :
    ReserveInv (s.after .budgetExpiry) := by
  obtain ⟨hr, hawake, hall, hafter⟩ := h.after_budgetExpiry hok
  rw [hafter]
  exact ⟨h.budgetSet, h.budget, h.compute, h.period, Or.inr rfl,
    ⟨fun _ => Or.inr hr, fun _ => h.queued.2 (Or.inl hawake)⟩, h.timer, h.nonneg, h.le,
    fun hoff => absurd (hr.symm.trans hoff) Bool.noConfusion, h.on, fun _ => RunState.noConfusion,
    fun _ _ => ⟨rfl, rfl⟩, fun _ => by
      show timespecToNs s.task.budgetTime - 10000 ≤ s.executed
      omega⟩

theorem hrtimerForward_self {now interval : ℤ} (h : 0 < interval) :
    hrtimerForward now now interval = now + interval := by
  have hpos : ¬ interval < 1 := by omega
  simp only [hrtimerForward, sub_self, lt_irrefl, if_false, hpos]
  exact if_neg (by omega)

/-- The next period begins with a full budget. -/
theorem ReserveInv.after_periodExpiry (h : ReserveInv s) (hok : Enabled s .periodExpiry)
    (hok' : ReserveOk s .periodExpiry) : s.after .periodExpiry = { s with
      onRq := true
      executed := 0
      task := { s.task with
        computeTime := ⟨0, 0⟩
        periodTimer := some (s.now + timespecToNs s.task.timePeriod)
        state := .running } } := by
  have hsome : s.task.periodTimer = some s.now := hok
  simp only [CpuState.after, periodTimerCallback, wakeUpProcess, hsome, hok'.2, Option.map_some,
    hrtimerForward_self h.period]
  simp

theorem ReserveInv.periodExpiry (h : ReserveInv s) (hok : Enabled s .periodExpiry)
    (hok' : ReserveOk s .periodExpiry) : ReserveInv (s.after .periodExpiry) := by
  have hbudget := h.nonneg.trans h.le
  have hperiod := h.period
  have hoff : s.running ≠ true := by
    rw [hok'.1]
    exact Bool.false_ne_true
  have hzero : Timespec.Normalised ⟨0, 0⟩ := ⟨by decide, by decide⟩
  rw [h.after_periodExpiry hok hok']
  exact ⟨h.budgetSet, h.budget, hzero, h.period, Or.inl rfl, ⟨fun _ => Or.inl rfl, fun _ => rfl⟩,
    ⟨_, rfl, by show s.now ≤ _; omega, le_rfl⟩, le_rfl, hbudget,
    fun _ => ⟨(h.off hok'.1).1, rfl⟩, fun hr => absurd hr hoff, fun hr => absurd hr hoff,
    fun hr => absurd hr hoff, RunState.noConfusion⟩

/-- One event. -/
theorem ReserveInv.step (h : ReserveInv s) {e : CpuEvent} (hok : Enabled s e)
    (hok' : ReserveOk s e) : ReserveInv (s.after e) := by
  cases e with
  | pass d => exact h.pass hok
  | switchIn => exact h.switchIn hok
  | resched preemptActive again => exact h.resched hok hok'
  | budgetExpiry => exact h.budgetExpiry hok
  | periodExpiry => exact h.periodExpiry hok hok'

/-! ### The account -/

/-- An event that the account does not show. -/
structure SameAccount (s s' : CpuState) : Prop where
  awake : s'.task.state = .running ↔ s.task.state = .running
  left : s'.left = s.left
  last : s'.last = s.last

/-- The task has gone to sleep. -/
structure Sleeps (s s' : CpuState) : Prop where
  state : s'.task.state = .uninterruptible
  last : s'.last = s.last

/-- A period has begun. -/
structure Fills (s s' : CpuState) : Prop where
  state : s'.task.state = .running
  left : s'.left = timespecToNs s.task.budgetTime
  last : s'.last = s.now

theorem SameAccount.refl (s : CpuState) : SameAccount s s := ⟨Iff.rfl, rfl, rfl⟩

theorem left_of_asleep (h : s.task.state = .uninterruptible) : s.left = 0 :=
  if_neg (by rw [h]; exact RunState.noConfusion)

theorem left_of_awake (h : s.task.state = .running) :
    s.left = timespecToNs s.task.budgetTime - s.executed :=
  if_pos h

theorem ReserveInv.left_nonneg (h : ReserveInv s) : 0 ≤ s.left := by
  have hle := h.le
  rcases h.state with hawake | hsleep
  · rw [left_of_awake hawake]
    omega
  · exact (left_of_asleep hsleep).ge

/-- The budget was filled in the past, and will be filled when a period has passed. -/
theorem ReserveInv.last_le (h : ReserveInv s) : s.last ≤ s.now := by
  obtain ⟨x, hx, -, hle⟩ := h.timer
  rw [CpuState.last, hx, Option.getD_some]
  omega

theorem ReserveInv.last_of_due (h : ReserveInv s) (hdue : ∃ x ∈ s.task.periodTimer, x ≤ s.now) :
    s.task.periodTimer = some s.now ∧ s.last + timespecToNs s.task.timePeriod = s.now := by
  obtain ⟨x, hx, hle, -⟩ := h.timer
  obtain ⟨y, hy, hdue⟩ := hdue
  obtain rfl : x = y := Option.some.inj (hx.symm.trans hy)
  obtain rfl : x = s.now := le_antisymm hdue hle
  refine ⟨hx, ?_⟩
  rw [CpuState.last, hx, Option.getD_some]
  omega

theorem ReserveInv.account_switchIn (h : ReserveInv s) (hok : Enabled s .switchIn) :
    SameAccount s (s.after .switchIn) ∨ Sleeps s (s.after .switchIn) := by
  obtain ⟨-, hafter | ⟨-, hafter⟩⟩ := h.after_switchIn hok
  · rw [hafter]
    exact Or.inl ⟨Iff.rfl, rfl, rfl⟩
  · rw [hafter]
    exact Or.inr ⟨rfl, rfl⟩

theorem account_resched (preemptActive again : Bool) :
    SameAccount s (s.after (.resched preemptActive again)) := by
  cases again with
  | true => exact ⟨Iff.rfl, rfl, rfl⟩
  | false =>
    cases hset : s.task.isBudgetSet with
    | true =>
      simp only [CpuState.after, hookOut, hset, if_true, Bool.false_eq_true, if_false]
      exact ⟨Iff.rfl, rfl, rfl⟩
    | false =>
      simp only [CpuState.after, hookOut, hset, Bool.false_eq_true, if_false]
      exact ⟨Iff.rfl, rfl, rfl⟩

theorem ReserveInv.account_budgetExpiry (h : ReserveInv s) (hok : Enabled s .budgetExpiry) :
    Sleeps s (s.after .budgetExpiry) := by
  rw [(h.after_budgetExpiry hok).2.2.2]
  exact ⟨rfl, rfl⟩

theorem ReserveInv.account_periodExpiry (h : ReserveInv s) (hok : Enabled s .periodExpiry)
    (hok' : ReserveOk s .periodExpiry) : Fills s (s.after .periodExpiry) := by
  rw [h.after_periodExpiry hok hok']
  refine ⟨rfl, ?_, ?_⟩
  · rw [left_of_awake rfl]
    exact sub_zero _
  · show s.now + timespecToNs s.task.timePeriod - timespecToNs s.task.timePeriod = s.now
    omega

/-- A task that sleeps and still has the CPU was awake at this instant, or had the CPU before. -/
theorem ReserveInv.leaving_after (h : ReserveInv s) {e : CpuEvent} (hok : Enabled s e)
    (hok' : ReserveOk s e) (hr : (s.after e).running = true)
    (hsleep : (s.after e).task.state = .uninterruptible) :
    (s.after e).now = s.now ∧ (s.after e).last = s.last ∧
      (s.task.state = .running ∨ s.running = true ∧ s.task.state = .uninterruptible) := by
  cases e with
  | pass d =>
    have hawake := h.awake_of_resched hr (hok.1 hr)
    exact absurd (hawake.symm.trans hsleep) RunState.noConfusion
  | switchIn =>
    refine ⟨rfl, ?_, Or.inl (h.after_switchIn hok).1⟩
    rcases h.account_switchIn hok with hsame | hsleeps
    · exact hsame.last
    · exact hsleeps.last
  | resched preemptActive again =>
    cases again with
    | true => exact ⟨rfl, rfl, Or.inr ⟨hok.1, hsleep⟩⟩
    | false => cases hr
  | budgetExpiry =>
    exact ⟨rfl, (h.account_budgetExpiry hok).last, Or.inl (h.after_budgetExpiry hok).2.1⟩
  | periodExpiry =>
    have hawake := (h.account_periodExpiry hok hok').state
    exact absurd (hawake.symm.trans hsleep) RunState.noConfusion

/-- What no event writes. -/
structure SameTerms (p q : TaskStruct) : Prop where
  budgetTime : q.budgetTime = p.budgetTime
  timePeriod : q.timePeriod = p.timePeriod
  prio : q.prio = p.prio

theorem sameTerms_hookIn (now : ℤ) (p : TaskStruct) : SameTerms p (hookIn now p) := by
  simp only [hookIn, armBudget]
  split_ifs <;> exact ⟨rfl, rfl, rfl⟩

theorem sameTerms_after (s : CpuState) (e : CpuEvent) : SameTerms s.task (s.after e).task := by
  cases e with
  | pass d => exact ⟨rfl, rfl, rfl⟩
  | switchIn => exact sameTerms_hookIn s.now s.task
  | resched preemptActive again =>
    cases again with
    | true => exact ⟨rfl, rfl, rfl⟩
    | false =>
      simp only [CpuState.after, hookOut, Bool.false_eq_true, if_false]
      split_ifs <;> exact ⟨rfl, rfl, rfl⟩
  | budgetExpiry =>
    simp only [CpuState.after, budgetTimerCallback]
    split_ifs <;> exact ⟨rfl, rfl, rfl⟩
  | periodExpiry =>
    obtain ⟨_, -, hwake⟩ := wakeUpProcess_eq { s.task with
      computeTime := ⟨0, 0⟩
      periodTimer := s.task.periodTimer.map fun expires =>
        hrtimerForward expires s.now (timespecToNs s.task.timePeriod) }
    have htask : (s.after .periodExpiry).task = _ := hwake
    rw [htask]
    exact ⟨rfl, rfl, rfl⟩

end RtSched
