import RtSched.Base.Run
import RtSched.Syscall

/-!
# What the calls do

One specification for each part of the system calls, in terms of the tasks `list` on the global
list: every later result about runs is assembled from these.

* `launchReservation_sat`, `retuneAfterCancel_sat`, `retuneAfterExit_sat`: priorities, budgets and
  clock; the lists stay as they are;
* `reserve_sat`, `delPeriodicTask_erase`: the lists;
* `writeReservation_task`, `eraseReservation_task`, `clearReservation_task`: the task records.
-/

namespace RtSched

open LinkRing

variable {e : Env} {s s' : KState} {list : List Tid} {t u : Tid}

/-! ### Priorities and clock -/

/-- Every task of `list` has the budget of the frequency last requested. -/
def SysCoherent (e : Env) (s : KState) (list : List Tid) : Prop :=
  ∀ t ∈ list, (s.task t).budgetTime =
    updatedBudget e.maxFreq s.cpuFreq (s.task t).minBudgetTime

/-- Every task of `list` has the budget of its own frequency. -/
def PmCoherent (e : Env) (s : KState) (list : List Tid) : Prop :=
  ∀ t ∈ list, (s.task t).budgetTime =
    updatedBudget e.maxFreq (s.task t).pmclockFreq (s.task t).minBudgetTime

theorem setRtPriorities_kept (h : Kept s list) (fuel : ℕ) :
    Call.Sat (fun x => x.1 = numberTasks s list) (fun _ => False) (setRtPriorities fuel s) := by
  refine Call.sat_ite (fun h0 => ?_) fun h0 => ?_
  · rw [h.eq_nil (Nat.le_zero.1 h0)]
    rfl
  · refine Call.Sat.bind ((h.periodicTasks_sat fuel).mono (fun _ h => h) ?_) ?_
    · rintro s' ⟨-, rfl⟩
      exact h0 h.size.le
    · rintro l rfl
      rfl

/-- Every retuning numbers the list first. -/
theorem sat_numbered {β : Type} {Q : β → Prop} {E : KState → Prop} (h : Kept s list) {fuel : ℕ}
    {f : KState × ℤ → Call KState β} (hf : ∀ r, Call.Sat Q E (f (numberTasks s list, r))) :
    Call.Sat Q E (setRtPriorities fuel s >>= f) := by
  refine Call.Sat.bind ((setRtPriorities_kept h fuel).mono (fun _ h => h) fun _ h => h.elim) ?_
  rintro ⟨_, r⟩ rfl
  exact hf r

theorem setRtPrioritiesPerCpu_update (fuel cpu : ℕ) (s : KState) :
    Call.Sat (fun x => TaskUpdate PrioOnly s x.1) (fun s' => s' = s)
      (setRtPrioritiesPerCpu fuel cpu s) := by
  refine Call.sat_ite (fun _ => TaskUpdate.refl PrioOnly.refl s) fun _ => ?_
  exact (perCpuTasks_sat fuel cpu s).bind fun l _ => numberTasks_update s l

theorem TaskUpdate.quiet_of_prio (h : TaskUpdate PrioOnly s s') : Quiet s s' :=
  (h.mono fun _ _ => PrioOnly.reg).quiet

theorem TaskUpdate.quiet_of_clock (h : TaskUpdate ClockOnly s s') : Quiet s s' :=
  (h.mono fun _ _ => ClockOnly.reg).quiet

theorem TaskUpdate.clock_of_speed (h : TaskUpdate SpeedOnly s s') : TaskUpdate ClockOnly s s' :=
  h.mono fun _ _ => SpeedOnly.clockOnly

/-- Numbering a list and then following with the clock. -/
theorem TaskUpdate.quiet_of_numbered (h : TaskUpdate ClockOnly (RtSched.numberTasks s list) s') :
    Quiet s s' :=
  (numberTasks_update s list).quiet_of_prio.trans h.quiet_of_clock

theorem Kept.of_quiet (h : Kept s list) (hq : Quiet s s') : Kept s' list := h.of_registry hq.registry

theorem retuneSysclock_sat (h : Kept s list) :
    Call.Sat (fun s' => TaskUpdate ClockOnly s s' ∧ SysCoherent e s' list)
      (fun s' => TaskUpdate ClockOnly s s' ∧ list = []) (retuneSysclock e s) := by
  refine Call.Sat.bind ((makeTaskCtStruct_sat h e).mono (fun _ h => h) ?_) fun cts _ => ?_
  · rintro s' ⟨rfl, hnil⟩
    exact ⟨TaskUpdate.refl ClockOnly.refl _, hnil⟩
  refine Call.Sat.bind ((sysclock_update e cts s).mono (fun _ h => h) fun _ h => h.elim) ?_
  rintro ⟨s₁, f⟩ h₁
  have hu₁ := h₁.clock_of_speed
  have hk₁ := h.of_quiet hu₁.quiet_of_clock
  refine Call.Sat.bind ((applySysclock_sat hk₁ f).mono (fun _ h => h) ?_) ?_
  · rintro s' ⟨rfl, hnil⟩
    exact ⟨hu₁, hnil⟩
  rintro ⟨s₂, f'⟩ ⟨-, hr⟩
  have hu₂ := TaskUpdate.trans (R := ClockOnly) ClockOnly.trans hu₁ hr.update
  refine ⟨⟨hu₂.globals, hu₂.task⟩, fun t ht => ?_⟩
  have hmin : (s₂.task t).minBudgetTime = (s₁.task t).minBudgetTime :=
    (hr.update.task t).minBudgetTime
  exact (hr.budget t ht).trans (by rw [← hmin])

theorem computePmclock_sat (h : Kept s list) :
    Call.Sat (fun x => TaskUpdate SpeedOnly s x.1 ∧ ∀ t ∈ list, InTable e (x.1.task t).pmclockFreq)
      (fun s' => TaskUpdate SpeedOnly s s' ∧ list = []) (computePmclock e s) := by
  refine Call.Sat.bind ((makeTaskCtStruct_sat h e).mono (fun _ h => h) ?_) ?_
  · rintro s' ⟨rfl, hnil⟩
    exact ⟨TaskUpdate.refl SpeedOnly.refl _, hnil⟩
  rintro cts rfl
  refine Call.Sat.bind ((sysclock_update e _ s).mono (fun _ h => h) fun _ h => h.elim) ?_
  rintro ⟨s₁, f⟩ h₁
  refine Call.Sat.bind (((pmclock_update e _ s₁).and (pmclock_inTable e _ s₁)).mono (fun _ h => h)
    fun _ h => h.1.elim) ?_
  rintro s₂ ⟨hu, hin⟩
  refine ⟨TaskUpdate.trans (R := SpeedOnly) SpeedOnly.trans h₁ hu, fun t ht => ?_⟩
  exact hin _ (List.mem_map_of_mem ht)

/-- What `sys_setProcessBudget` leaves after its last part. -/
structure Launched (e : Env) (curr : Tid) (list : List Tid) (s s' : KState) : Prop where
  update : TaskUpdate ClockOnly (numberTasks s list) s'
  noPm : s.powerScheme = .noPm → (∃ n : ℕ, (s'.task curr).budgetTime = nsToTimespec n) ∧
    ∀ t, t ≠ curr → (s'.task t).budgetTime = (s.task t).budgetTime
  sysClock : s.powerScheme = .sysClock → SysCoherent e s' list
  pmClock : s.powerScheme = .pmClock → PmCoherent e s' list

theorem PrioOnly.budgetTime {p q : TaskStruct} (h : PrioOnly p q) : q.budgetTime = p.budgetTime := by
  unfold PrioOnly at h
  rw [← h]

theorem SpeedOnly.budgetTime {p q : TaskStruct} (h : SpeedOnly p q) :
    q.budgetTime = p.budgetTime := by
  unfold SpeedOnly at h
  rw [← h]

theorem Kept.numberTasks (h : Kept s list) (l : List Tid) : Kept (numberTasks s l) list :=
  h.of_quiet (numberTasks_update s l).quiet_of_prio

theorem numberTasks_power (s : KState) (l : List Tid) :
    (numberTasks s l).powerScheme = s.powerScheme :=
  registry_power (numberTasks_update s l).quiet_of_prio.registry

theorem launchReservation_sat (h : Kept s list) (curr : Tid) (budget : ℕ) :
    Call.Sat (Launched e curr list s)
      (fun s' => TaskUpdate ClockOnly (numberTasks s list) s' ∧ list = [])
      (launchReservation e curr budget s) := by
  refine sat_numbered h fun r => ?_
  have hk := h.numberTasks list
  have hpow := numberTasks_power s list
  set s₁ := RtSched.numberTasks s list with hs₁
  dsimp only
  cases hp : s₁.powerScheme with
  | noPm =>
    have hne : ∀ {x}, s.powerScheme = x → x = .noPm := fun hx => hx.symm.trans (hpow.symm.trans hp)
    refine ⟨?_, fun _ => ⟨⟨budget / (s₁.cpuFreq / 1000) * 1000, ?_⟩, fun t ht => ?_⟩, ?_, ?_⟩
    · refine TaskUpdate.trans ClockOnly.trans ?_ (startPeriodTimer_update _ curr)
      exact taskUpdate_modifyTask ClockOnly.refl rfl
    · simp [startPeriodTimer]
    · simp only [startPeriodTimer, KState.modifyTask_task, if_neg ht]
      exact ((numberTasks_update s list).task t).budgetTime
    · exact fun hx => PowerScheme.noConfusion (hne hx)
    · exact fun hx => PowerScheme.noConfusion (hne hx)
  | sysClock =>
    have hne : ∀ {x}, s.powerScheme = x → x = .sysClock :=
      fun hx => hx.symm.trans (hpow.symm.trans hp)
    refine (retuneSysclock_sat hk).mono (fun s' hs' => ?_) fun _ h => h
    exact ⟨hs'.1, fun hx => PowerScheme.noConfusion (hne hx), fun _ => hs'.2,
      fun hx => PowerScheme.noConfusion (hne hx)⟩
  | pmClock =>
    have hne : ∀ {x}, s.powerScheme = x → x = .pmClock :=
      fun hx => hx.symm.trans (hpow.symm.trans hp)
    refine Call.Sat.bind ((computePmclock_sat hk).mono (fun _ h => h) fun _ h =>
      ⟨h.1.clock_of_speed, h.2⟩) ?_
    rintro ⟨s₂, f⟩ ⟨hu, hin⟩
    have hk₂ := hk.of_quiet hu.clock_of_speed.quiet_of_clock
    refine (applyPmclock_sat hk₂).mono (fun s₃ hr => ?_) ?_
    · refine ⟨TaskUpdate.trans (R := ClockOnly) ClockOnly.trans hu.clock_of_speed hr.update,
        fun hx => PowerScheme.noConfusion (hne hx), fun hx => PowerScheme.noConfusion (hne hx),
        fun _ t ht => ?_⟩
      rw [hr.budget t ht, hr.pmclockFreq t, (hr.update.task t).minBudgetTime, hin t ht]
    · rintro s' ⟨rfl, hnil⟩
      exact ⟨hu.clock_of_speed, hnil⟩

/-- After a cancellation every task left has the budget of one frequency; under SysClock it is the
one requested. -/
theorem retuneAfterCancel_sat (h : Kept s list) :
    Call.Sat (fun s' => TaskUpdate ClockOnly (numberTasks s list) s' ∧
        (∃ f, ∀ t ∈ list, (s'.task t).budgetTime =
          updatedBudget e.maxFreq f (s'.task t).minBudgetTime) ∧
        (s.powerScheme = .sysClock → SysCoherent e s' list))
      (fun s' => TaskUpdate ClockOnly (numberTasks s list) s' ∧ list = [])
      (retuneAfterCancel e s) := by
  refine sat_numbered h fun r => ?_
  have hk := h.numberTasks list
  have hpow := numberTasks_power s list
  set s₁ := RtSched.numberTasks s list with hs₁
  dsimp only
  cases hp : s₁.powerScheme with
  | noPm =>
    refine Call.Sat.bind ((applySysclock_sat hk 0).mono (fun _ h => h) ?_) ?_
    · rintro s' ⟨rfl, hnil⟩
      exact ⟨TaskUpdate.refl ClockOnly.refl _, hnil⟩
    rintro ⟨s₂, f⟩ ⟨-, hr⟩
    refine ⟨hr.update, ⟨f, fun t ht => ?_⟩, fun hx => ?_⟩
    · rw [hr.budget t ht, (hr.update.task t).minBudgetTime]
    · rw [← hpow, hp] at hx
      cases hx
  | sysClock =>
    exact (retuneSysclock_sat hk).mono (fun s' hs' => ⟨hs'.1, ⟨_, hs'.2⟩, fun _ => hs'.2⟩)
      fun _ h => h
  | pmClock =>
    refine Call.Sat.bind ((computePmclock_sat hk).mono (fun _ h => h) fun _ h =>
      ⟨h.1.clock_of_speed, h.2⟩) ?_
    rintro ⟨s₂, f⟩ ⟨hu, -⟩
    have hk₂ := hk.of_quiet hu.clock_of_speed.quiet_of_clock
    refine Call.Sat.bind ((applySysclock_sat hk₂ f).mono (fun _ h => h) ?_) ?_
    · rintro s' ⟨rfl, hnil⟩
      exact ⟨hu.clock_of_speed, hnil⟩
    rintro ⟨s₃, f'⟩ ⟨-, hr⟩
    refine ⟨TaskUpdate.trans (R := ClockOnly) ClockOnly.trans hu.clock_of_speed hr.update,
      ⟨f', fun t ht => ?_⟩, fun hx => ?_⟩
    · rw [hr.budget t ht, (hr.update.task t).minBudgetTime]
    · rw [← hpow, hp] at hx
      cases hx

/-- After the exit of a leader the budgets follow under SysClock only. -/
theorem retuneAfterExit_sat (h : Kept s list) :
    Call.Sat (fun s' => TaskUpdate ClockOnly (numberTasks s list) s' ∧
        (s.powerScheme = .sysClock → SysCoherent e s' list) ∧
        (s.powerScheme ≠ .sysClock → ∀ t, (s'.task t).budgetTime = (s.task t).budgetTime))
      (fun s' => TaskUpdate ClockOnly (numberTasks s list) s' ∧ list = [])
      (retuneAfterExit e s) := by
  refine sat_numbered h fun r => ?_
  have hk := h.numberTasks list
  have hpow := numberTasks_power s list
  have hbud := fun t => ((numberTasks_update s list).task t).budgetTime
  set s₁ := RtSched.numberTasks s list with hs₁
  dsimp only
  cases hp : s₁.powerScheme with
  | noPm =>
    refine ⟨TaskUpdate.refl ClockOnly.refl _, fun hx => ?_, fun _ => hbud⟩
    rw [← hpow, hp] at hx
    cases hx
  | sysClock =>
    refine (retuneSysclock_sat hk).mono (fun s' hs' => ⟨hs'.1, fun _ => hs'.2, fun hx => ?_⟩)
      fun _ h => h
    exact absurd (hpow.symm.trans hp) hx
  | pmClock =>
    refine Call.Sat.bind ((computePmclock_sat hk).mono (fun _ h => h) fun _ h =>
      ⟨h.1.clock_of_speed, h.2⟩) ?_
    rintro ⟨s₂, f⟩ ⟨hu, -⟩
    refine ⟨hu.clock_of_speed, fun hx => ?_, fun _ t => ?_⟩
    · rw [← hpow, hp] at hx
      cases hx
    · exact ((hu.task t).budgetTime).trans (hbud t)

/-! ### Under SysClock -/

section SysClock

variable {P : KState → Prop}

/-- All three calls number the list and then set the clock by `sysclock`. -/
theorem launchReservation_sysclock (h : Kept s list) (hpow : s.powerScheme = .sysClock)
    (hret : Call.Sat P (fun _ => True) (retuneSysclock e (numberTasks s list))) (curr : Tid)
    (budget : ℕ) : Call.Sat P (fun _ => True) (launchReservation e curr budget s) := by
  refine sat_numbered h fun r => ?_
  dsimp only
  rw [numberTasks_power, hpow]
  exact hret

theorem retuneAfterCancel_sysclock (h : Kept s list) (hpow : s.powerScheme = .sysClock)
    (hret : Call.Sat P (fun _ => True) (retuneSysclock e (numberTasks s list))) :
    Call.Sat P (fun _ => True) (retuneAfterCancel e s) := by
  refine sat_numbered h fun r => ?_
  dsimp only
  rw [numberTasks_power, hpow]
  exact hret

theorem retuneAfterExit_sysclock (h : Kept s list) (hpow : s.powerScheme = .sysClock)
    (hret : Call.Sat P (fun _ => True) (retuneSysclock e (numberTasks s list))) :
    Call.Sat P (fun _ => True) (retuneAfterExit e s) := by
  refine sat_numbered h fun r => ?_
  dsimp only
  rw [numberTasks_power, hpow]
  exact hret

end SysClock

/-! ### The task records -/

theorem threads_congr (hpid : s'.pidHash = s.pidHash)
    (htgid : ∀ u, (s'.task u).tgid = (s.task u).tgid) (t : Tid) : s'.threads t = s.threads t := by
  simp only [KState.threads, hpid, htgid]

/-- Only task records have changed. -/
def TasksOnly (s s' : KState) : Prop := { s' with task := s.task } = s

/-- The fields `__sched_setscheduler` decides on. -/
def SchedSame (p q : TaskStruct) : Prop :=
  q.policy = p.policy ∧ q.rtPriority = p.rtPriority ∧ q.normalPrio = p.normalPrio

theorem modifyTask_threads {f : TaskStruct → TaskStruct} (hf : ∀ p, (f p).tgid = p.tgid) (t u : Tid) :
    (s.modifyTask u f).threads t = s.threads t := by
  apply threads_congr
  · rfl
  · intro v
    rw [KState.modifyTask_task]
    split_ifs
    · exact hf _
    · rfl

theorem writeReservation_tasksOnly (t : Tid) (b p : Timespec) (s : KState) :
    TasksOnly s (writeReservation t b p s) := by
  cases hb : s.isBinPackingSet <;>
    simp [TasksOnly, writeReservation, KState.modifyTask, KState.eachThread, hb] <;> rw [← hb]

/-- The records after a reservation: period and budget of the task, and, without bin packing, the
flags of its threads. -/
theorem writeReservation_task (t u : Tid) (b p : Timespec) (s : KState) :
    ((writeReservation t b p s).task u).reg =
      { (s.task u).reg with
        timePeriod := if u = t then p else (s.task u).timePeriod
        minBudgetTime := if u = t then b else (s.task u).minBudgetTime
        isBudgetSet := (s.task u).isBudgetSet ||
          (!s.isBinPackingSet && decide (u ∈ s.threads t)) } ∧
    SchedSame (s.task u) ((writeReservation t b p s).task u) ∧
    (u ≠ t → ((writeReservation t b p s).task u).budgetTime = (s.task u).budgetTime) := by
  have hthr : (s.modifyTask t fun p => { p with periodTimer := none, budgetTimer := none }).threads t =
      s.threads t := by
    apply modifyTask_threads
    exact fun _ => rfl
  cases hb : s.isBinPackingSet <;> by_cases hu : u = t
  · simp [writeReservation, hb, hu, hthr, TaskStruct.reg, SchedSame, s.self_mem_threads]
  · by_cases hut : u ∈ s.threads t <;>
      simp [writeReservation, hb, hu, hut, hthr, TaskStruct.reg, SchedSame]
  · simp [writeReservation, hb, hu, TaskStruct.reg, SchedSame]
  · simp [writeReservation, hb, hu, TaskStruct.reg, SchedSame]

/-- `sched_setscheduler_nocheck(p, SCHED_NORMAL, 0)`. -/
theorem schedSetscheduler_normal (p : TaskStruct) :
    PrioOnly p (schedSetscheduler p .normal 0).1 ∧
      (schedSetscheduler p .normal 0).1.policy = .normal := by
  by_cases hp : p.policy = .normal
  · rcases schedSetscheduler_cases p .normal 0 with h | ⟨h, -⟩
    · rw [h]
      exact ⟨rfl, hp⟩
    · exact absurd ⟨hp.symm, Or.inl rfl⟩ h
  · rw [schedSetscheduler_of_legal le_rfl (by norm_num) rfl fun h => hp h.1.symm]
    exact ⟨rfl, rfl⟩

theorem eraseReservation_tasksOnly (t : Tid) (s : KState) : TasksOnly s (eraseReservation t s) := rfl

/-- The records after a cancellation: the task's period is gone, and its threads are back to
`SCHED_NORMAL` without the flag. -/
theorem eraseReservation_task (t u : Tid) (s : KState) :
    ((eraseReservation t s).task u).reg =
      { (s.task u).reg with
        timePeriod := if u = t then ⟨-1, -1⟩ else (s.task u).timePeriod
        isBudgetSet := (s.task u).isBudgetSet && !decide (u ∈ s.threads t) } ∧
    (u ∈ s.threads t → ((eraseReservation t s).task u).policy = .normal) ∧
    (u ∉ s.threads t → SchedSame (s.task u) ((eraseReservation t s).task u)) ∧
    (u ≠ t → ((eraseReservation t s).task u).budgetTime = (s.task u).budgetTime) := by
  obtain ⟨hprio, hnormal⟩ := schedSetscheduler_normal { s.task u with isBudgetSet := false }
  have hreg : (schedSetscheduler { s.task u with isBudgetSet := false } .normal 0).1.reg =
      { (s.task u).reg with isBudgetSet := false } := hprio.reg
  have hbud : (schedSetscheduler { s.task u with isBudgetSet := false } .normal 0).1.budgetTime =
      (s.task u).budgetTime := hprio.budgetTime
  by_cases hut : u ∈ s.threads t
  · simp only [eraseReservation, KState.modifyTask_task, KState.eachThread_task, if_pos hut]
    -- what is left is about the record `__sched_setscheduler` returned
    generalize (schedSetscheduler { s.task u with isBudgetSet := false } .normal 0).1 = q
      at hreg hnormal hbud ⊢
    simp only [TaskStruct.reg, TaskReg.mk.injEq] at hreg
    by_cases hu : u = t <;> simp [hu, hut, hreg, hnormal, hbud, TaskStruct.reg,
      s.self_mem_threads]
  · have hu : u ≠ t := by
      rintro rfl
      exact hut (s.self_mem_threads u)
    simp [eraseReservation, hut, hu, TaskStruct.reg, SchedSame]

theorem clearReservation_tasksOnly (t : Tid) (s : KState) : TasksOnly s (clearReservation t s) := rfl

/-- The records when a leader exits: the flags of its threads are gone. -/
theorem clearReservation_task (t u : Tid) (s : KState) :
    ((clearReservation t s).task u).reg =
      { (s.task u).reg with
        isBudgetSet := (s.task u).isBudgetSet && !decide (u ∈ s.threads t) } ∧
    SchedSame (s.task u) ((clearReservation t s).task u) ∧
    ((clearReservation t s).task u).budgetTime = (s.task u).budgetTime := by
  by_cases hut : u ∈ s.threads t <;> by_cases hu : u = t <;>
    simp [clearReservation, hut, hu, TaskStruct.reg, SchedSame, s.self_mem_threads]

/-! ### The global list -/

theorem TasksOnly.links (h : TasksOnly s s') : s'.links = s.links := by
  unfold TasksOnly at h
  rw [← h]

theorem TasksOnly.size (h : TasksOnly s s') : s'.periodicTasksSize = s.periodicTasksSize := by
  unfold TasksOnly at h
  rw [← h]

theorem TasksOnly.kept (h : TasksOnly s s') (hk : Kept s list)
    (hper : ∀ u ∈ list, s'.periods u = s.periods u) : Kept s' list :=
  hk.congr h.links h.size hper

/-- What the admission and removal code may rely on: a listed task has the flag, and the flag of a
task that is not listed does no harm on an empty list only. -/
def SetOk (s : KState) (list : List Tid) (t : Tid) : Prop :=
  (t ∈ list → (s.task t).isBudgetSet = true) ∧
  ((s.task t).isBudgetSet = true → t ∈ list ∨ list = [])

/-- With nothing on the list any task may ask for a reservation. -/
theorem OnList.setOk_nil (h : OnList s []) (hl : OnList s list) : SetOk s list t := by
  rw [hl.unique h]
  exact ⟨fun hmem => absurd hmem List.not_mem_nil, fun _ => Or.inr rfl⟩

/-- So may a task that is neither listed nor flagged. -/
theorem OnList.setOk_of_not_mem {list' : List Tid} (h : OnList s list) (hnot : t ∉ list)
    (hflag : (s.task t).isBudgetSet = false) (hl : OnList s list') : SetOk s list' t := by
  rw [hl.unique h]
  refine ⟨fun hmem => absurd hmem hnot, fun hf => ?_⟩
  rw [hflag] at hf
  cases hf

/-- The same for the task that a call finds. -/
theorem OnList.setOk_found {pid : ℤ} (h : OnList s list) (hfind : s.findTaskByVpid pid = some t)
    (hnot : t ∉ list) (hflag : (s.task t).isBudgetSet = false) :
    ∀ u, s.findTaskByVpid pid = some u → ∀ list', OnList s list' → SetOk s list' u := by
  intro u hu list' hl
  obtain rfl := Option.some.inj (hfind.symm.trans hu)
  exact h.setOk_of_not_mem hnot hflag hl

/-- Removal of a listed task, or of any task from an empty list, once only task records have
changed. -/
theorem delPeriodicTask_erase (h : Kept s list) (hok : t ∈ list ∨ list = []) (hs : TasksOnly s s')
    (hper : ∀ u ∈ list.erase t, s'.periods u = s.periods u) :
    ∃ n links', delPeriodicTask t s' = .ok { s' with periodicTasksSize := n, links := links' } ∧
      Kept { s' with periodicTasksSize := n, links := links' } (list.erase t) := by
  rcases hok with ht | rfl
  · have hring := h.isRing (List.ne_nil_of_mem ht)
    rw [← hs.links] at hring
    obtain ⟨links', hdel, hk⟩ := delPeriodicTask_kept hring (hs.size.trans h.size)
      (h.sorted.erase.congr hper) ht
    exact ⟨_, links', hdel, hk⟩
  · exact ⟨_, _, delPeriodicTask_of_empty (hs.size.trans h.size), hs.kept h (by simp)⟩

theorem delIfBudgetSet_kept (h : Kept s list) (hok : SetOk s list t) :
    ∃ n links', delIfBudgetSet t s = .ok { s with periodicTasksSize := n, links := links' } ∧
      Kept { s with periodicTasksSize := n, links := links' } (list.erase t) := by
  by_cases hf : (s.task t).isBudgetSet = true
  · rw [delIfBudgetSet, if_pos hf]
    exact delPeriodicTask_erase h (hok.2 hf) rfl fun _ _ => rfl
  · have ht : t ∉ list := fun ht => hf (hok.1 ht)
    rw [delIfBudgetSet, if_neg hf, List.erase_of_not_mem ht]
    exact ⟨_, _, rfl, h⟩

/-- `list` after a reservation of `t` with period `p`. -/
def reservedList (s : KState) (t : Tid) (p : Timespec) (list : List Tid) : List Tid :=
  insertByPeriod (Function.update s.periods t p) t (list.erase t)

theorem writeReservation_periods (t : Tid) (b p : Timespec) (s : KState) :
    (writeReservation t b p s).periods = Function.update s.periods t p := by
  funext u
  have := congrArg TaskReg.timePeriod (writeReservation_task t u b p s).1
  by_cases hu : u = t
  · subst hu
    simpa [KState.periods, TaskStruct.reg] using this
  · simpa [KState.periods, TaskStruct.reg, hu] using this

/-- Only task records and the global list have changed. -/
def ListStep (s s' : KState) : Prop :=
  { s' with task := s.task, links := s.links, periodicTasksSize := s.periodicTasksSize } = s

theorem ListStep.bin (h : ListStep s s') : s'.isBinPackingSet = s.isBinPackingSet := by
  unfold ListStep at h
  rw [← h]

theorem ListStep.pidHash (h : ListStep s s') : s'.pidHash = s.pidHash := by
  unfold ListStep at h
  rw [← h]

theorem ListStep.power (h : ListStep s s') : s'.powerScheme = s.powerScheme := by
  unfold ListStep at h
  rw [← h]

theorem ListStep.cpuFreq (h : ListStep s s') : s'.cpuFreq = s.cpuFreq := by
  unfold ListStep at h
  rw [← h]

theorem ListStep.cpuUtil (h : ListStep s s') : s'.cpuUtil = s.cpuUtil := by
  unfold ListStep at h
  rw [← h]

theorem ListStep.cpuRegistry (h : ListStep s s') : s'.cpuRegistry = s.cpuRegistry := by
  unfold ListStep at h
  rw [← h]
  rfl

/-- A reservation of `t` with budget `b` and period `p` has been put on the list. -/
structure Reserved (t : Tid) (b p : Timespec) (s s' : KState) : Prop where
  step : ListStep s s'
  reg : ∀ u, (s'.task u).reg =
    { (s.task u).reg with
      timePeriod := if u = t then p else (s.task u).timePeriod
      minBudgetTime := if u = t then b else (s.task u).minBudgetTime
      isBudgetSet := (s.task u).isBudgetSet || (!s.isBinPackingSet && decide (u ∈ s.threads t)) }
  sched : ∀ u, SchedSame (s.task u) (s'.task u)
  budget : ∀ u, u ≠ t → (s'.task u).budgetTime = (s.task u).budgetTime

/-- The reservation of `t` has been taken off the list by a cancellation. -/
structure Unreserved (t : Tid) (s s' : KState) : Prop where
  step : ListStep s s'
  reg : ∀ u, (s'.task u).reg =
    { (s.task u).reg with
      timePeriod := if u = t then ⟨-1, -1⟩ else (s.task u).timePeriod
      isBudgetSet := (s.task u).isBudgetSet && !decide (u ∈ s.threads t) }
  normal : ∀ u ∈ s.threads t, (s'.task u).policy = .normal
  sched : ∀ u, u ∉ s.threads t → SchedSame (s.task u) (s'.task u)
  budget : ∀ u, u ≠ t → (s'.task u).budgetTime = (s.task u).budgetTime

/-- The reservation of `t` has been taken off the list by its exit. -/
structure Dropped (t : Tid) (s s' : KState) : Prop where
  step : ListStep s s'
  reg : ∀ u, (s'.task u).reg =
    { (s.task u).reg with
      isBudgetSet := (s.task u).isBudgetSet && !decide (u ∈ s.threads t) }
  sched : ∀ u, SchedSame (s.task u) (s'.task u)
  budget : ∀ u, (s'.task u).budgetTime = (s.task u).budgetTime

/-- Writing the reservation of a task that is not listed leaves the list as it is. -/
theorem writeReservation_kept (h : Kept s list) (hnot : t ∉ list) (b p : Timespec) :
    Kept (writeReservation t b p s) list := by
  refine (writeReservation_tasksOnly t b p _).kept h fun u hu => ?_
  rw [writeReservation_periods]
  refine Function.update_of_ne ?_ _ _
  rintro rfl
  exact hnot hu

/-- A reservation takes the task off the list and inserts it by its new period. -/
theorem reserve_sat (h : Kept s list) (hok : SetOk s list t) (b p : Timespec) :
    Call.Sat (fun s' => Kept s' (reservedList s t p list) ∧ Reserved t b p s s') (fun _ => False)
      (reserve e t b p s) := by
  obtain ⟨n, links', hdel, hk⟩ := delIfBudgetSet_kept h hok
  rw [reserve, hdel]
  have hnot : t ∉ list.erase t := List.Nodup.not_mem_erase h.nodup
  refine (addPeriodicTask_kept (writeReservation_kept hk hnot b p) hnot e.fuel).mono ?_ fun _ h => h
  rintro s' ⟨hs', links'', rfl⟩
  rw [writeReservation_periods] at hs'
  have htask := fun u =>
    writeReservation_task t u b p { s with periodicTasksSize := n, links := links' }
  refine ⟨hs', ?_, fun u => (htask u).1, fun u => (htask u).2.1, fun u => (htask u).2.2⟩
  have hw : TasksOnly _ _ :=
    writeReservation_tasksOnly t b p { s with periodicTasksSize := n, links := links' }
  unfold TasksOnly at hw
  unfold ListStep
  rw [KState.mk.injEq] at hw ⊢
  tauto

/-- A cancellation takes a listed task off. -/
theorem unreserve_sat (h : Kept s list) (hok : t ∈ list ∨ list = []) :
    ∃ s', delPeriodicTask t (eraseReservation t s) = .ok s' ∧ Kept s' (list.erase t) ∧
      Unreserved t s s' := by
  have htask := fun u => eraseReservation_task t u s
  obtain ⟨n, links', hdel, hk⟩ := delPeriodicTask_erase h hok (eraseReservation_tasksOnly t s)
    fun u hu => by
      have hut := h.ne_of_mem_erase hu
      have := congrArg TaskReg.timePeriod (htask u).1
      simpa [KState.periods, TaskStruct.reg, hut] using this
  exact ⟨_, hdel, hk, rfl, fun u => (htask u).1, fun u => (htask u).2.1, fun u => (htask u).2.2.1,
    fun u => (htask u).2.2.2⟩

/-- The exit of a listed leader takes it off. -/
theorem drop_sat (h : Kept s list) (hok : t ∈ list ∨ list = []) :
    ∃ s', delPeriodicTask t (clearReservation t s) = .ok s' ∧ Kept s' (list.erase t) ∧
      Dropped t s s' := by
  have htask := fun u => clearReservation_task t u s
  obtain ⟨n, links', hdel, hk⟩ := delPeriodicTask_erase h hok (clearReservation_tasksOnly t s)
    fun u _ => congrArg TaskReg.timePeriod (htask u).1
  exact ⟨_, hdel, hk, rfl, fun u => (htask u).1, fun u => (htask u).2.1, fun u => (htask u).2.2⟩

theorem Reserved.timePeriod {b p : Timespec} (hr : Reserved t b p s s') (u : Tid) :
    (s'.task u).timePeriod = if u = t then p else (s.task u).timePeriod :=
  congrArg TaskReg.timePeriod (hr.reg u)

theorem Reserved.minBudgetTime {b p : Timespec} (hr : Reserved t b p s s') (u : Tid) :
    (s'.task u).minBudgetTime = if u = t then b else (s.task u).minBudgetTime :=
  congrArg TaskReg.minBudgetTime (hr.reg u)

theorem Unreserved.timePeriod (hu : Unreserved t s s') (u : Tid) :
    (s'.task u).timePeriod = if u = t then ⟨-1, -1⟩ else (s.task u).timePeriod :=
  congrArg TaskReg.timePeriod (hu.reg u)

theorem Unreserved.minBudgetTime (hu : Unreserved t s s') (u : Tid) :
    (s'.task u).minBudgetTime = (s.task u).minBudgetTime :=
  congrArg TaskReg.minBudgetTime (hu.reg u)

/-- The other reservations are as they were. -/
theorem Unreserved.keeps (hk : Kept s list) (hu : Unreserved t s s') :
    ∀ u ∈ list.erase t, (s'.task u).timePeriod = (s.task u).timePeriod ∧
      (s'.task u).minBudgetTime = (s.task u).minBudgetTime := by
  intro u hmem
  have hper := hu.timePeriod u
  rw [if_neg (hk.ne_of_mem_erase hmem)] at hper
  exact ⟨hper, hu.minBudgetTime u⟩

theorem Dropped.keeps (hd : Dropped t s s') (u : Tid) :
    (s'.task u).timePeriod = (s.task u).timePeriod ∧
      (s'.task u).minBudgetTime = (s.task u).minBudgetTime :=
  ⟨congrArg TaskReg.timePeriod (hd.reg u), congrArg TaskReg.minBudgetTime (hd.reg u)⟩

/-! ### The system calls -/

/-- What is known of a reservation that passed `check_admission`. -/
def Admitted (s : KState) (list : List Tid) (b p : Timespec) : Prop :=
  list = [] ∨ Passes (insertCt { budget := convertToUsecs b, period := convertToUsecs p }
    (list.map (ctOf s)))

theorem checkAdmission_sat (h : Kept s list) (fuel : ℕ) (b p : Timespec) :
    Call.Sat (fun r => r = true → Admitted s list b p) (fun _ => False)
      (checkAdmission fuel b p s) := by
  refine Call.sat_ite (fun h0 => fun _ => Or.inl (h.eq_nil h0)) fun h0 => ?_
  refine Call.Sat.bind ((h.periodicTasks_sat fuel).mono (fun _ h => h) ?_) ?_
  · rintro s' ⟨-, rfl⟩
    exact h0 h.size
  rintro l rfl
  rw [ctArray, List.length_map, if_pos h.size.symm]
  refine Call.sat_ofOption ?_
  rintro r hr rfl
  refine Or.inr ⟨fuel, ?_⟩
  rw [insertCt, List.orderedInsert_length, List.length_map, ← h.size]
  exact hr

theorem admits_sat (h : Kept s list) (b p : Timespec) :
    Call.Sat (fun r => r = true → s.isBinPackingSet = false → Admitted s list b p) (fun _ => False)
      (admits e b p s) := by
  refine Call.sat_ite (fun hb _ hoff => ?_) fun _ => ?_
  · rw [hb] at hoff
    cases hoff
  · exact (checkAdmission_sat h e.fuel b p).mono (fun _ hr hrt _ => hr hrt) fun _ h => h

section Rules

variable {Q E : KState → Prop}

/-- A call that returns zero has made the reservation, and any other has changed nothing. -/
theorem setProcessBudget_outcome {Q : Tid → KState → Prop} (h : Kept s list) {pid : ℤ} {budget : ℕ}
    {p : Timespec}
    (hrun : ∀ curr, s.findTaskByVpid pid = some curr →
      timespecCompare (taskBudgetOf e budget) p < 0 →
      (s.isBinPackingSet = false → Admitted s list (taskBudgetOf e budget) p) →
      Call.Sat (Q curr) E (setReservation e curr budget (taskBudgetOf e budget) p s)) :
    Call.Sat (fun x => x.1 = s ∧ x.2 ≠ 0 ∨
      x.2 = 0 ∧ ∃ curr, s.findTaskByVpid pid = some curr ∧ Q curr x.1) E
      (setProcessBudget e pid budget p s) := by
  have hinval : -einval ≠ 0 := by decide
  have hperm : -eperm ≠ 0 := by decide
  have hsrch : -esrch ≠ 0 := by decide
  refine Call.sat_ite (fun _ => Or.inl ⟨rfl, hinval⟩) fun _ =>
    Call.sat_ite (fun _ => Or.inl ⟨rfl, hinval⟩) fun _ =>
      Call.sat_ite (fun _ => Or.inl ⟨rfl, hinval⟩) fun hlt => ?_
  refine Call.Sat.bind ((admits_sat h _ p).mono (fun _ h => h) fun _ h => h.elim) fun r hr => ?_
  refine Call.sat_ite (fun _ => Or.inl ⟨rfl, hperm⟩) fun hrt => ?_
  cases hf : s.findTaskByVpid pid with
  | none => exact Or.inl ⟨rfl, hsrch⟩
  | some curr =>
    refine (hrun curr hf (not_le.1 hlt) (hr (by simpa using hrt))).bind fun s' hs' => ?_
    exact Or.inr ⟨rfl, curr, rfl, hs'⟩

/-- `sys_setProcessBudget` changes nothing, or does its work for an admitted reservation. -/
theorem setProcessBudget_rule (h : Kept s list) {pid : ℤ} {budget : ℕ} {p : Timespec} (hsame : Q s)
    (hrun : ∀ curr, s.findTaskByVpid pid = some curr →
      timespecCompare (taskBudgetOf e budget) p < 0 →
      (s.isBinPackingSet = false → Admitted s list (taskBudgetOf e budget) p) →
      Call.Sat Q E (setReservation e curr budget (taskBudgetOf e budget) p s)) :
    Call.Sat (fun x => Q x.1) E (setProcessBudget e pid budget p s) := by
  refine (setProcessBudget_outcome (Q := fun _ => Q) h hrun).mono ?_ fun _ h => h
  rintro x (⟨hx, -⟩ | ⟨-, -, -, hx⟩)
  · rw [hx]
    exact hsame
  · exact hx

theorem cancelBudget_rule {pid : ℤ} (hsame : Q s)
    (hrun : ∀ curr, s.findTaskByVpid pid = some curr → Call.Sat Q E (cancelReservation e curr s)) :
    Call.Sat (fun x => Q x.1) E (cancelBudget e pid s) := by
  refine Call.sat_ite (fun _ => hsame) fun _ => ?_
  cases hf : s.findTaskByVpid pid with
  | none => exact hsame
  | some curr => exact (hrun curr hf).bind fun s' hs' => hs'

theorem doExit_rule {autoreap : Bool}
    (hflag : (s.task t).isBudgetSet = true →
      Call.Sat (fun s' => Q (finishExit t autoreap s')) E (exitReservation e t s))
    (hplain : (s.task t).isBudgetSet = false → Q (finishExit t autoreap s)) :
    Call.Sat (fun x => Q x.1) E (doExit e t autoreap s) := by
  refine Call.sat_ite (fun hf => ?_) fun hf => hplain (by simpa using hf)
  exact (hflag hf).bind fun s' hs' => hs'

end Rules

/-- Without bin packing an accepted reservation is put on the list and started. -/
theorem setReservation_off (h : Kept s list) (hok : SetOk s list t)
    (hoff : s.isBinPackingSet = false) (budget : ℕ) (b p : Timespec) :
    Call.Sat (fun s' => ∃ s₁, Kept s₁ (reservedList s t p list) ∧ Reserved t b p s s₁ ∧
        Launched e t (reservedList s t p list) s₁ s') (fun _ => False)
      (setReservation e t budget b p s) := by
  refine (reserve_sat h hok b p).bind ?_
  rintro s₁ ⟨hk, hr⟩
  refine Call.sat_ite (fun hb => ?_) fun _ => ?_
  · rw [hr.step.bin, hoff] at hb
    cases hb
  · refine (launchReservation_sat hk t budget).mono (fun s' hs' => ⟨s₁, hk, hr, hs'⟩) ?_
    rintro s' ⟨-, hnil⟩
    have : t ∈ reservedList s t p list := mem_insertByPeriod.2 (Or.inl rfl)
    rw [hnil] at this
    cases this

theorem setReservation_sysclock {P : KState → Prop} (h : Kept s list) (hok : SetOk s list t)
    (hoff : s.isBinPackingSet = false) (hpow : s.powerScheme = .sysClock) {b p : Timespec}
    (hret : ∀ s₁, Kept s₁ (reservedList s t p list) → Reserved t b p s s₁ →
      Call.Sat P (fun _ => True) (retuneSysclock e (numberTasks s₁ (reservedList s t p list))))
    (budget : ℕ) : Call.Sat P (fun _ => True) (setReservation e t budget b p s) := by
  refine Call.Sat.bind ((reserve_sat h hok b p).mono (fun _ h => h) fun _ h => h.elim) ?_
  rintro s₁ ⟨hk, hr⟩
  refine Call.sat_ite (fun hb => ?_) fun _ => ?_
  · rw [hr.step.bin, hoff] at hb
    cases hb
  · exact launchReservation_sysclock hk (hr.step.power.trans hpow) (hret s₁ hk hr) t budget

theorem wake_task (t u : Tid) (s : KState) :
    ∃ state, (s.eachThread t wakeUpProcess).task u = { s.task u with state := state } := by
  rw [KState.eachThread_task]
  split_ifs
  · obtain ⟨state, -, hw⟩ := wakeUpProcess_eq (s.task u)
    exact ⟨state, hw⟩
  · exact ⟨_, rfl⟩

theorem Unreserved.wake (h : Unreserved t s s') : Unreserved t s (s'.eachThread t wakeUpProcess) := by
  refine ⟨h.step, fun u => ?_, fun u hu => ?_, fun u hu => ?_, fun u hu => ?_⟩
  · obtain ⟨state, hw⟩ := wake_task t u s'
    rw [hw, ← h.reg u]
    rfl
  · obtain ⟨state, hw⟩ := wake_task t u s'
    rw [hw]
    exact h.normal u hu
  · obtain ⟨state, hw⟩ := wake_task t u s'
    rw [hw]
    exact h.sched u hu
  · obtain ⟨state, hw⟩ := wake_task t u s'
    rw [hw]
    exact h.budget u hu

theorem Kept.wake (h : Kept s list) (t : Tid) : Kept (s.eachThread t wakeUpProcess) list :=
  h.of_quiet (TaskUpdate.quiet_of_clock
    (taskUpdate_eachThread ClockOnly.refl wakeUpProcess_clockOnly))

theorem leaveCpu_off (h : s.isBinPackingSet = false) : leaveCpu e t s = .ok s := by
  rw [leaveCpu, h]
  rfl

/-- Without bin packing a cancellation takes the task off the list; the clock is left to follow. -/
theorem cancelReservation_eq (h : Kept s list) (hok : t ∈ list ∨ list = [])
    (hoff : s.isBinPackingSet = false) :
    ∃ s₁, Kept s₁ (list.erase t) ∧ Unreserved t s s₁ ∧
      cancelReservation e t s = retuneAfterCancel e s₁ := by
  obtain ⟨s₀, hdel, hk, hu⟩ := unreserve_sat h hok
  have hb : s₀.isBinPackingSet = false := hu.step.bin.trans hoff
  refine ⟨s₀.eachThread t wakeUpProcess, hk.wake t, hu.wake, ?_⟩
  rw [cancelReservation, hdel, Call.ok_bind, leaveCpu_off hb, Call.ok_bind]
  exact if_neg (by simp [hb])

/-- Without bin packing a cancellation takes the task off the list, renumbers the others and
rescales their budgets. -/
theorem cancelReservation_off (h : Kept s list) (hok : t ∈ list ∨ list = [])
    (hoff : s.isBinPackingSet = false) :
    Call.Sat (fun s' => ∃ s₁, Kept s₁ (list.erase t) ∧ Unreserved t s s₁ ∧
        TaskUpdate ClockOnly (numberTasks s₁ (list.erase t)) s' ∧
        (∃ f, ∀ u ∈ list.erase t, (s'.task u).budgetTime =
          updatedBudget e.maxFreq f (s'.task u).minBudgetTime) ∧
        (s.powerScheme = .sysClock → SysCoherent e s' (list.erase t)))
      (fun s' => ∃ s₁, Kept s₁ (list.erase t) ∧ Unreserved t s s₁ ∧
        TaskUpdate ClockOnly (numberTasks s₁ (list.erase t)) s' ∧ list.erase t = [])
      (cancelReservation e t s) := by
  obtain ⟨s₁, hk, hu, hdef⟩ := cancelReservation_eq (e := e) h hok hoff
  rw [hdef]
  refine (retuneAfterCancel_sat hk).mono ?_ ?_
  · rintro s' ⟨hup, hf, hsys⟩
    exact ⟨s₁, hk, hu, hup, hf, fun hp => hsys (hu.step.power.trans hp)⟩
  · rintro s' ⟨hup, hnil⟩
    exact ⟨s₁, hk, hu, hup, hnil⟩

/-- Without bin packing the exit of a leader takes it off the list; the clock is left to follow. -/
theorem exitReservation_eq (h : Kept s list) (hok : t ∈ list ∨ list = [])
    (hoff : s.isBinPackingSet = false) (hlead : t = (s.task t).tgid) :
    ∃ s₁, Kept s₁ (list.erase t) ∧ Dropped t s s₁ ∧
      exitReservation e t s = retuneAfterExit e s₁ := by
  obtain ⟨s₁, hdel, hk, hd⟩ := drop_sat h hok
  have hb : s₁.isBinPackingSet = false := hd.step.bin.trans hoff
  refine ⟨s₁, hk, hd, ?_⟩
  rw [exitReservation, if_pos hlead, hdel, Call.ok_bind, leaveCpu_off hb, Call.ok_bind]
  exact if_neg (by simp [hb])

/-- Without bin packing the exit of a leader takes it off the list and renumbers the others. -/
theorem exitReservation_off (h : Kept s list) (hok : t ∈ list ∨ list = [])
    (hoff : s.isBinPackingSet = false) (hlead : t = (s.task t).tgid) :
    Call.Sat (fun s' => ∃ s₁, Kept s₁ (list.erase t) ∧ Dropped t s s₁ ∧
        TaskUpdate ClockOnly (numberTasks s₁ (list.erase t)) s' ∧
        (s.powerScheme = .sysClock → SysCoherent e s' (list.erase t)) ∧
        (s.powerScheme ≠ .sysClock → ∀ u, (s'.task u).budgetTime = (s.task u).budgetTime))
      (fun s' => ∃ s₁, Kept s₁ (list.erase t) ∧ Dropped t s s₁ ∧
        TaskUpdate ClockOnly (numberTasks s₁ (list.erase t)) s' ∧ list.erase t = [])
      (exitReservation e t s) := by
  obtain ⟨s₁, hk, hd, hdef⟩ := exitReservation_eq (e := e) h hok hoff hlead
  rw [hdef]
  refine (retuneAfterExit_sat hk).mono ?_ ?_
  · rintro s' ⟨hup, hsys, hbud⟩
    refine ⟨s₁, hk, hd, hup, fun hp => hsys (hd.step.power.trans hp), fun hp u => ?_⟩
    rw [hbud (fun h => hp (hd.step.power.symm.trans h)) u, hd.budget u]
  · rintro s' ⟨hup, hnil⟩
    exact ⟨s₁, hk, hd, hup, hnil⟩

/-- The end of `do_exit` leaves everything but the life of the task as it is. -/
theorem finishExit_task (t u : Tid) (autoreap : Bool) (s : KState) :
    ∃ exiting state, (finishExit t autoreap s).task u =
      { s.task u with exiting := exiting, state := state } := by
  by_cases hu : u = t
  · refine ⟨true, .dead, ?_⟩
    cases autoreap <;> simp [finishExit, hu]
  · refine ⟨(s.task u).exiting, (s.task u).state, ?_⟩
    cases autoreap <;> simp [finishExit, hu]

theorem finishExit_kept (h : Kept s list) (t : Tid) (autoreap : Bool) :
    Kept (finishExit t autoreap s) list := by
  refine h.congr ?_ ?_ fun u _ => ?_
  · cases autoreap <;> rfl
  · cases autoreap <;> rfl
  · obtain ⟨_, _, hu⟩ := finishExit_task t u autoreap s
    rw [KState.periods, hu]
    rfl

/-! ### Bin-packing mode -/

/-- The second record differs from the first, in what the lists depend on, at most in the flag. -/
def ButFlag (p q : TaskStruct) : Prop := { q.reg with isBudgetSet := p.isBudgetSet } = p.reg

theorem ButFlag.refl (p : TaskStruct) : ButFlag p p := rfl

theorem ButFlag.trans {p q r : TaskStruct} (h : ButFlag p q) (h' : ButFlag q r) : ButFlag p r := by
  unfold ButFlag at *
  rw [← h, ← h']

theorem RegSame.butFlag {p q : TaskStruct} (h : RegSame p q) : ButFlag p q := by
  unfold RegSame at h
  rw [ButFlag, h]
  rfl

theorem ButFlag.timePeriod {p q : TaskStruct} (h : ButFlag p q) : q.timePeriod = p.timePeriod :=
  congrArg TaskReg.timePeriod h

theorem Kept.of_butFlag (h : Kept s list) (hu : TaskUpdate ButFlag s s') : Kept s' list :=
  h.congr hu.links hu.size fun t _ => (hu.task t).timePeriod

/-- What an exit leaves apart from the lists: flags and lives of tasks and the hash may differ. -/
structure Ended (s s' : KState) : Prop where
  kept : ∀ {list}, Kept s list → Kept s' list
  bin : s'.isBinPackingSet = s.isBinPackingSet
  power : s'.powerScheme = s.powerScheme
  cpuFreq : s'.cpuFreq = s.cpuFreq
  task : ∀ u, ∃ exiting state isBudgetSet, s'.task u =
    { s.task u with exiting := exiting, state := state, isBudgetSet := isBudgetSet }

theorem Ended.trans {s'' : KState} (h : Ended s s') (h' : Ended s' s'') : Ended s s'' := by
  refine ⟨fun hk => h'.kept (h.kept hk), h'.bin.trans h.bin, h'.power.trans h.power,
    h'.cpuFreq.trans h.cpuFreq, fun u => ?_⟩
  obtain ⟨a, b, c, hu⟩ := h.task u
  obtain ⟨a', b', c', hu'⟩ := h'.task u
  exact ⟨a', b', c', by rw [hu', hu]⟩

theorem ended_finishExit (t : Tid) (autoreap : Bool) (s : KState) :
    Ended s (finishExit t autoreap s) := by
  refine ⟨fun hk => finishExit_kept hk t autoreap, ?_, ?_, ?_, fun u => ?_⟩
  · cases autoreap <;> rfl
  · cases autoreap <;> rfl
  · cases autoreap <;> rfl
  · obtain ⟨exiting, state, hu⟩ := finishExit_task t u autoreap s
    exact ⟨exiting, state, (s.task u).isBudgetSet, hu⟩

theorem ended_clearFlag (t : Tid) (s : KState) :
    Ended s (s.modifyTask t fun p => { p with isBudgetSet := false }) := by
  refine ⟨fun hk => ?_, rfl, rfl, rfl, fun u => ?_⟩
  · refine hk.of_butFlag (taskUpdate_modifyTask ButFlag.refl ?_)
    rfl
  · rw [KState.modifyTask_task]
    split_ifs
    · exact ⟨_, _, false, rfl⟩
    · exact ⟨_, _, _, rfl⟩

section Fields

variable (h : Ended s s') (u : Tid)

include h

theorem Ended.timePeriod : (s'.task u).timePeriod = (s.task u).timePeriod := by
  obtain ⟨_, _, _, hu⟩ := h.task u
  rw [hu]

theorem Ended.minBudgetTime : (s'.task u).minBudgetTime = (s.task u).minBudgetTime := by
  obtain ⟨_, _, _, hu⟩ := h.task u
  rw [hu]

theorem Ended.budgetTime : (s'.task u).budgetTime = (s.task u).budgetTime := by
  obtain ⟨_, _, _, hu⟩ := h.task u
  rw [hu]

theorem Ended.tgid : (s'.task u).tgid = (s.task u).tgid := by
  obtain ⟨_, _, _, hu⟩ := h.task u
  rw [hu]

theorem Ended.rtPriority : (s'.task u).rtPriority = (s.task u).rtPriority := by
  obtain ⟨_, _, _, hu⟩ := h.task u
  rw [hu]

theorem Ended.pmclockFreq : (s'.task u).pmclockFreq = (s.task u).pmclockFreq := by
  obtain ⟨_, _, _, hu⟩ := h.task u
  rw [hu]

end Fields

/-- An exit either ends the task at once or takes a leader's reservation off first. -/
theorem doExit_ended {Q : KState → Prop} {autoreap : Bool} (hend : ∀ s', Ended s s' → Q s')
    (hlead : (s.task t).isBudgetSet = true → t = (s.task t).tgid →
      Call.Sat (fun s' => Q (finishExit t autoreap s')) (fun _ => True) (exitReservation e t s)) :
    Call.Sat (fun x => Q x.1) (fun _ => True) (doExit e t autoreap s) := by
  refine doExit_rule (fun hf => ?_) fun _ => hend _ (ended_finishExit t autoreap s)
  by_cases htgid : t = (s.task t).tgid
  · exact hlead hf htgid
  · rw [exitReservation, if_neg htgid]
    exact hend _ ((ended_clearFlag t s).trans (ended_finishExit t autoreap _))

/-- In bin-packing mode a task leaves its CPU without touching the global list. -/
theorem leaveCpu_registry (t : Tid) (s : KState) :
    Call.Sat (fun s' => s'.registry = s.registry) (fun s' => s'.registry = s.registry)
      (leaveCpu e t s) := by
  refine Call.sat_ite (fun _ => ?_) fun _ => rfl
  refine (delTaskCpu_registry t _ s).bind fun s₁ hs₁ => ?_
  refine Call.Sat.bind ((setRtPrioritiesPerCpu_update e.fuel _ s₁).mono (fun _ h => h)
    fun s' hs' => ?_) fun x hx => ?_
  · rw [hs']
    exact hs₁
  · exact hx.quiet_of_prio.registry.trans hs₁

theorem stopTask_update (s : KState) (t : Tid) : TaskUpdate ClockOnly s (stopTask s t) := by
  refine TaskUpdate.trans ClockOnly.trans ?_
    (taskUpdate_eachThread ClockOnly.refl wakeUpProcess_clockOnly)
  exact taskUpdate_modifyTask ClockOnly.refl rfl

/-- The second record differs from the first, in what the lists depend on, at most in the flag, and
then it is set. -/
def RaisesFlag (p q : TaskStruct) : Prop :=
  ButFlag p q ∧ (p.isBudgetSet = true → q.isBudgetSet = true)

theorem RaisesFlag.refl (p : TaskStruct) : RaisesFlag p p := ⟨ButFlag.refl p, id⟩

theorem RaisesFlag.trans {p q r : TaskStruct} (h : RaisesFlag p q) (h' : RaisesFlag q r) :
    RaisesFlag p r :=
  ⟨h.1.trans h'.1, h'.2 ∘ h.2⟩

theorem RegSame.raisesFlag {p q : TaskStruct} (h : RegSame p q) : RaisesFlag p q := by
  refine ⟨h.butFlag, fun hp => ?_⟩
  rw [show q.isBudgetSet = p.isBudgetSet from congrArg TaskReg.isBudgetSet h]
  exact hp

theorem flagTask_raises (s : KState) (t : Tid) : TaskUpdate RaisesFlag s (flagTask s t) :=
  taskUpdate_eachThread RaisesFlag.refl fun _ => ⟨rfl, fun _ => rfl⟩

theorem TaskUpdate.raises_of_prio (h : TaskUpdate PrioOnly s s') : TaskUpdate RaisesFlag s s' :=
  h.mono fun _ _ h => h.reg.raisesFlag

theorem TaskUpdate.raises_of_clock (h : TaskUpdate ClockOnly s s') : TaskUpdate RaisesFlag s s' :=
  h.mono fun _ _ h => h.reg.raisesFlag

theorem startCpu_raises (s : KState) (cpu : ℕ) :
    Call.Sat (TaskUpdate RaisesFlag s) (TaskUpdate RaisesFlag s) (startCpu e s cpu) := by
  refine Call.sat_ite (fun _ => ?_) fun _ => TaskUpdate.refl RaisesFlag.refl s
  refine Call.Sat.bind ((perCpuTasks_sat e.fuel cpu s).mono (fun _ h => h) ?_) fun tasks _ => ?_
  · rintro s' rfl
    exact TaskUpdate.refl RaisesFlag.refl _
  have hflag : TaskUpdate RaisesFlag s
      (tasks.foldl (fun s t => startPeriodTimer (flagTask s t) t) s) :=
    taskUpdate_foldl RaisesFlag.refl RaisesFlag.trans id (fun s t => TaskUpdate.trans RaisesFlag.trans
      (flagTask_raises s t) (startPeriodTimer_update _ t).raises_of_clock) tasks s
  refine Call.Sat.bind ((setRtPrioritiesPerCpu_update e.fuel cpu _).mono (fun _ h => h) ?_)
    fun x hx => ?_
  · rintro s' rfl
    exact hflag
  · exact TaskUpdate.trans (R := RaisesFlag) RaisesFlag.trans hflag hx.raises_of_prio

theorem startCpuGlobal_raises (x : KState × ℕ) (cpu : ℕ) :
    Call.Sat (fun y => TaskUpdate RaisesFlag x.1 y.1) (TaskUpdate RaisesFlag x.1)
      (startCpuGlobal e x cpu) := by
  refine Call.sat_ite (fun _ => ?_) fun _ => TaskUpdate.refl RaisesFlag.refl x.1
  refine Call.Sat.bind ((perCpuTasks_sat e.fuel cpu x.1).mono (fun _ h => h) ?_) fun tasks _ => ?_
  · rintro s' rfl
    exact TaskUpdate.refl RaisesFlag.refl _
  have hflag : TaskUpdate RaisesFlag x.1 (tasks.foldl flagTask x.1) :=
    taskUpdate_foldl RaisesFlag.refl RaisesFlag.trans id flagTask_raises tasks x.1
  refine Call.Sat.bind ((setRtPrioritiesPerCpu_update e.fuel cpu _).mono (fun _ h => h) ?_)
    fun y hy => ?_
  · rintro s' rfl
    exact hflag
  have hprio := TaskUpdate.trans (R := RaisesFlag) RaisesFlag.trans hflag hy.raises_of_prio
  have harr : Call.Sat (fun _ => True) (TaskUpdate RaisesFlag x.1)
      (makeTaskCtStructPerCpu e cpu y.1) := by
    refine Call.Sat.bind ((perCpuTasks_sat e.fuel cpu y.1).mono (fun _ h => h) ?_) fun l _ => ?_
    · rintro s' rfl
      exact hprio
    · refine (ctArray_sat y.1 _ _).mono (fun _ _ => trivial) ?_
      rintro s' rfl
      exact hprio
  refine harr.bind fun cts _ => ?_
  refine Call.Sat.bind ((sysclockPerCpu_update e cts _ y.1).mono (fun _ h => h) fun _ h => h.elim)
    fun z hz => ?_
  exact TaskUpdate.trans (R := RaisesFlag) RaisesFlag.trans hprio hz.clock_of_speed.raises_of_clock

/-- Starting raises flags; the lists stay as they are. -/
theorem startScheduling_raises (h : Kept s list) :
    Call.Sat (fun x => TaskUpdate RaisesFlag s x.1) (TaskUpdate RaisesFlag s) (startScheduling e s) := by
  have hrefl := TaskUpdate.refl RaisesFlag.refl s
  refine Call.sat_ite (fun _ => ?_) fun _ => ?_
  · have hloop : Call.Sat (fun x : KState × ℕ => TaskUpdate RaisesFlag s x.1) (TaskUpdate RaisesFlag s)
        ((List.range maxCpu).foldlM (startCpuGlobal e) (s, 0)) :=
      Call.sat_foldlM (fun x c _ hx => (startCpuGlobal_raises x c).mono
        (fun _ hy => TaskUpdate.trans (R := RaisesFlag) RaisesFlag.trans hx hy)
        fun _ hy => TaskUpdate.trans (R := RaisesFlag) RaisesFlag.trans hx hy) hrefl
    refine hloop.bind fun x hx => ?_
    refine Call.Sat.bind ((applySysclock_sat (h.of_butFlag (hx.mono fun _ _ h => h.1)) x.2).mono
      (fun _ h => h) ?_)
      fun y hy => ?_
    · rintro s' ⟨rfl, -⟩
      exact hx
    · have hu := TaskUpdate.trans (R := RaisesFlag) RaisesFlag.trans hx hy.2.update.raises_of_clock
      exact ⟨hu.globals, hu.task⟩
  · have hloop : Call.Sat (TaskUpdate RaisesFlag s) (TaskUpdate RaisesFlag s)
        ((List.range maxCpu).foldlM (startCpu e) s) :=
      Call.sat_foldlM (fun s₁ c _ hs₁ => (startCpu_raises s₁ c).mono
        (fun _ hy => TaskUpdate.trans (R := RaisesFlag) RaisesFlag.trans hs₁ hy)
        fun _ hy => TaskUpdate.trans (R := RaisesFlag) RaisesFlag.trans hs₁ hy) hrefl
    exact hloop.bind fun _ h => h

theorem startScheduling_update (h : Kept s list) :
    Call.Sat (fun x => TaskUpdate ButFlag s x.1) (TaskUpdate ButFlag s) (startScheduling e s) :=
  (startScheduling_raises h).mono (fun _ hx => hx.mono fun _ _ h => h.1)
    fun _ hx => hx.mono fun _ _ h => h.1

end RtSched
