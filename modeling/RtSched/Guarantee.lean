import RtSched.Base.FixedPriority
import RtSched.GroupStop
import RtSched.Reserve

/-!
# What a reservation is worth

The tasks reserved on one CPU, each a process of one thread that never sleeps on its own, under the
hook in `__schedule`, the timer callbacks and the priorities of the scheduler.  The rest of the machine
may do what it likes, as long as it leaves these tasks alone.

* `Metered`: the machine of `Sched` with the time each thread has had since its last period;
* `Metered.view`: what one task sees of the machine; a step of the machine is one event for it, or none
  (`view_after`);
* `Metered.ledger`: the reservations as budgets under fixed priorities; a step of the machine is a step
  there, or nothing (`ledger_step`);
* `budget_guaranteed`: if the time demand of the tasks of at least its priority leaves a rest before its
  period is over, a task has had its budget, up to 10 µs, whenever its period timer expires.
-/

namespace RtSched

open Call FixedPriority TimeDemand

/-! ### The machine -/

/-- The machine, with the time each thread has run since its last `period_timer_callback`. -/
structure Metered extends Sched where
  ran : Tid → ℤ

/-- A process of one thread. -/
structure SoleThread (s : KState) (a : Tid) : Prop where
  leader : (s.task a).tgid = a
  only : ∀ u, (s.task u).tgid = a → u = a

namespace Metered

/-- The state after an event. -/
def after (m : Metered) (e : SchedEvent) : Metered where
  toSched := m.toSched.after e
  ran := match e with
    | .pass d => fun t => if ∃ cpu, m.curr cpu = some t then m.ran t + d else m.ran t
    | .periodExpiry t => Function.update m.ran t 0
    | _ => m.ran

/-- A step in which nobody interferes with the tasks reserved on the CPU, and the CPU serves them.  They
run on this CPU only, do not write their own state, are woken up by their period timers only, and are
not preempted in the kernel when they go to sleep.  Time passes only when no reschedule is pending, no
timer of theirs is due, and the CPU has the most urgent of those that are on its runqueue. -/
def Served (cpu : Fin maxCpu) (reserved : Finset Tid) (m : Metered) : SchedEvent → Prop
  | .pass d =>
      (∀ a ∈ reserved, m.curr cpu = some a → (m.st.task a).needResched = false) ∧
      (∀ a ∈ reserved, (∀ x ∈ (m.st.task a).budgetTimer, m.st.now + d ≤ x) ∧
        ∀ x ∈ (m.st.task a).periodTimer, m.st.now + d ≤ x) ∧
      ∀ a ∈ reserved, m.onRq a = true →
        ∃ x ∈ reserved, m.curr cpu = some x ∧ (m.st.task x).prio ≤ (m.st.task a).prio
  | .schedule c preemptActive _ next =>
      (next ∈ reserved → c = cpu) ∧
      (preemptActive = true → ∀ a ∈ reserved, m.curr c = some a → (m.st.task a).state = .running)
  | .setState c _ => ∀ a ∈ reserved, m.curr c ≠ some a
  | .wakeUp t => t ∉ reserved
  | _ => True

/-- What `a` sees from its CPU. -/
def view (cpu : Fin maxCpu) (m : Metered) (a : Tid) : CpuState where
  now := m.st.now
  task := m.st.task a
  running := decide (m.curr cpu = some a)
  onRq := m.onRq a
  executed := m.ran a

/-- What an event is for `a`. -/
def project (m : Metered) (a : Tid) : SchedEvent → Option CpuEvent
  | .pass d => some (.pass d)
  | .schedule c preemptActive _ next =>
      if m.curr c = some a then some (.resched preemptActive (decide (next = a)))
      else if next = a then some .switchIn
      else none
  | .budgetExpiry t => if t = a then some .budgetExpiry else none
  | .periodExpiry t => if t = a then some .periodExpiry else none
  | .setState _ _ => none
  | .wakeUp _ => none

end Metered

/-- The state after an event that may not concern the task. -/
def CpuState.afterSome (s : CpuState) (e : Option CpuEvent) : CpuState := e.elim s s.after

/-! ### What no event writes -/

/-- The fields that neither the hook nor the timers write. -/
structure Static (p q : TaskStruct) : Prop where
  tgid : q.tgid = p.tgid
  isBudgetSet : q.isBudgetSet = p.isBudgetSet
  prio : q.prio = p.prio
  pmclockFreq : q.pmclockFreq = p.pmclockFreq

theorem Static.refl (p : TaskStruct) : Static p p := ⟨rfl, rfl, rfl, rfl⟩

theorem Static.trans {p q r : TaskStruct} (h : Static p q) (h' : Static q r) : Static p r :=
  ⟨h'.tgid.trans h.tgid, h'.isBudgetSet.trans h.isBudgetSet, h'.prio.trans h.prio,
    h'.pmclockFreq.trans h.pmclockFreq⟩

/-- No task gets other values in them. -/
def SameStatic (s s' : KState) : Prop := ∀ u, Static (s.task u) (s'.task u)

section Static

variable {s s' s'' : KState}

theorem SameStatic.refl (s : KState) : SameStatic s s := fun _ => Static.refl _

theorem SameStatic.trans (h : SameStatic s s') (h' : SameStatic s' s'') : SameStatic s s'' :=
  fun u => (h u).trans (h' u)

theorem sameStatic_modifyTask (s : KState) (t : Tid) {f : TaskStruct → TaskStruct}
    (hf : ∀ p, Static p (f p)) : SameStatic s (s.modifyTask t f) := by
  intro u
  rw [KState.modifyTask_task]
  split_ifs
  · exact hf _
  · exact Static.refl _

theorem static_wakeUpProcess (p : TaskStruct) : Static p (wakeUpProcess p) := by
  obtain ⟨_, -, heq⟩ := wakeUpProcess_eq p
  rw [heq]
  exact ⟨rfl, rfl, rfl, rfl⟩

theorem sameStatic_setState (s : KState) (t : Tid) (state : RunState) :
    SameStatic s (s.modifyTask t fun p => { p with state := state }) :=
  sameStatic_modifyTask s t fun _ => ⟨rfl, rfl, rfl, rfl⟩

theorem sameStatic_clear (s : KState) (t : Tid) :
    SameStatic s (s.modifyTask t fun p => { p with needResched := false }) :=
  sameStatic_modifyTask s t fun _ => ⟨rfl, rfl, rfl, rfl⟩

theorem sameStatic_switchOut (prev : Tid) (s : KState) : SameStatic s (switchOut prev s) := by
  intro u
  rw [switchOut_task]
  split_ifs <;> exact ⟨rfl, rfl, rfl, rfl⟩

theorem sameStatic_switchIn (next : Tid) (s : KState) : SameStatic s (switchIn next s) := by
  intro u
  have hin := switchIn_hookOnly next u s
  unfold HookOnly at hin
  rw [← hin]
  exact ⟨rfl, rfl, rfl, rfl⟩

theorem sameStatic_deactivate (m : Sched) (prev : Tid) (preemptActive signalPending : Bool) :
    SameStatic m.st (m.deactivate prev preemptActive signalPending).st := by
  rw [Sched.deactivate]
  split_ifs
  · exact sameStatic_setState m.st prev .running
  · exact SameStatic.refl _
  · exact SameStatic.refl _

theorem sameStatic_switchTo (m : Sched) (c : Fin maxCpu) (prev next : Tid) :
    SameStatic m.st (m.switchTo c prev next).st := by
  rw [Sched.switchTo]
  split_ifs
  · exact sameStatic_clear m.st prev
  · simp only [switchInLoop_eq]
    exact (sameStatic_clear m.st prev).trans
      ((sameStatic_switchOut prev _).trans (sameStatic_switchIn next _))

theorem sameStatic_event (m : Sched) (e : SchedEvent) : SameStatic m.st (m.after e).st := by
  cases e with
  | pass d => exact SameStatic.refl _
  | schedule c preemptActive signalPending next =>
    cases hcurr : m.curr c with
    | none =>
      simp only [Sched.after, hcurr]
      exact SameStatic.refl _
    | some prev =>
      simp only [Sched.after, hcurr]
      exact (sameStatic_deactivate m prev _ _).trans (sameStatic_switchTo _ c prev next)
  | budgetExpiry t =>
    simp only [Sched.after, budgetTimerLoop_eq]
    refine sameStatic_modifyTask _ _ fun p => ?_
    rw [budgetTimerCallback]
    split_ifs <;> exact ⟨rfl, rfl, rfl, rfl⟩
  | periodExpiry t =>
    intro u
    simp only [Sched.after, periodCallback, KState.eachThread_task, KState.modifyTask_task]
    split_ifs
    · refine Static.trans ?_ (static_wakeUpProcess _)
      exact ⟨rfl, rfl, rfl, rfl⟩
    · exact static_wakeUpProcess _
    · exact ⟨rfl, rfl, rfl, rfl⟩
    · exact Static.refl _
  | setState c state =>
    cases hcurr : m.curr c with
    | none =>
      simp only [Sched.after, hcurr]
      exact SameStatic.refl _
    | some t =>
      simp only [Sched.after, hcurr]
      exact sameStatic_setState m.st t state
  | wakeUp t => exact sameStatic_modifyTask _ _ static_wakeUpProcess

end Static

/-! ### One task of the machine -/

section Frame

variable {m : Sched} {cpu : Fin maxCpu} {prev next a : Tid} {preemptActive signalPending : Bool}

theorem SoleThread.threads {s : KState} (h : SoleThread s a) {t : Tid} : a ∈ s.threads t ↔ t = a := by
  constructor
  · intro hmem
    apply h.only
    rw [← s.tgid_of_mem_threads hmem]
    exact h.leader
  · rintro rfl
    exact s.self_mem_threads t

theorem SoleThread.congr {s s' : KState} (h : SoleThread s a) (hgroups : SameGroups s s') : SoleThread s' a :=
  ⟨(hgroups.tgid a).trans h.leader, fun u hu => h.only u ((hgroups.tgid u).symm.trans hu)⟩

theorem SoleThread.of_static {s s' : KState} (h : SoleThread s a) (hstatic : SameStatic s s') :
    SoleThread s' a :=
  ⟨(hstatic a).tgid.trans h.leader, fun u hu => h.only u ((hstatic u).tgid.symm.trans hu)⟩

/-- The hook leaves a process alone that is not switched. -/
theorem switchOut_task_of_ne {s : KState} (h : SoleThread s a) (hne : prev ≠ a) :
    (switchOut prev s).task a = s.task a := by
  rw [switchOut_task]
  exact if_neg fun hp => hne (h.only prev hp.2.symm)

theorem switchIn_task_of_ne {s : KState} (h : SoleThread s a) (hne : next ≠ a) :
    (switchIn next s).task a = s.task a := by
  have hleader : a ≠ (s.task next).tgid := fun heq => hne (h.only next heq.symm)
  rw [switchIn]
  split_ifs
  · have hstart : (startSlice (s.task next).tgid s).task a = s.task a := by
      rw [startSlice, KState.modifyTask_task, if_neg hleader]
    rcases armLeader_cases (s.task next).tgid next (startSlice (s.task next).tgid s) with
      ⟨-, heq⟩ | ⟨-, heq | heq⟩
    all_goals
      refine (congrArg (fun s => s.task a) heq).trans ?_
    · simp only [KState.modifyTask_task, if_neg hleader]
      exact hstart
    · simp only [KState.modifyTask_task, if_neg hne.symm]
      exact hstart
    · exact hstart
  · rfl

theorem deactivate_same : (m.deactivate prev preemptActive signalPending).curr = m.curr ∧
    (m.deactivate prev preemptActive signalPending).st.now = m.st.now := by
  rw [Sched.deactivate]
  split_ifs <;> exact ⟨rfl, rfl⟩

theorem deactivate_of_ne (m : Sched) (preemptActive signalPending : Bool) (hne : prev ≠ a) :
    (m.deactivate prev preemptActive signalPending).st.task a = m.st.task a ∧
      (m.deactivate prev preemptActive signalPending).onRq a = m.onRq a := by
  rw [Sched.deactivate]
  split_ifs
  · exact ⟨by rw [KState.modifyTask_task, if_neg hne.symm], rfl⟩
  · exact ⟨rfl, Function.update_of_ne hne.symm _ _⟩
  · exact ⟨rfl, rfl⟩

theorem sameGroups_deactivate (m : Sched) (prev : Tid) (preemptActive signalPending : Bool) :
    SameGroups m.st (m.deactivate prev preemptActive signalPending).st := by
  rw [Sched.deactivate]
  split_ifs
  · exact sameGroups_setState m.st prev .running
  · exact SameGroups.refl m.st
  · exact SameGroups.refl m.st

/-- The record of a process of one thread after `__schedule` has switched from `prev` to `next`. -/
theorem switchTo_task_alone (h : SoleThread m.st a) (cpu : Fin maxCpu) (prev next : Tid) :
    (m.switchTo cpu prev next).st.task a =
      if prev = a then
        if next = a then { m.st.task a with needResched := false }
        else hookOut m.st.now { m.st.task a with needResched := false }
      else if next = a then hookIn m.st.now (m.st.task a) else m.st.task a := by
  have hclear : SameGroups m.st (m.st.modifyTask prev fun p => { p with needResched := false }) :=
    sameGroups_modifyTask _ _ fun _ => rfl
  have hcleared : (m.st.modifyTask prev fun p => { p with needResched := false }).task a =
      if prev = a then { m.st.task a with needResched := false } else m.st.task a := by
    rw [KState.modifyTask_task]
    exact if_congr eq_comm rfl rfl
  have halone := h.congr hclear
  have hout := sameGroups_switchOut prev (m.st.modifyTask prev fun p => { p with needResched := false })
  rw [Sched.switchTo]
  by_cases hsame : next = prev
  · subst hsame
    rw [if_pos rfl]
    refine hcleared.trans ?_
    split_ifs <;> rfl
  · rw [if_neg hsame]
    show (switchInLoop next (switchOut prev _)).task a = _
    rw [switchInLoop_eq]
    by_cases hprev : prev = a
    · subst hprev
      rw [if_pos rfl] at hcleared
      rw [if_pos rfl, if_neg hsame, switchIn_task_of_ne (halone.congr hout) hsame,
        switchOut_single halone.leader, KState.modifyTask_task, if_pos rfl, hcleared]
      rfl
    · rw [if_neg hprev] at hcleared
      rw [if_neg hprev]
      by_cases hnext : next = a
      · subst hnext
        rw [if_pos rfl, switchIn_single (halone.congr hout).leader, KState.modifyTask_task, if_pos rfl,
          switchOut_task_of_ne halone hprev, hcleared, (switchOut_globals _ prev).1]
        rfl
      · rw [if_neg hnext, switchIn_task_of_ne (halone.congr hout) hnext,
          switchOut_task_of_ne halone hprev, hcleared]

theorem switchTo_curr (m : Sched) (cpu : Fin maxCpu) (prev next : Tid) (hprev : m.curr cpu = some prev) :
    (m.switchTo cpu prev next).curr = Function.update m.curr cpu (some next) := by
  rw [Sched.switchTo]
  split_ifs with hsame
  · rw [hsame, ← hprev, Function.update_eq_self]
  · rfl

theorem switchTo_now (m : Sched) (cpu : Fin maxCpu) (prev next : Tid) :
    (m.switchTo cpu prev next).st.now = m.st.now := by
  rw [Sched.switchTo]
  split_ifs
  · rfl
  · show (switchInLoop next (switchOut prev _)).now = _
    rw [switchInLoop_eq, (switchIn_globals next _).1, (switchOut_globals _ prev).1]
    rfl

end Frame

section View

variable {m : Metered} {cpu c : Fin maxCpu} {reserved : Finset Tid} {prev next a t : Tid}
  {preemptActive signalPending : Bool} {e : SchedEvent}

theorem after_schedule (hprev : m.curr c = some prev) :
    (m.after (.schedule c preemptActive signalPending next)).toSched =
      (m.deactivate prev preemptActive signalPending).switchTo c prev next := by
  simp only [Metered.after, Sched.after, hprev]

/-- A task that is awake or sleeps for its budget is taken off the runqueue, or nothing happens. -/
theorem deactivate_self (cpu : Fin maxCpu) (preemptActive signalPending : Bool)
    (hstate : (m.st.task a).state = .running ∨ (m.st.task a).state = .uninterruptible) :
    (m.deactivate a preemptActive signalPending).st = m.st ∧
      (m.deactivate a preemptActive signalPending).onRq a =
        (m.onRq a && !(m.view cpu a).deactivates preemptActive) := by
  rcases hstate with hawake | hsleep
  · have hsame : m.deactivate a preemptActive signalPending = m.toSched :=
      if_neg fun h => h.1 hawake
    rw [hsame]
    simp [CpuState.deactivates, Metered.view, hawake]
  · cases preemptActive with
    | true =>
      have hsame : m.deactivate a true signalPending = m.toSched :=
        if_neg fun h => Bool.noConfusion h.2
      rw [hsame]
      simp [CpuState.deactivates]
    | false =>
      have hoff : m.deactivate a false signalPending =
          { m.toSched with onRq := Function.update m.onRq a false } := by
        rw [Sched.deactivate, if_pos ⟨by rw [hsleep]; exact RunState.noConfusion, rfl⟩,
          if_neg fun h => h.2 hsleep]
      rw [hoff]
      simp [CpuState.deactivates, Metered.view, hsleep]

/-- The task is switched out, or picked again. -/
theorem view_schedule_prev (halone : SoleThread m.st a) (hstate : (m.st.task a).state = .running ∨
      (m.st.task a).state = .uninterruptible) (hcurr : m.curr cpu = some a) :
    (m.after (.schedule cpu preemptActive signalPending next)).view cpu a =
      (m.view cpu a).after (.resched preemptActive (decide (next = a))) := by
  obtain ⟨hst, hrq⟩ := deactivate_self cpu preemptActive signalPending hstate
  have halone' : SoleThread (m.deactivate a preemptActive signalPending).st a := by
    rw [hst]
    exact halone
  have htask := switchTo_task_alone halone' cpu a next
  rw [if_pos rfl, hst] at htask
  have hcurr' := switchTo_curr (m.deactivate a preemptActive signalPending) cpu a next
    (by rw [deactivate_same.1]; exact hcurr)
  have hnow := switchTo_now (m.deactivate a preemptActive signalPending) cpu a next
  rw [hst] at hnow
  have hqueue := (m.deactivate a preemptActive signalPending).switchTo_onRq cpu a next
  by_cases hnext : next = a
  · subst hnext
    rw [if_pos rfl] at htask
    simp only [Metered.view, after_schedule hcurr, htask, hcurr', hnow, hqueue, hrq, CpuState.after,
      decide_true, if_true, Function.update_self, hcurr]
    rfl
  · rw [if_neg hnext] at htask
    simp only [Metered.view, after_schedule hcurr, htask, hcurr', hnow, hqueue, hrq, CpuState.after,
      hnext, decide_false, Bool.false_eq_true, if_false, Function.update_self, Option.some.injEq]
    rfl

/-- The task is switched in. -/
theorem view_schedule_next (halone : SoleThread m.st a) (hcurr : m.curr cpu = some prev)
    (hne : prev ≠ a) :
    (m.after (.schedule cpu preemptActive signalPending a)).view cpu a =
      (m.view cpu a).after .switchIn := by
  obtain ⟨hst, hrq⟩ := deactivate_of_ne m.toSched preemptActive signalPending hne
  have halone' := halone.congr (sameGroups_deactivate m.toSched prev preemptActive signalPending)
  have htask := switchTo_task_alone halone' cpu prev a
  rw [if_neg hne, if_pos rfl, hst, deactivate_same.2] at htask
  have hcurr' := switchTo_curr (m.deactivate prev preemptActive signalPending) cpu prev a
    (by rw [deactivate_same.1]; exact hcurr)
  simp only [Metered.view, after_schedule hcurr, htask, hcurr', switchTo_now, Sched.switchTo_onRq,
    hrq, deactivate_same.2, CpuState.after, Function.update_self, decide_true]
  rfl

/-- Two others are switched. -/
theorem view_schedule_other (halone : SoleThread m.st a) (hcurr : m.curr c = some prev) (hne : prev ≠ a)
    (hnext : next ≠ a) :
    (m.after (.schedule c preemptActive signalPending next)).view cpu a = m.view cpu a := by
  obtain ⟨hst, hrq⟩ := deactivate_of_ne m.toSched preemptActive signalPending hne
  have halone' := halone.congr (sameGroups_deactivate m.toSched prev preemptActive signalPending)
  have htask := switchTo_task_alone halone' c prev next
  rw [if_neg hne, if_neg hnext, hst] at htask
  have hcurr' := switchTo_curr (m.deactivate prev preemptActive signalPending) c prev next
    (by rw [deactivate_same.1]; exact hcurr)
  have hrunning : Function.update m.curr c (some next) cpu = some a ↔ m.curr cpu = some a := by
    by_cases hc : cpu = c
    · subst hc
      rw [Function.update_self, hcurr, Option.some.injEq, Option.some.injEq]
      exact iff_of_false hnext hne
    · rw [Function.update_of_ne hc]
  simp only [Metered.view, after_schedule hcurr, htask, hcurr', switchTo_now, Sched.switchTo_onRq,
    hrq, deactivate_same.1, deactivate_same.2, hrunning]
  rfl

theorem view_pass (hhome : ∀ c, m.curr c = some a → c = cpu) (d : ℕ) :
    (m.after (.pass d)).view cpu a = (m.view cpu a).after (.pass d) := by
  have hon : (∃ c, m.curr c = some a) ↔ m.curr cpu = some a := by
    constructor
    · rintro ⟨c, hc⟩
      rwa [← hhome c hc]
    · exact fun h => ⟨cpu, h⟩
  simp only [Metered.view, Metered.after, Sched.after, CpuState.after, hon, decide_eq_true_eq]
  split_ifs <;> rfl

theorem view_budgetExpiry : (m.after (.budgetExpiry t)).view cpu a =
    if t = a then (m.view cpu a).after .budgetExpiry else m.view cpu a := by
  simp only [Metered.view, Metered.after, Sched.after, budgetTimerLoop_eq, KState.modifyTask_task]
  by_cases hta : t = a
  · subst hta
    rw [if_pos rfl, if_pos rfl]
    rfl
  · rw [if_neg hta, if_neg (Ne.symm hta)]
    rfl

theorem view_periodExpiry (h : ReserveInv (m.view cpu a)) (halone : SoleThread m.st a) :
    (m.after (.periodExpiry t)).view cpu a =
      if t = a then (m.view cpu a).after .periodExpiry else m.view cpu a := by
  by_cases hta : t = a
  · subst hta
    have htask : (periodCallback t m.st).task t = periodTimerCallback m.st.now (m.st.task t) := by
      rw [periodCallback, KState.eachThread_task, if_pos (KState.self_mem_threads _ t),
        KState.modifyTask_task, if_pos rfl]
      rfl
    have hqueue : m.enqueue (m.st.threads t) t =
        (m.onRq t || ((m.st.task t).state ≠ .running && (m.st.task t).state ≠ .dead)) := by
      have hself := m.st.self_mem_threads t
      rcases h.state with hawake | hsleep
      · have hrq : m.onRq t = true := h.queued.2 (Or.inl hawake)
        have hstate : (m.st.task t).state = .running := hawake
        simp [Sched.enqueue, hself, hstate, hrq]
      · have hstate : (m.st.task t).state = .uninterruptible := hsleep
        simp [Sched.enqueue, hself, hstate]
    rw [if_pos rfl]
    simp only [Metered.view, Metered.after, Sched.after, CpuState.after, htask, hqueue,
      Function.update_self]
    rfl
  · have hmem : a ∉ m.st.threads t := fun hmem => hta (halone.threads.1 hmem)
    have hqueue : m.enqueue (m.st.threads t) a = m.onRq a := if_neg fun h => hmem h.1
    rw [if_neg hta]
    simp only [Metered.view, Metered.after, Sched.after, periodCallback_task_of_not_mem hmem, hqueue,
      Function.update_of_ne (Ne.symm hta)]
    rfl

/-- **One task sees one event, or none.** -/
theorem view_after (h : ReserveInv (m.view cpu a)) (halone : SoleThread m.st a)
    (hhome : ∀ c, m.curr c = some a → c = cpu) (ha : a ∈ reserved) (hcan : m.Can e)
    (hserved : m.Served cpu reserved e) :
    (m.after e).view cpu a = (m.view cpu a).afterSome (m.project a e) := by
  cases e with
  | pass d => exact view_pass hhome d
  | schedule c preemptActive signalPending next =>
    obtain ⟨prev, hprev, -, -⟩ := hcan
    simp only [Metered.project]
    by_cases hcurr : m.curr c = some a
    · obtain rfl := hhome c hcurr
      rw [if_pos hcurr]
      exact view_schedule_prev halone h.state hcurr
    · have hne : prev ≠ a := fun heq => hcurr (heq ▸ hprev)
      rw [if_neg hcurr]
      by_cases hnext : next = a
      · subst hnext
        obtain rfl := hserved.1 ha
        rw [if_pos rfl]
        exact view_schedule_next halone hprev hne
      · rw [if_neg hnext]
        exact view_schedule_other halone hprev hne hnext
  | budgetExpiry t =>
    simp only [Metered.project]
    rw [view_budgetExpiry]
    split_ifs <;> rfl
  | periodExpiry t =>
    simp only [Metered.project]
    rw [view_periodExpiry h halone]
    split_ifs <;> rfl
  | setState c state =>
    have hne : ∀ t, m.curr c = some t → t ≠ a := by
      rintro t ht rfl
      exact hserved t ha ht
    cases hcurr : m.curr c with
    | none =>
      simp only [Metered.view, Metered.after, Sched.after, hcurr]
      rfl
    | some t =>
      simp only [Metered.view, Metered.after, Sched.after, hcurr, KState.modifyTask_task,
        if_neg (hne t hcurr).symm]
      rfl
  | wakeUp t =>
    have hne : a ≠ t := by
      rintro rfl
      exact hserved ha
    have hqueue : m.enqueue [t] a = m.onRq a := if_neg fun h => hne (List.mem_singleton.1 h.1)
    simp only [Metered.view, Metered.after, Sched.after, KState.modifyTask_task, if_neg hne, hqueue]
    rfl

/-- The event can happen to the task. -/
theorem enabled_project (h : ReserveInv (m.view cpu a))
    (hhome : ∀ c, m.curr c = some a → c = cpu) (ha : a ∈ reserved) (hcan : m.Can e)
    (hserved : m.Served cpu reserved e) {e' : CpuEvent} (he : e' ∈ m.project a e) :
    Enabled (m.view cpu a) e' := by
  cases e with
  | pass d =>
    obtain rfl := Option.some.inj he
    exact ⟨fun hr => hserved.1 a ha (of_decide_eq_true hr), hserved.2.1 a ha⟩
  | schedule c preemptActive signalPending next =>
    obtain ⟨prev, hprev, hrq, -⟩ := hcan
    simp only [Metered.project] at he
    split_ifs at he with hcurr hnext
    · obtain rfl := Option.some.inj he
      obtain rfl := hhome c hcurr
      obtain rfl : prev = a := Option.some.inj (hprev.symm.trans hcurr)
      refine ⟨decide_eq_true hcurr, fun hagain => ?_⟩
      obtain rfl : next = prev := of_decide_eq_true hagain
      rw [(deactivate_self c preemptActive signalPending h.state).2, Bool.and_eq_true,
        Bool.not_eq_true'] at hrq
      exact hrq
    · subst hnext
      obtain rfl := Option.some.inj he
      obtain rfl := hserved.1 ha
      have hne : prev ≠ next := fun heq => hcurr (heq ▸ hprev)
      rw [(deactivate_of_ne m.toSched preemptActive signalPending hne).2] at hrq
      exact ⟨decide_eq_false hcurr, hrq⟩
    · cases he
  | budgetExpiry t =>
    simp only [Metered.project] at he
    split_ifs at he with hta
    · subst hta
      obtain rfl := Option.some.inj he
      exact h.budget_due hcan
    · cases he
  | periodExpiry t =>
    simp only [Metered.project] at he
    split_ifs at he with hta
    · subst hta
      obtain rfl := Option.some.inj he
      exact (h.last_of_due hcan).1
    · cases he
  | setState c state => cases he
  | wakeUp t => cases he

end View

/-! ### The budgets under fixed priorities -/

/-- The reservations of the CPU as budgets. -/
def Metered.ledger (cpu : Fin maxCpu) (reserved : Finset Tid) (m : Metered) :
    FixedPriority.Ledger Tid where
  now := m.st.now
  awake a := a ∈ reserved ∧ (m.st.task a).state = .running
  left a := if a ∈ reserved then (m.view cpu a).left else 0
  last a := if a ∈ reserved then (m.view cpu a).last else 0

section Ledger

variable {m m' : Metered} {cpu : Fin maxCpu} {reserved : Finset Tid} {x : Tid}

theorem ledger_of_same (hnow : m'.st.now = m.st.now)
    (hsame : ∀ b ∈ reserved, SameAccount (m.view cpu b) (m'.view cpu b)) :
    m'.ledger cpu reserved = m.ledger cpu reserved := by
  refine FixedPriority.Ledger.ext hnow ?_ ?_ ?_
  · funext b
    exact propext (and_congr_right fun hb => (hsame b hb).awake)
  · funext b
    exact ite_congr rfl (fun hb => (hsame b hb).left) fun _ => rfl
  · funext b
    exact ite_congr rfl (fun hb => (hsame b hb).last) fun _ => rfl

/-- One account changes. -/
theorem ledger_update (hx : x ∈ reserved) (hnow : m'.st.now = m.st.now)
    (hothers : ∀ b ∈ reserved, b ≠ x → SameAccount (m.view cpu b) (m'.view cpu b)) :
    m'.ledger cpu reserved = { m.ledger cpu reserved with
      awake := Function.update (m.ledger cpu reserved).awake x ((m'.st.task x).state = .running)
      left := Function.update (m.ledger cpu reserved).left x (m'.view cpu x).left
      last := Function.update (m.ledger cpu reserved).last x (m'.view cpu x).last } := by
  refine FixedPriority.Ledger.ext hnow (Function.eq_update_iff.2 ⟨?_, fun b hbx => ?_⟩)
    (Function.eq_update_iff.2 ⟨if_pos hx, fun b hbx => ?_⟩)
    (Function.eq_update_iff.2 ⟨if_pos hx, fun b hbx => ?_⟩)
  · exact propext (and_iff_right hx)
  · exact propext (and_congr_right fun hb => (hothers b hb hbx).awake)
  · exact ite_congr rfl (fun hb => (hothers b hb hbx).left) fun _ => rfl
  · exact ite_congr rfl (fun hb => (hothers b hb hbx).last) fun _ => rfl

variable {cost period prio : Tid → ℤ}

theorem step_of_sleeps (hx : x ∈ reserved) (hnow : m'.st.now = m.st.now)
    (hothers : ∀ b ∈ reserved, b ≠ x → SameAccount (m.view cpu b) (m'.view cpu b))
    (hsleeps : Sleeps (m.view cpu x) (m'.view cpu x)) :
    Step cost period prio reserved (m.ledger cpu reserved) (m'.ledger cpu reserved) := by
  have hawake : ((m'.st.task x).state = .running) = False := by
    refine eq_false fun hrun => ?_
    exact absurd (hrun.symm.trans hsleeps.state) RunState.noConfusion
  have hlast : (m.view cpu x).last = (m.ledger cpu reserved).last x := (if_pos hx).symm
  rw [ledger_update hx hnow hothers, hawake, left_of_asleep hsleeps.state, hsleeps.last, hlast,
    Function.update_eq_self]
  exact Step.sleep x hx

theorem step_of_fills (hx : x ∈ reserved) (hnow : m'.st.now = m.st.now)
    (hothers : ∀ b ∈ reserved, b ≠ x → SameAccount (m.view cpu b) (m'.view cpu b))
    (hfills : Fills (m.view cpu x) (m'.view cpu x))
    (hcost : timespecToNs (m.st.task x).budgetTime = cost x)
    (hdue : (m.view cpu x).last + period x ≤ m.st.now) :
    Step cost period prio reserved (m.ledger cpu reserved) (m'.ledger cpu reserved) := by
  have hawake : ((m'.st.task x).state = .running) = True := eq_true hfills.state
  have hleft : (m'.view cpu x).left = cost x := hfills.left.trans hcost
  rw [ledger_update hx hnow hothers, hawake, hleft, hfills.last]
  refine Step.fill x hx ?_
  show (if x ∈ reserved then (m.view cpu x).last else 0) + period x ≤ m.st.now
  rw [if_pos hx]
  exact hdue

end Ledger

/-! ### Whole runs -/

/-- The task whose account an event may change. -/
def SchedEvent.target : SchedEvent → Option Tid
  | .schedule _ _ _ next => some next
  | .budgetExpiry t => some t
  | .periodExpiry t => some t
  | _ => none

/-- The task with the rest of its period that the demand of the tasks of at least its priority leaves. -/
structure HasSlack (cost period prio : Tid → ℤ) (reserved : Finset Tid) (a : Tid) (slack : ℤ) : Prop where
  pos : 0 < slack
  le : slack ≤ period a
  rest : demand cost period (reserved.filter fun b => prio b ≤ prio a).val slack < slack

/-- What holds of the CPU and its reservations throughout. -/
structure GuaranteeInv (cpu : Fin maxCpu) (reserved : Finset Tid) (cost period prio slack : Tid → ℤ)
    (m : Metered) : Prop where
  alone : ∀ a ∈ reserved, SoleThread m.st a
  home : ∀ a ∈ reserved, ∀ c, m.curr c = some a → c = cpu
  cost_eq : ∀ a ∈ reserved, timespecToNs (m.st.task a).budgetTime = cost a
  period_eq : ∀ a ∈ reserved, timespecToNs (m.st.task a).timePeriod = period a
  prio_eq : ∀ a ∈ reserved, (m.st.task a).prio = prio a
  reserve : ∀ a ∈ reserved, ReserveInv (m.view cpu a)
  windows : ∀ v, Windowed cost period (reserved.filter fun b => prio b ≤ v) (m.ledger cpu reserved)
  /-- a task that goes to sleep is early -/
  leaving : ∀ a ∈ reserved, m.curr cpu = some a → (m.st.task a).state = .uninterruptible →
    m.st.now < (m.view cpu a).last + slack a

section Guarantee

variable {cpu : Fin maxCpu} {reserved : Finset Tid} {cost period prio slack : Tid → ℤ}
  {m : Metered} {a : Tid} {e : SchedEvent}

theorem GuaranteeInv.period_pos (h : GuaranteeInv cpu reserved cost period prio slack m)
    (ha : a ∈ reserved) : 0 < period a := by
  rw [← h.period_eq a ha]
  exact (h.reserve a ha).period

theorem GuaranteeInv.cost_nonneg (h : GuaranteeInv cpu reserved cost period prio slack m)
    (ha : a ∈ reserved) : 0 ≤ cost a := by
  rw [← h.cost_eq a ha]
  exact (h.reserve a ha).nonneg.trans (h.reserve a ha).le

/-- A task that is awake is early. -/
theorem GuaranteeInv.awake_early (h : GuaranteeInv cpu reserved cost period prio slack m)
    (ha : a ∈ reserved) (hfit : HasSlack cost period prio reserved a (slack a))
    (hawake : (m.st.task a).state = .running) : m.st.now < (m.view cpu a).last + slack a := by
  by_contra hlate
  have hlast : (m.ledger cpu reserved).last a = (m.view cpu a).last := if_pos ha
  refine (h.windows (prio a)).asleep (Finset.mem_filter.2 ⟨ha, le_rfl⟩) hfit.pos hfit.rest ?_
    (h.period_pos ha) ⟨ha, hawake⟩
  rw [hlast]
  exact not_lt.1 hlate

/-- All that a served task sees, other than the end of its period, a reservation can account for. -/
theorem reserveOk_or_due (ha : a ∈ reserved) (hserved : m.Served cpu reserved e) {e' : CpuEvent}
    (he : e' ∈ m.project a e) :
    ReserveOk (m.view cpu a) e' ∧ e' ≠ .periodExpiry ∨ e' = .periodExpiry ∧ e = .periodExpiry a := by
  cases e with
  | pass d =>
    obtain rfl := Option.some.inj he
    exact Or.inl ⟨trivial, CpuEvent.noConfusion⟩
  | schedule c preemptActive signalPending next =>
    simp only [Metered.project] at he
    split_ifs at he with hcurr hnext
    · obtain rfl := Option.some.inj he
      exact Or.inl ⟨fun hactive => hserved.2 hactive a ha hcurr, CpuEvent.noConfusion⟩
    · obtain rfl := Option.some.inj he
      exact Or.inl ⟨trivial, CpuEvent.noConfusion⟩
    · cases he
  | budgetExpiry t =>
    simp only [Metered.project] at he
    split_ifs at he
    · obtain rfl := Option.some.inj he
      exact Or.inl ⟨trivial, CpuEvent.noConfusion⟩
    · cases he
  | periodExpiry t =>
    simp only [Metered.project] at he
    split_ifs at he with hta
    · obtain rfl := Option.some.inj he
      exact Or.inr ⟨rfl, by rw [hta]⟩
    · cases he
  | setState c state => cases he
  | wakeUp t => cases he

/-- At the end of its period the task is no longer awake, and has left the CPU. -/
theorem GuaranteeInv.asleep_of_due (h : GuaranteeInv cpu reserved cost period prio slack m)
    (ha : a ∈ reserved) (hfit : HasSlack cost period prio reserved a (slack a))
    (hcan : m.Can (.periodExpiry a)) : ReserveOk (m.view cpu a) .periodExpiry := by
  have hdue := ((h.reserve a ha).last_of_due hcan).2
  have hperiod : timespecToNs (m.view cpu a).task.timePeriod = period a := h.period_eq a ha
  have hle := hfit.le
  have hlate : ¬ m.st.now < (m.view cpu a).last + slack a := by
    have hnow : (m.view cpu a).now = m.st.now := rfl
    omega
  have hsleep := (h.reserve a ha).state.resolve_left fun hawake =>
    hlate (h.awake_early ha hfit hawake)
  exact ⟨decide_eq_false fun hcurr => hlate (h.leaving a ha hcurr hsleep), hsleep⟩

/-- The event is one that a reservation can account for. -/
theorem GuaranteeInv.reserveOk (h : GuaranteeInv cpu reserved cost period prio slack m)
    (ha : a ∈ reserved) (hfit : HasSlack cost period prio reserved a (slack a)) (hcan : m.Can e)
    (hserved : m.Served cpu reserved e) {e' : CpuEvent} (he : e' ∈ m.project a e) :
    ReserveOk (m.view cpu a) e' := by
  rcases reserveOk_or_due ha hserved he with ⟨hok, -⟩ | ⟨rfl, rfl⟩
  · exact hok
  · exact h.asleep_of_due ha hfit hcan

theorem after_now (m : Metered) (hpass : ∀ d, e ≠ .pass d) : (m.after e).st.now = m.st.now := by
  cases e with
  | pass d => exact absurd rfl (hpass d)
  | schedule c preemptActive signalPending next =>
    cases hcurr : m.curr c with
    | none => simp only [Metered.after, Sched.after, hcurr]
    | some prev => rw [after_schedule hcurr, switchTo_now, deactivate_same.2]
  | budgetExpiry t =>
    simp only [Metered.after, Sched.after, budgetTimerLoop_eq]
    rfl
  | periodExpiry t => rfl
  | setState c state =>
    cases hcurr : m.curr c with
    | none => simp only [Metered.after, Sched.after, hcurr]
    | some t =>
      simp only [Metered.after, Sched.after, hcurr]
      rfl
  | wakeUp t => rfl

/-- What one task sees is an event it can account for. -/
theorem GuaranteeInv.sees (h : GuaranteeInv cpu reserved cost period prio slack m)
    (ha : a ∈ reserved) (hfit : HasSlack cost period prio reserved a (slack a)) (hcan : m.Can e)
    (hserved : m.Served cpu reserved e) :
    (m.after e).view cpu a = (m.view cpu a).afterSome (m.project a e) ∧
      ∀ e' ∈ m.project a e, Enabled (m.view cpu a) e' ∧ ReserveOk (m.view cpu a) e' :=
  ⟨view_after (h.reserve a ha) (h.alone a ha) (h.home a ha) ha hcan hserved, fun _ he =>
    ⟨enabled_project (h.reserve a ha) (h.home a ha) ha hcan hserved he,
      h.reserveOk ha hfit hcan hserved he⟩⟩

/-- The accounts of all tasks but one stay as they are, unless time passes. -/
theorem GuaranteeInv.account_other (h : GuaranteeInv cpu reserved cost period prio slack m)
    (ha : a ∈ reserved) (hfit : HasSlack cost period prio reserved a (slack a)) (hcan : m.Can e)
    (hserved : m.Served cpu reserved e) (hpass : ∀ d, e ≠ .pass d) (hne : e.target ≠ some a) :
    SameAccount (m.view cpu a) ((m.after e).view cpu a) := by
  rw [(h.sees ha hfit hcan hserved).1]
  cases e with
  | pass d => exact absurd rfl (hpass d)
  | schedule c preemptActive signalPending next =>
    have hnext : next ≠ a := fun heq => hne (congrArg some heq)
    simp only [Metered.project, if_neg hnext]
    split_ifs
    · exact account_resched _ _
    · exact SameAccount.refl _
  | budgetExpiry t =>
    simp only [Metered.project, if_neg fun heq => hne (congrArg some heq)]
    exact SameAccount.refl _
  | periodExpiry t =>
    simp only [Metered.project, if_neg fun heq => hne (congrArg some heq)]
    exact SameAccount.refl _
  | setState c state => exact SameAccount.refl _
  | wakeUp t => exact SameAccount.refl _

/-- The account of that one stays, or it goes to sleep, or its period begins. -/
theorem GuaranteeInv.account_target (h : GuaranteeInv cpu reserved cost period prio slack m)
    (ha : a ∈ reserved) (hfit : HasSlack cost period prio reserved a (slack a)) (hcan : m.Can e)
    (hserved : m.Served cpu reserved e) (htarget : e.target = some a) :
    SameAccount (m.view cpu a) ((m.after e).view cpu a) ∨
      Sleeps (m.view cpu a) ((m.after e).view cpu a) ∨
      Fills (m.view cpu a) ((m.after e).view cpu a) ∧ (m.view cpu a).last + period a ≤ m.st.now := by
  obtain ⟨hview, hok⟩ := h.sees ha hfit hcan hserved
  rw [hview]
  cases e with
  | schedule c preemptActive signalPending next =>
    obtain rfl := Option.some.inj htarget
    by_cases hcurr : m.curr c = some next
    · rw [Metered.project, if_pos hcurr]
      exact Or.inl (account_resched preemptActive _)
    · rw [Metered.project, if_neg hcurr, if_pos rfl] at hok ⊢
      rcases (h.reserve next ha).account_switchIn (hok _ rfl).1 with hsame | hsleeps
      · exact Or.inl hsame
      · exact Or.inr (Or.inl hsleeps)
  | budgetExpiry t =>
    obtain rfl := Option.some.inj htarget
    simp only [Metered.project, if_true] at hok ⊢
    exact Or.inr (Or.inl ((h.reserve t ha).account_budgetExpiry (hok _ rfl).1))
  | periodExpiry t =>
    obtain rfl := Option.some.inj htarget
    simp only [Metered.project, if_true] at hok ⊢
    refine Or.inr (Or.inr ⟨(h.reserve t ha).account_periodExpiry (hok _ rfl).1 (hok _ rfl).2, ?_⟩)
    have hdue := ((h.reserve t ha).last_of_due hcan).2
    have hperiod : timespecToNs (m.view cpu t).task.timePeriod = period t := h.period_eq t ha
    rw [hperiod] at hdue
    exact hdue.le
  | pass d => cases htarget
  | setState c state => cases htarget
  | wakeUp t => cases htarget

/-- A task that does not have the CPU keeps its account while time passes. -/
theorem account_pass {s : CpuState} (hr : s.running = false) (d : ℕ) :
    SameAccount s (s.after (.pass d)) := by
  have hafter : s.after (.pass d) = { s with now := s.now + d } := by
    simp only [CpuState.after, hr, Bool.false_eq_true, if_false]
  rw [hafter]
  exact ⟨Iff.rfl, rfl, rfl⟩

/-- Time passes: the CPU works for the most urgent task, or there is nothing to do. -/
theorem GuaranteeInv.ledger_pass (h : GuaranteeInv cpu reserved cost period prio slack m)
    {d : ℕ} (hserved : m.Served cpu reserved (.pass d)) :
    Step cost period prio reserved (m.ledger cpu reserved)
      ((m.after (.pass d)).ledger cpu reserved) := by
  obtain ⟨hresched, htimers, hbest⟩ := hserved
  have hqueued : ∀ a ∈ reserved, (m.st.task a).state = .running → m.onRq a = true :=
    fun a ha hawake => (h.reserve a ha).queued.2 (Or.inl hawake)
  have hoff : ∀ a ∈ reserved, m.curr cpu ≠ some a →
      SameAccount (m.view cpu a) ((m.after (.pass d)).view cpu a) := by
    intro a ha hcurr
    rw [view_pass (h.home a ha)]
    exact account_pass (decide_eq_false hcurr) d
  by_cases hbusy : ∃ x ∈ reserved, m.curr cpu = some x
  · obtain ⟨x, hx, hcurr⟩ := hbusy
    have hr : (m.view cpu x).running = true := decide_eq_true hcurr
    have hawake := (h.reserve x hx).awake_of_resched hr (hresched x hx hcurr)
    have hleft : (m.ledger cpu reserved).left x =
        timespecToNs (m.st.task x).budgetTime - m.ran x := (if_pos hx).trans (left_of_awake hawake)
    have hd : m.st.now + d ≤ m.st.now + (timespecToNs (m.st.task x).budgetTime - m.ran x) :=
      (htimers x hx).1 _ ((h.reserve x hx).armed hr hawake)
    have hview := view_pass (h.home x hx) d
    have hothers : ∀ b ∈ reserved, b ≠ x →
        SameAccount (m.view cpu b) ((m.after (.pass d)).view cpu b) := by
      refine fun b hb hbx => hoff b hb fun hcurr' => hbx ?_
      exact Option.some.inj (hcurr'.symm.trans hcurr)
    have hledger : (m.after (.pass d)).ledger cpu reserved = { m.ledger cpu reserved with
        now := m.st.now + d
        left := Function.update (m.ledger cpu reserved).left x
          ((m.ledger cpu reserved).left x - d) } := by
      refine FixedPriority.Ledger.ext rfl rfl (Function.eq_update_iff.2 ⟨?_, fun b hbx => ?_⟩) ?_
      · have hawake' : ((m.view cpu x).after (.pass d)).task.state = .running := hawake
        refine (if_pos hx).trans ?_
        rw [hview, hleft, left_of_awake hawake']
        simp only [CpuState.after, hr, if_true]
        show timespecToNs (m.st.task x).budgetTime - (m.ran x + d) = _
        ring
      · exact ite_congr rfl (fun hb => (hothers b hb hbx).left) fun _ => rfl
      · rfl
    rw [hledger]
    refine Step.work x d hx (by omega) fun a ha hawake' => ?_
    obtain ⟨y, hy, hcurr', hle⟩ := hbest a ha (hqueued a ha hawake'.2)
    obtain rfl : y = x := Option.some.inj (hcurr'.symm.trans hcurr)
    rwa [h.prio_eq y hy, h.prio_eq a ha] at hle
  · have hsame : ∀ a ∈ reserved, SameAccount (m.view cpu a) ((m.after (.pass d)).view cpu a) :=
      fun a ha => hoff a ha fun hcurr => hbusy ⟨a, ha, hcurr⟩
    have hledger : (m.after (.pass d)).ledger cpu reserved =
        { m.ledger cpu reserved with now := m.st.now + d } := by
      refine FixedPriority.Ledger.ext rfl rfl ?_ rfl
      funext b
      exact ite_congr rfl (fun hb => (hsame b hb).left) fun _ => rfl
    rw [hledger]
    refine Step.idle d fun a ha hawake => ?_
    obtain ⟨y, hy, hcurr, -⟩ := hbest a ha (hqueued a ha hawake.2)
    exact hbusy ⟨y, hy, hcurr⟩

/-- **A step of the machine is a step of the budgets**, or they do not show it. -/
theorem GuaranteeInv.ledger_step (h : GuaranteeInv cpu reserved cost period prio slack m)
    (hfit : ∀ a ∈ reserved, HasSlack cost period prio reserved a (slack a)) (hcan : m.Can e)
    (hserved : m.Served cpu reserved e) :
    (m.after e).ledger cpu reserved = m.ledger cpu reserved ∨
      Step cost period prio reserved (m.ledger cpu reserved) ((m.after e).ledger cpu reserved) := by
  by_cases hpass : ∃ d, e = .pass d
  · obtain ⟨d, rfl⟩ := hpass
    exact Or.inr (h.ledger_pass hserved)
  · have hpass' : ∀ d, e ≠ .pass d := fun d hd => hpass ⟨d, hd⟩
    have hnow := after_now m hpass'
    have hother : ∀ a ∈ reserved, e.target ≠ some a →
        SameAccount (m.view cpu a) ((m.after e).view cpu a) :=
      fun a ha hne => h.account_other ha (hfit a ha) hcan hserved hpass' hne
    by_cases htarget : ∃ x ∈ reserved, e.target = some x
    · obtain ⟨x, hx, htarget⟩ := htarget
      have hothers : ∀ b ∈ reserved, b ≠ x →
          SameAccount (m.view cpu b) ((m.after e).view cpu b) :=
        fun b hb hbx => hother b hb fun heq => hbx (Option.some.inj (heq.symm.trans htarget))
      rcases h.account_target hx (hfit x hx) hcan hserved htarget with
        hsame | hsleeps | ⟨hfills, hdue⟩
      · refine Or.inl (ledger_of_same hnow fun b hb => ?_)
        by_cases hbx : b = x
        · rw [hbx]
          exact hsame
        · exact hothers b hb hbx
      · exact Or.inr (step_of_sleeps hx hnow hothers hsleeps)
      · exact Or.inr (step_of_fills hx hnow hothers hfills (h.cost_eq x hx) hdue)
    · exact Or.inl (ledger_of_same hnow fun b hb => hother b hb fun heq => htarget ⟨b, hb, heq⟩)

/-- A reserved task is switched in on its CPU only. -/
theorem home_after (hhome : ∀ c, m.curr c = some a → c = cpu) (ha : a ∈ reserved) (hcan : m.Can e)
    (hserved : m.Served cpu reserved e) (c : Fin maxCpu) (hc : (m.after e).curr c = some a) :
    c = cpu := by
  cases e with
  | schedule c' preemptActive signalPending next =>
    obtain ⟨prev, hprev, -, -⟩ := hcan
    rw [after_schedule hprev, switchTo_curr _ _ _ _ (by rw [deactivate_same.1]; exact hprev),
      deactivate_same.1, Function.update_apply] at hc
    split_ifs at hc with hcc
    · obtain rfl := Option.some.inj hc
      rw [hcc]
      exact hserved.1 ha
    · exact hhome c hc
  | setState c' state =>
    cases hcurr : m.curr c' with
    | none =>
      simp only [Metered.after, Sched.after, hcurr] at hc
      exact hhome c hc
    | some t =>
      simp only [Metered.after, Sched.after, hcurr] at hc
      exact hhome c hc
  | pass d => exact hhome c hc
  | budgetExpiry t => exact hhome c hc
  | periodExpiry t => exact hhome c hc
  | wakeUp t => exact hhome c hc

theorem sameTerms_afterSome (s : CpuState) (o : Option CpuEvent) :
    SameTerms s.task (s.afterSome o).task := by
  cases o with
  | none => exact ⟨rfl, rfl, rfl⟩
  | some e => exact sameTerms_after s e

theorem GuaranteeInv.step (h : GuaranteeInv cpu reserved cost period prio slack m)
    (hfit : ∀ a ∈ reserved, HasSlack cost period prio reserved a (slack a)) (hcan : m.Can e)
    (hserved : m.Served cpu reserved e) :
    GuaranteeInv cpu reserved cost period prio slack (m.after e) := by
  have hterms : ∀ a ∈ reserved, SameTerms (m.st.task a) ((m.after e).st.task a) := by
    intro a ha
    have hsame := sameTerms_afterSome (m.view cpu a) (m.project a e)
    rwa [← (h.sees ha (hfit a ha) hcan hserved).1] at hsame
  refine ⟨fun a ha => (h.alone a ha).of_static (sameStatic_event m.toSched e),
    fun a ha => home_after (h.home a ha) ha hcan hserved, fun a ha => ?_, fun a ha => ?_,
    fun a ha => ?_, fun a ha => ?_, fun v => ?_, fun a ha hcurr hsleep => ?_⟩
  · rw [(hterms a ha).budgetTime]
    exact h.cost_eq a ha
  · rw [(hterms a ha).timePeriod]
    exact h.period_eq a ha
  · rw [(hterms a ha).prio]
    exact h.prio_eq a ha
  · obtain ⟨hview, hok⟩ := h.sees ha (hfit a ha) hcan hserved
    rw [hview]
    cases hp : m.project a e with
    | none => exact h.reserve a ha
    | some e' => exact (h.reserve a ha).step (hok e' hp).1 (hok e' hp).2
  · rcases h.ledger_step hfit hcan hserved with hsame | hstep
    · rw [hsame]
      exact h.windows v
    · refine windowed_step ⟨fun a ha => ?_, fun a ha => ?_⟩ (fun a ha hawake => ?_)
        (fun a ha => h.period_pos ha) (fun a ha => h.cost_nonneg ha) v hstep (h.windows v)
      · show 0 ≤ ite _ _ _
        rw [if_pos ha]
        exact (h.reserve a ha).left_nonneg
      · show ite _ _ _ ≤ m.st.now
        rw [if_pos ha]
        exact (h.reserve a ha).last_le
      · refine (if_pos ha).trans (left_of_asleep ?_)
        exact (h.reserve a ha).state.resolve_left fun hrun => hawake ⟨ha, hrun⟩
  · -- it was awake at this very instant, or was leaving already
    obtain ⟨hview, hok⟩ := h.sees ha (hfit a ha) hcan hserved
    have hr : ((m.after e).view cpu a).running = true := decide_eq_true hcurr
    have hsleep' : ((m.after e).view cpu a).task.state = .uninterruptible := hsleep
    show ((m.after e).view cpu a).now < ((m.after e).view cpu a).last + slack a
    rw [hview] at hr hsleep' ⊢
    cases hp : m.project a e with
    | none =>
      rw [hp] at hr hsleep'
      exact h.leaving a ha (of_decide_eq_true hr) hsleep'
    | some e' =>
      rw [hp] at hr hsleep'
      obtain ⟨hnow, hlast, hawake | ⟨hr', hsleep''⟩⟩ :=
        (h.reserve a ha).leaving_after (hok e' hp).1 (hok e' hp).2 hr hsleep'
      · show ((m.view cpu a).after e').now < ((m.view cpu a).after e').last + slack a
        rw [hnow, hlast]
        exact h.awake_early ha (hfit a ha) hawake
      · show ((m.view cpu a).after e').now < ((m.view cpu a).after e').last + slack a
        rw [hnow, hlast]
        exact h.leaving a ha (of_decide_eq_true hr') hsleep''

end Guarantee

/-- A reservation whose period has just begun. -/
structure PeriodBegun (now : ℤ) (p : TaskStruct) : Prop where
  budgetSet : p.isBudgetSet = true
  budget : p.budgetTime.Normalised ∧ 0 ≤ timespecToNs p.budgetTime
  period : 0 < timespecToNs p.timePeriod
  awake : p.state = .running
  compute : p.computeTime = ⟨0, 0⟩
  unarmed : p.budgetTimer = none
  timer : p.periodTimer = some (now + timespecToNs p.timePeriod)

/-- The critical instant: the periods of all reservations have just begun, and none has the CPU yet. -/
structure Critical (reserved : Finset Tid) (m : Metered) : Prop where
  alone : ∀ a ∈ reserved, SoleThread m.st a
  filled : ∀ a ∈ reserved, PeriodBegun m.st.now (m.st.task a)
  off : ∀ a ∈ reserved, ∀ cpu, m.curr cpu ≠ some a
  queued : ∀ a ∈ reserved, m.onRq a = true
  ran : ∀ a ∈ reserved, m.ran a = 0

/-- The terms of the reservations in a state. -/
def Metered.cost (m : Metered) (a : Tid) : ℤ := timespecToNs (m.st.task a).budgetTime

def Metered.period (m : Metered) (a : Tid) : ℤ := timespecToNs (m.st.task a).timePeriod

def Metered.prio (m : Metered) (a : Tid) : ℤ := (m.st.task a).prio

/-- The steps as calls; they all return. -/
def meteredExec (m : Metered) (e : SchedEvent) : Call Metered (Metered × Unit) := pure (m.after e, ())

/-- The states from `m₀` on, as long as the steps can happen and the CPU serves the reserved tasks. -/
def ServedRun (cpu : Fin maxCpu) (reserved : Finset Tid) (m₀ : Metered) : Metered → Prop :=
  Reach (fun m => m = m₀) (fun m e => m.Can e ∧ m.Served cpu reserved e) meteredExec

section Run

variable {cpu : Fin maxCpu} {reserved : Finset Tid} {m₀ m : Metered} {a : Tid}

theorem reserveInv_critical (h : Critical reserved m₀) (cpu : Fin maxCpu) (ha : a ∈ reserved) :
    ReserveInv (m₀.view cpu a) := by
  have hfilled := h.filled a ha
  have hoff : (m₀.view cpu a).running = false := decide_eq_false (h.off a ha cpu)
  have hne : (m₀.view cpu a).running ≠ true := Bool.eq_false_iff.1 hoff
  have hran : (m₀.view cpu a).executed = 0 := h.ran a ha
  have hcompute : (m₀.view cpu a).task.computeTime = ⟨0, 0⟩ := hfilled.compute
  have hperiod := hfilled.period
  have hawake : (m₀.view cpu a).task.state ≠ .uninterruptible := by
    show (m₀.st.task a).state ≠ _
    rw [hfilled.awake]
    exact RunState.noConfusion
  refine ⟨hfilled.budgetSet, hfilled.budget.1, ?_, hperiod, Or.inl hfilled.awake,
    iff_of_true (h.queued a ha) (Or.inl hfilled.awake), ⟨_, hfilled.timer, ?_, le_rfl⟩, hran.ge, ?_,
    fun _ => ⟨hfilled.unarmed, ?_⟩, fun hr => absurd hr hne, fun hr => absurd hr hne,
    fun hr => absurd hr hne, fun hsleep => absurd hsleep hawake⟩
  · rw [hcompute]
    exact ⟨by decide, by decide⟩
  · show m₀.st.now ≤ _
    omega
  · rw [hran]
    exact hfilled.budget.2
  · rw [hcompute, hran]
    rfl

theorem guaranteeInv_critical (h : Critical reserved m₀) (cpu : Fin maxCpu) (slack : Tid → ℤ) :
    GuaranteeInv cpu reserved m₀.cost m₀.period m₀.prio slack m₀ := by
  refine ⟨h.alone, fun a ha c hc => absurd hc (h.off a ha c), fun _ _ => rfl, fun _ _ => rfl,
    fun _ _ => rfl, fun a ha => reserveInv_critical h cpu ha, fun v => ?_,
    fun a ha hcurr => absurd hcurr (h.off a ha cpu)⟩
  have hmem : ∀ a ∈ reserved.filter fun b => m₀.prio b ≤ v, a ∈ reserved :=
    fun a ha => (Finset.mem_filter.1 ha).1
  refine windowed_critical (fun a ha => ?_) fun a ha => ?_
  · refine ((if_pos (hmem a ha)).trans (left_of_awake (h.filled a (hmem a ha)).awake)).trans_le ?_
    show m₀.cost a - m₀.ran a ≤ m₀.cost a
    rw [h.ran a (hmem a ha), sub_zero]
  · refine le_of_le_of_eq ?_ (if_pos (hmem a ha)).symm
    have htimer : (m₀.view cpu a).task.periodTimer = _ := (h.filled a (hmem a ha)).timer
    rw [CpuState.last, htimer, Option.getD_some]
    show m₀.st.now ≤ m₀.st.now + m₀.period a - m₀.period a
    omega

theorem GuaranteeInv.run {slack : Tid → ℤ} (h : Critical reserved m₀)
    (hfit : ∀ a ∈ reserved, HasSlack m₀.cost m₀.period m₀.prio reserved a (slack a))
    (hrun : ServedRun cpu reserved m₀ m) :
    GuaranteeInv cpu reserved m₀.cost m₀.period m₀.prio slack m := by
  refine Reach.inv (E := fun _ => True) ?_ ?_ hrun
  · rintro m rfl
    exact guaranteeInv_critical h cpu slack
  · intro m e hm hok
    exact hm.step hfit hok.1 hok.2

/-- A task has had at most its budget, and at the end of its period all of it. -/
theorem GuaranteeInv.had_budget {cost period prio slack : Tid → ℤ}
    (h : GuaranteeInv cpu reserved cost period prio slack m) (ha : a ∈ reserved)
    (hfit : HasSlack cost period prio reserved a (slack a)) :
    m.ran a ≤ cost a ∧ (m.Can (.periodExpiry a) → cost a - 10000 ≤ m.ran a) := by
  have hreserve := h.reserve a ha
  have hcost : timespecToNs (m.view cpu a).task.budgetTime = cost a := h.cost_eq a ha
  refine ⟨?_, fun hdue => ?_⟩
  · rw [← hcost]
    exact hreserve.le
  · rw [← hcost]
    exact hreserve.asleep (h.asleep_of_due ha hfit hdue).2

end Run

instance (m : Sched) (e : SchedEvent) : Decidable (m.Can e) := by
  cases e with
  | schedule cpu preemptActive signalPending next =>
    exact inferInstanceAs (Decidable (∃ prev ∈ m.curr cpu,
      (m.deactivate prev preemptActive signalPending).onRq next = true ∧
        ∀ c, c ≠ cpu → m.curr c ≠ some next))
  | _ => unfold Sched.Can; infer_instance

instance (cpu : Fin maxCpu) (reserved : Finset Tid) (m : Metered) (e : SchedEvent) :
    Decidable (m.Served cpu reserved e) := by
  cases e <;> unfold Metered.Served <;> infer_instance

/-- Two reservations, of 20 µs in 100 µs and of 30 µs in 200 µs, on a CPU that idles (thread 0). -/
def duo : Metered where
  st := { bootState [0, 1, 2] .noPm with
    task := fun t => { newTask t with
      isBudgetSet := decide (t ≠ 0)
      budgetTime := if t = 1 then ⟨0, 20000⟩ else ⟨0, 30000⟩
      timePeriod := if t = 1 then ⟨0, 100000⟩ else ⟨0, 200000⟩
      periodTimer := if t = 1 then some 100000 else if t = 2 then some 200000 else none
      prio := if t = 1 then 97 else if t = 2 then 98 else 120 } }
  curr := fun cpu => if cpu = 0 then some 0 else none
  onRq := fun t => decide (t ≤ 2)
  ran := fun _ => 0

/-- Both run until their budgets are used up, and the CPU idles until the first period is over. -/
def duoRun : List SchedEvent :=
  [.schedule 0 false false 1, .pass 20000, .budgetExpiry 1, .schedule 0 false false 2, .pass 30000,
    .budgetExpiry 2, .schedule 0 false false 0, .pass 50000]

theorem duo_cases {P : Tid → Prop} (h1 : P 1) (h2 : P 2) : ∀ a ∈ ({1, 2} : Finset Tid), P a := by
  intro a ha
  rcases Finset.mem_insert.1 ha with rfl | ha
  · exact h1
  · rw [Finset.mem_singleton.1 ha]
    exact h2

theorem duo_critical : Critical {1, 2} duo := by
  refine ⟨duo_cases ⟨rfl, fun u hu => hu⟩ ⟨rfl, fun u hu => hu⟩, duo_cases ?_ ?_,
    duo_cases (by decide) (by decide), duo_cases rfl rfl, fun _ _ => rfl⟩
  · exact ⟨rfl, ⟨⟨by decide, by decide⟩, by decide⟩, by decide, rfl, rfl, rfl, by decide⟩
  · exact ⟨rfl, ⟨⟨by decide, by decide⟩, by decide⟩, by decide, rfl, rfl, rfl, by decide⟩

/-- After 60 µs both have run once, with 10 µs to spare. -/
theorem duo_demand {tasks : Finset Tid} (h : tasks ⊆ {1, 2}) :
    demand duo.cost duo.period tasks.val 60000 < 60000 := by
  have hboth : demand duo.cost duo.period ({1, 2} : Finset Tid).val 60000 = 50000 := by
    show demand duo.cost duo.period (1 ::ₘ 2 ::ₘ 0) 60000 = 50000
    rw [demand_cons, demand_cons, demand_zero, ceil_eq_one (by decide) (by decide),
      ceil_eq_one (by decide) (by decide)]
    decide
  have hmono : demand duo.cost duo.period tasks.val 60000 ≤
      demand duo.cost duo.period ({1, 2} : Finset Tid).val 60000 :=
    demand_mono (Finset.val_le_iff.2 h) (duo_cases (by decide) (by decide))
      (duo_cases (by decide) (by decide)) (by decide)
  omega

theorem duo_period : ∀ a ∈ ({1, 2} : Finset Tid), 60000 ≤ duo.period a :=
  duo_cases (by decide) (by decide)

end RtSched
