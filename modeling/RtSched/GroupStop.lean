import RtSched.Base.Run
import RtSched.Switch

/-!
# Stopping a group of threads

When the budget of a process is used up, `budget_timer_callback` and two branches of the hook in
`__schedule` go over the threads of the process to put them to sleep.  The loops walk with one
variable and write through another, so every turn writes the same thread: the leader in the callback,
the thread that is switched in in the hook.

* `whileEachThread`, `budgetTimerLoop`, `switchInLoop`: the loops as they are written; they are
  `budgetTimerCallback` and `switchIn` (`budgetTimerLoop_eq`, `switchInLoop_eq`);
* `Sched`: the CPUs with the runqueues, and what can happen between an expiry and the next period;
* `Stopped`: all threads sleep, and none is queued unless it still has its CPU; quiet steps keep this
  (`Stopped.step`) and pick none of the threads (`Stopped.not_picked`);
* `groupStop_iff`: when a whole group is stopped.
-/

namespace RtSched

open Call

variable {s : KState} {leader curr next prev t u : Tid}

/-! ### The loops -/

/-- `do … while_each_thread(g, t)`, with the body run for every thread `t`. -/
def whileEachThread (g : Tid) (body : Tid → KState → KState) (s : KState) : KState :=
  (s.threads g).foldl (fun s t => body t s) s

/-- The body of the loop of `budget_timer_callback`. -/
def sleepIfAwake (curr : Tid) (s : KState) : KState :=
  if (s.task curr).state ≠ .uninterruptible then s.modifyTask curr putToSleep else s

/-- `budget_timer_callback` for the timer of `curr`, which is not restarted: `temp` walks, `curr` is
written. -/
def budgetTimerLoop (curr : Tid) (s : KState) : KState :=
  whileEachThread curr (fun _temp => sleepIfAwake curr)
    (s.modifyTask curr fun p => { p with budgetTimer := none })

/-- The loop in the hook: `iterator` walks, `next` is written. -/
def sleepLoop (leader next : Tid) (s : KState) : KState :=
  whileEachThread leader (fun _iterator s => s.modifyTask next putToSleep) s

/-- What is left of the budget is too short for a timer. -/
def ForceSleep (leader : TaskStruct) : Prop :=
  timespecCompare leader.budgetTime leader.computeTime > 0 ∧
    (timespecSub leader.budgetTime leader.computeTime).tvSec = 0 ∧
      (timespecSub leader.budgetTime leader.computeTime).tvNsec ≤ 10000

/-- Nothing is left of the budget, and the thread is awake. -/
def BudgetExceeded (leader next : TaskStruct) : Prop :=
  ¬ timespecCompare leader.budgetTime leader.computeTime > 0 ∧ next.state ≠ .uninterruptible

instance (leader : TaskStruct) : Decidable (ForceSleep leader) := instDecidableAnd

instance (leader next : TaskStruct) : Decidable (BudgetExceeded leader next) := instDecidableAnd

/-- The part of the hook that arms the leader's timer or puts threads to sleep, with its loops. -/
def armLeaderLoop (leader next : Tid) (s : KState) : KState :=
  if ForceSleep (s.task leader) then sleepLoop leader next s
  else if timespecCompare (s.task leader).budgetTime (s.task leader).computeTime > 0 then
    s.modifyTask leader fun p => { p with
      budgetTimer := some (s.now + timespecToNs (timespecSub p.budgetTime p.computeTime)) }
  else if BudgetExceeded (s.task leader) (s.task next) then sleepLoop leader next s
  else s

/-- The hook in `__schedule` for the thread that gets a CPU, with its loops. -/
def switchInLoop (next : Tid) (s : KState) : KState :=
  if (s.task next).isBudgetSet then
    armLeaderLoop (s.task next).tgid next (startSlice (s.task next).tgid s)
  else s

section Loops

/-- A loop whose turns all do the same, once and for all. -/
theorem whileEachThread_const (g : Tid) {f : KState → KState} (hf : ∀ s, f (f s) = f s) (s : KState) :
    whileEachThread g (fun _ => f) s = f s := by
  have hfold : ∀ (l : List Tid) (s : KState), f s = s → l.foldl (fun s _ => f s) s = s := by
    intro l
    induction l with
    | nil => exact fun _ _ => rfl
    | cons t l ih =>
      intro s hs
      rw [List.foldl_cons, hs]
      exact ih s hs
  rw [whileEachThread, KState.threads, List.foldl_cons]
  exact hfold _ _ (hf s)

theorem modifyTask_putToSleep_idem (t : Tid) (s : KState) :
    (s.modifyTask t putToSleep).modifyTask t putToSleep = s.modifyTask t putToSleep := by
  rw [modifyTask_twice]
  rfl

theorem sleepIfAwake_idem (t : Tid) (s : KState) :
    sleepIfAwake t (sleepIfAwake t s) = sleepIfAwake t s := by
  by_cases h : (s.task t).state = .uninterruptible
  · have hs : sleepIfAwake t s = s := if_neg (not_not.2 h)
    rw [hs, hs]
  · have hs : sleepIfAwake t s = s.modifyTask t putToSleep := if_pos h
    have hsleep : ((s.modifyTask t putToSleep).task t).state = .uninterruptible := by
      rw [KState.modifyTask_task, if_pos rfl]
      rfl
    rw [hs]
    exact if_neg (not_not.2 hsleep)

/-- However many threads there are, the callback writes the owner of the timer. -/
theorem budgetTimerLoop_eq (curr : Tid) (s : KState) :
    budgetTimerLoop curr s = s.modifyTask curr budgetTimerCallback := by
  rw [budgetTimerLoop, whileEachThread_const curr (sleepIfAwake_idem curr), sleepIfAwake]
  simp only [KState.modifyTask_task, if_true]
  split_ifs with h
  · rw [modifyTask_twice]
    apply modifyTask_congr
    simp only [Function.comp_apply, putToSleep, budgetTimerCallback]
    rw [if_pos h]
  · apply modifyTask_congr
    rw [budgetTimerCallback, if_neg h]

theorem sleepLoop_eq (leader next : Tid) (s : KState) :
    sleepLoop leader next s = s.modifyTask next putToSleep :=
  whileEachThread_const leader (modifyTask_putToSleep_idem next) s

theorem armLeaderLoop_eq (leader next : Tid) (s : KState) :
    armLeaderLoop leader next s = armLeader leader next s := by
  simp only [armLeaderLoop, armLeader, sleepLoop_eq]
  by_cases hpos : timespecCompare (s.task leader).budgetTime (s.task leader).computeTime > 0
  · rw [if_pos hpos, if_pos hpos]
    by_cases hshort : (timespecSub (s.task leader).budgetTime (s.task leader).computeTime).tvSec = 0 ∧
        (timespecSub (s.task leader).budgetTime (s.task leader).computeTime).tvNsec ≤ 10000
    · rw [if_pos ⟨hpos, hshort⟩, if_pos hshort]
    · rw [if_neg fun h => hshort h.2, if_neg hshort]
      exact modifyTask_congr rfl
  · rw [if_neg fun h => hpos h.1, if_neg hpos, if_neg hpos]
    by_cases hawake : (s.task next).state ≠ .uninterruptible
    · rw [if_pos ⟨hpos, hawake⟩, if_pos hawake]
    · rw [if_neg fun h => hawake h.2, if_neg hawake]

/-- However many threads there are, the hook writes the thread that is switched in. -/
theorem switchInLoop_eq (next : Tid) (s : KState) : switchInLoop next s = switchIn next s := by
  rw [switchInLoop, switchIn, armLeaderLoop_eq]
  rfl

end Loops

/-! ### What the loops leave -/

/-- All threads of the group are in `TASK_UNINTERRUPTIBLE`. -/
def GroupAsleep (leader : Tid) (s : KState) : Prop :=
  ∀ u ∈ s.threads leader, (s.task u).state = .uninterruptible

/-- All but `t` are. -/
def OthersAsleep (t leader : Tid) (s : KState) : Prop :=
  ∀ u ∈ s.threads leader, u ≠ t → (s.task u).state = .uninterruptible

instance (leader : Tid) (s : KState) : Decidable (GroupAsleep leader s) :=
  inferInstanceAs (Decidable (∀ u ∈ s.threads leader, (s.task u).state = .uninterruptible))

instance (t leader : Tid) (s : KState) : Decidable (OthersAsleep t leader s) :=
  inferInstanceAs (Decidable (∀ u ∈ s.threads leader, u ≠ t → (s.task u).state = .uninterruptible))

section Asleep

/-- If one thread is put to sleep, the group sleeps if the others did. -/
theorem groupAsleep_modifyTask {f : TaskStruct → TaskStruct} (htgid : ∀ p, (f p).tgid = p.tgid)
    (hstate : ∀ p, (f p).state = .uninterruptible) :
    GroupAsleep leader (s.modifyTask t f) ↔ OthersAsleep t leader s := by
  unfold GroupAsleep OthersAsleep
  rw [(sameGroups_modifyTask s t htgid).threads leader]
  refine forall₂_congr fun u _ => ?_
  rw [KState.modifyTask_task]
  split_ifs with hut
  · exact iff_of_true (hstate _) fun hne => absurd hut hne
  · exact ⟨fun h _ => h, fun h => h hut⟩

theorem groupAsleep_callback (leader : Tid) (s : KState) :
    GroupAsleep leader (budgetTimerLoop leader s) ↔ OthersAsleep leader leader s := by
  rw [budgetTimerLoop_eq]
  refine groupAsleep_modifyTask (fun p => ?_) fun p => ?_
  · rw [budgetTimerCallback]
    split_ifs <;> rfl
  · rw [budgetTimerCallback]
    split_ifs with h
    · rfl
    · exact not_not.1 h

theorem groupAsleep_hook (hset : (s.task next).isBudgetSet = true)
    (hleader : (s.task next).tgid = leader)
    (hstop : ForceSleep (s.task leader) ∨ BudgetExceeded (s.task leader) (s.task next)) :
    GroupAsleep leader (switchInLoop next s) ↔ OthersAsleep next leader s := by
  have hloop : switchInLoop next s = (startSlice leader s).modifyTask next putToSleep := by
    have htask : ∀ u, ((startSlice leader s).task u).budgetTime = (s.task u).budgetTime ∧
        ((startSlice leader s).task u).computeTime = (s.task u).computeTime ∧
        ((startSlice leader s).task u).state = (s.task u).state := by
      intro u
      rw [startSlice_task]
      exact ⟨rfl, rfl, rfl⟩
    rw [switchInLoop, if_pos hset, hleader, armLeaderLoop]
    simp only [ForceSleep, BudgetExceeded, htask] at hstop ⊢
    rcases hstop with hforce | hexceeded
    · rw [if_pos hforce, sleepLoop_eq]
    · rw [if_neg fun h => hexceeded.1 h.1, if_neg hexceeded.1, if_pos hexceeded, sleepLoop_eq]
  rw [hloop]
  refine (groupAsleep_modifyTask (f := putToSleep) (fun _ => rfl) fun _ => rfl).trans ?_
  unfold OthersAsleep
  rw [(sameGroups_startSlice leader s).threads leader]
  simp only [startSlice_task]

end Asleep

/-! ### Runqueues -/

/-- The CPUs, and which threads are on a runqueue. -/
structure Sched extends Smp where
  onRq : Tid → Bool

/-- What can happen. -/
inductive SchedEvent
  /-- time passes -/
  | pass (d : ℕ)
  /-- `__schedule` on a CPU picks `next`, which may be the thread that called it -/
  | schedule (cpu : Fin maxCpu) (preemptActive signalPending : Bool) (next : Tid)
  /-- the timer of `t` expires -/
  | budgetExpiry (t : Tid)
  | periodExpiry (t : Tid)
  /-- the thread on a CPU writes its own state -/
  | setState (cpu : Fin maxCpu) (state : RunState)
  /-- `wake_up_process` from anywhere else -/
  | wakeUp (t : Tid)

namespace Sched

variable (m : Sched)

/-- The first part of `__schedule`: a thread that is not `TASK_RUNNING` leaves the runqueue, unless it
is preempted in the kernel or has a signal, which `TASK_UNINTERRUPTIBLE` ignores. -/
def deactivate (prev : Tid) (preemptActive signalPending : Bool) : Sched :=
  if (m.st.task prev).state ≠ .running ∧ preemptActive = false then
    if signalPending = true ∧ (m.st.task prev).state ≠ .uninterruptible then
      { m with st := m.st.modifyTask prev fun p => { p with state := .running } }
    else { m with onRq := Function.update m.onRq prev false }
  else m

/-- The rest of `__schedule`. -/
def switchTo (cpu : Fin maxCpu) (prev next : Tid) : Sched :=
  let st := m.st.modifyTask prev fun p => { p with needResched := false }
  if next = prev then { m with st := st }
  else { m with
    st := switchInLoop next (switchOut prev st)
    curr := Function.update m.curr cpu (some next) }

/-- The threads that `wake_up_process` puts on a runqueue. -/
def enqueue (woken : List Tid) : Tid → Bool :=
  fun u => if u ∈ woken ∧ (m.st.task u).state ≠ .dead then true else m.onRq u

/-- The state after an event. -/
def after : SchedEvent → Sched
  | .pass d => { m with st := { m.st with now := m.st.now + d } }
  | .schedule cpu preemptActive signalPending next =>
      match m.curr cpu with
      | some prev => (m.deactivate prev preemptActive signalPending).switchTo cpu prev next
      | none => m
  | .budgetExpiry t => { m with st := budgetTimerLoop t m.st }
  | .periodExpiry t => { m with st := periodCallback t m.st, onRq := m.enqueue (m.st.threads t) }
  | .setState cpu state =>
      match m.curr cpu with
      | some t => { m with st := m.st.modifyTask t fun p => { p with state := state } }
      | none => m
  | .wakeUp t => { m with st := m.st.modifyTask t wakeUpProcess, onRq := m.enqueue [t] }

/-- `__schedule` picks a thread from the runqueues that no other CPU runs; a timer expires when it is
due, or later. -/
def Can : SchedEvent → Prop
  | .schedule cpu preemptActive signalPending next => ∃ prev, m.curr cpu = some prev ∧
      (m.deactivate prev preemptActive signalPending).onRq next = true ∧
      ∀ c, c ≠ cpu → m.curr c ≠ some next
  | .budgetExpiry t => ∃ x ∈ (m.st.task t).budgetTimer, x ≤ m.st.now
  | .periodExpiry t => ∃ x ∈ (m.st.task t).periodTimer, x ≤ m.st.now
  | _ => True

/-- `t` is a thread of another process. -/
def Foreign (leader t : Tid) : Prop := (m.st.task t).tgid ≠ (m.st.task leader).tgid

/-- A step between two periods in which nobody interferes with the group: no thread of it is preempted
in the kernel, writes its own state or is woken up. -/
def Quiet (leader : Tid) : SchedEvent → Prop
  | .schedule cpu preemptActive _ _ =>
      preemptActive = true → ∀ prev, m.curr cpu = some prev → m.Foreign leader prev
  | .periodExpiry t => m.Foreign leader t
  | .setState cpu _ => ∀ t, m.curr cpu = some t → m.Foreign leader t
  | .wakeUp t => m.Foreign leader t
  | _ => True

end Sched

/-- No thread of the group waits for a CPU. -/
def NoneWaiting (leader : Tid) (m : Sched) : Prop :=
  ∀ u ∈ m.st.threads leader, m.onRq u = true → ∃ cpu, m.curr cpu = some u

/-- The group is stopped. -/
structure Stopped (leader : Tid) (m : Sched) : Prop where
  asleep : GroupAsleep leader m.st
  waiting : NoneWaiting leader m

/-- The steps as calls; they all return. -/
def schedExec (m : Sched) (a : SchedEvent) : Call Sched (Sched × Unit) := pure (m.after a, ())

/-- The states from `m` on, as long as the steps can happen and are quiet for the group. -/
def QuietRun (leader : Tid) (m : Sched) : Sched → Prop :=
  Reach (fun m' => m' = m) (fun m' a => m'.Can a ∧ m'.Quiet leader a) schedExec

section Run

variable {m m' : Sched} {cpu : Fin maxCpu} {preemptActive signalPending : Bool} {a : SchedEvent}

theorem Sched.Foreign.not_mem (h : m.Foreign leader t) (hu : u ∈ m.st.threads leader) :
    u ∉ m.st.threads t :=
  fun hut => h ((m.st.tgid_of_mem_threads hut).symm.trans (m.st.tgid_of_mem_threads hu))

theorem Sched.Foreign.ne (h : m.Foreign leader t) (hu : u ∈ m.st.threads leader) : u ≠ t := by
  rintro rfl
  exact h (m.st.tgid_of_mem_threads hu)

/-- The callback of another process leaves the thread alone. -/
theorem periodCallback_task_of_not_mem (hu : u ∉ s.threads t) :
    (periodCallback t s).task u = s.task u := by
  have hne : u ≠ t := by
    rintro rfl
    exact hu (s.self_mem_threads u)
  rw [periodCallback, KState.eachThread_task, if_neg, KState.modifyTask_task, if_neg hne]
  rwa [SameGroups.threads (sameGroups_modifyTask s t ?_) t]
  exact fun _ => rfl

theorem sameGroups_setState (s : KState) (t : Tid) (state : RunState) :
    SameGroups s (s.modifyTask t fun p => { p with state := state }) :=
  sameGroups_modifyTask s t fun _ => rfl

/-- What a step has to leave alone. -/
theorem Stopped.of_same (hgroups : SameGroups m.st m'.st)
    (hasleep : ∀ u ∈ m.st.threads leader, (m'.st.task u).state = .uninterruptible)
    (hwaiting : ∀ u ∈ m.st.threads leader, m'.onRq u = true → ∃ cpu, m'.curr cpu = some u) :
    Stopped leader m' := by
  rw [← hgroups.threads leader] at hasleep hwaiting
  exact ⟨hasleep, hwaiting⟩

theorem dequeued_iff {onRq : Tid → Bool} :
    Function.update onRq prev false u = true ↔ u ≠ prev ∧ onRq u = true := by
  by_cases h : u = prev
  · rw [h, Function.update_self]
    exact iff_of_false Bool.false_ne_true fun h => h.1 rfl
  · rw [Function.update_of_ne h]
    exact ⟨fun hrq => ⟨h, hrq⟩, fun hrq => hrq.2⟩

/-- `__schedule` takes a sleeping thread off its runqueue. -/
theorem Stopped.deactivate (h : Stopped leader m) (signalPending : Bool)
    (hpreempt : preemptActive = true → m.Foreign leader prev) :
    SameGroups m.st (m.deactivate prev preemptActive signalPending).st ∧
      (m.deactivate prev preemptActive signalPending).curr = m.curr ∧
      ∀ u ∈ m.st.threads leader,
        ((m.deactivate prev preemptActive signalPending).st.task u).state = .uninterruptible ∧
          ((m.deactivate prev preemptActive signalPending).onRq u = true →
            u ≠ prev ∧ m.onRq u = true) := by
  by_cases hprev : prev ∈ m.st.threads leader
  · have hsleep := h.asleep prev hprev
    have hactive : preemptActive = false :=
      Bool.eq_false_of_not_eq_true fun hp => (hpreempt hp).ne hprev rfl
    have hoff : m.deactivate prev preemptActive signalPending =
        { m with onRq := Function.update m.onRq prev false } := by
      rw [Sched.deactivate, if_pos ⟨by rw [hsleep]; decide, hactive⟩, if_neg fun hs => hs.2 hsleep]
    rw [hoff]
    exact ⟨SameGroups.refl _, rfl, fun u hu => ⟨h.asleep u hu, dequeued_iff.1⟩⟩
  · have hne : ∀ u ∈ m.st.threads leader, u ≠ prev := by
      rintro u hu rfl
      exact hprev hu
    rw [Sched.deactivate]
    split_ifs
    · refine ⟨sameGroups_setState _ _ _, rfl, fun u hu => ⟨?_, fun hrq => ⟨hne u hu, hrq⟩⟩⟩
      rw [KState.modifyTask_task, if_neg (hne u hu)]
      exact h.asleep u hu
    · exact ⟨SameGroups.refl _, rfl, fun u hu => ⟨h.asleep u hu, dequeued_iff.1⟩⟩
    · exact ⟨SameGroups.refl _, rfl, fun u hu => ⟨h.asleep u hu, fun hrq => ⟨hne u hu, hrq⟩⟩⟩

/-- Only the thread that gets the CPU may change its state. -/
theorem Sched.switchTo_task (m : Sched) (cpu : Fin maxCpu) (prev next : Tid) :
    SameGroups m.st (m.switchTo cpu prev next).st ∧
      ∀ u, u ≠ next → ((m.switchTo cpu prev next).st.task u).state = (m.st.task u).state := by
  have hclear : SameGroups m.st (m.st.modifyTask prev fun p => { p with needResched := false }) :=
    sameGroups_modifyTask _ _ fun _ => rfl
  have hstate : ∀ u, ((m.st.modifyTask prev fun p => { p with needResched := false }).task u).state =
      (m.st.task u).state := by
    intro u
    rw [KState.modifyTask_task]
    split_ifs <;> rfl
  rw [Sched.switchTo]
  split_ifs
  · exact ⟨hclear, fun u _ => hstate u⟩
  · simp only [switchInLoop_eq]
    refine ⟨hclear.trans ((sameGroups_switchOut _ _).trans (sameGroups_switchIn _ _)), fun u hu => ?_⟩
    rcases switchIn_state next u (switchOut prev _) with hsame | ⟨-, rfl, -⟩
    · rw [hsame, switchOut_task]
      split_ifs
      · exact hstate u
      · exact hstate u
    · exact absurd rfl hu

theorem Sched.switchTo_onRq (m : Sched) (cpu : Fin maxCpu) (prev next : Tid) :
    (m.switchTo cpu prev next).onRq = m.onRq := by
  rw [Sched.switchTo]
  split_ifs <;> rfl

theorem Sched.switchTo_curr_of_ne (m : Sched) (prev next : Tid) {c : Fin maxCpu} (hc : c ≠ cpu) :
    (m.switchTo cpu prev next).curr c = m.curr c := by
  rw [Sched.switchTo]
  split_ifs
  · rfl
  · exact Function.update_of_ne hc _ _

/-- No thread of a stopped group is picked. -/
theorem Stopped.not_picked (h : Stopped leader m)
    (hcan : m.Can (.schedule cpu preemptActive signalPending next))
    (hquiet : m.Quiet leader (.schedule cpu preemptActive signalPending next)) :
    next ∉ m.st.threads leader := by
  obtain ⟨prev, hcurr, hrq, helse⟩ := hcan
  intro hnext
  obtain ⟨-, -, hgroup⟩ := h.deactivate signalPending fun hp => hquiet hp prev hcurr
  obtain ⟨hne, hrq'⟩ := (hgroup next hnext).2 hrq
  -- it is queued, so it has a CPU, and not this one
  obtain ⟨c, hc⟩ := h.waiting next hnext hrq'
  refine helse c (fun hcc => hne ?_) hc
  rw [hcc, hcurr] at hc
  exact (Option.some.inj hc).symm

/-- `__schedule` picks somebody else, and the threads of the group keep what they have. -/
theorem Stopped.schedule (h : Stopped leader m)
    (hcan : m.Can (.schedule cpu preemptActive signalPending next))
    (hquiet : m.Quiet leader (.schedule cpu preemptActive signalPending next)) :
    Stopped leader (m.after (.schedule cpu preemptActive signalPending next)) := by
  have hnext := h.not_picked hcan hquiet
  obtain ⟨prev, hcurr, -, -⟩ := hcan
  obtain ⟨hgroups, hsame, hgroup⟩ := h.deactivate signalPending fun hp => hquiet hp prev hcurr
  have hafter : m.after (.schedule cpu preemptActive signalPending next) =
      (m.deactivate prev preemptActive signalPending).switchTo cpu prev next := by
    simp only [Sched.after, hcurr]
  rw [hafter]
  obtain ⟨hgroups', hstate⟩ :=
    (m.deactivate prev preemptActive signalPending).switchTo_task cpu prev next
  refine Stopped.of_same (hgroups.trans hgroups') (fun u hu => ?_) fun u hu hrq => ?_
  · rw [hstate u fun heq => hnext (heq ▸ hu)]
    exact (hgroup u hu).1
  · rw [Sched.switchTo_onRq] at hrq
    obtain ⟨hne, hqueued⟩ := (hgroup u hu).2 hrq
    -- the thread is on another CPU than the one that switches
    obtain ⟨c, hc⟩ := h.waiting u hu hqueued
    have hother : c ≠ cpu := by
      rintro rfl
      exact hne (Option.some.inj (hc.symm.trans hcurr))
    refine ⟨c, ?_⟩
    rw [Sched.switchTo_curr_of_ne _ _ _ hother, hsame, hc]

/-- Quiet steps keep a group stopped. -/
theorem Stopped.step (h : Stopped leader m) (hcan : m.Can a) (hquiet : m.Quiet leader a) :
    Stopped leader (m.after a) := by
  cases a with
  | pass d => exact Stopped.of_same ⟨rfl, fun _ => rfl⟩ h.asleep h.waiting
  | schedule cpu preemptActive signalPending next => exact h.schedule hcan hquiet
  | budgetExpiry t =>
    refine Stopped.of_same ?_ (fun u hu => ?_) h.waiting
    · simp only [Sched.after, budgetTimerLoop_eq]
      exact sameGroups_modifyTask _ _ fun p => by rw [budgetTimerCallback]; split_ifs <;> rfl
    · simp only [Sched.after, budgetTimerLoop_eq, KState.modifyTask_task, budgetTimerCallback]
      split_ifs
      · rfl
      · exact h.asleep u hu
      · exact h.asleep u hu
  | periodExpiry t =>
    refine Stopped.of_same (sameGroups_periodCallback t m.st) (fun u hu => ?_) fun u hu hrq => ?_
    · simp only [Sched.after]
      rw [periodCallback_task_of_not_mem (Sched.Foreign.not_mem hquiet hu)]
      exact h.asleep u hu
    · simp only [Sched.after, Sched.enqueue] at hrq
      rw [if_neg fun hu' => Sched.Foreign.not_mem hquiet hu hu'.1] at hrq
      exact h.waiting u hu hrq
  | setState cpu state =>
    cases hcurr : m.curr cpu with
    | none =>
      simp only [Sched.after, hcurr]
      exact h
    | some t =>
      simp only [Sched.after, hcurr]
      refine Stopped.of_same (sameGroups_setState _ _ _) (fun u hu => ?_) h.waiting
      rw [KState.modifyTask_task, if_neg ((hquiet t hcurr).ne hu)]
      exact h.asleep u hu
  | wakeUp t =>
    refine Stopped.of_same (sameGroups_modifyTask _ _ fun p => ?_) (fun u hu => ?_) fun u hu hrq => ?_
    · obtain ⟨_, -, heq⟩ := wakeUpProcess_eq p
      rw [heq]
    · simp only [Sched.after]
      rw [KState.modifyTask_task, if_neg (Sched.Foreign.ne hquiet hu)]
      exact h.asleep u hu
    · simp only [Sched.after, Sched.enqueue] at hrq
      rw [if_neg fun hu' => Sched.Foreign.ne hquiet hu (List.mem_singleton.1 hu'.1)] at hrq
      exact h.waiting u hu hrq

/-- A stopped group stays stopped through quiet steps. -/
theorem Stopped.run (h : Stopped leader m) (hrun : QuietRun leader m m') : Stopped leader m' := by
  refine Reach.inv (E := fun _ => True) ?_ ?_ hrun
  · rintro m' rfl
    exact h
  · intro m' a hm' ha
    exact hm'.step ha.1 ha.2

end Run

/-- **When a whole group is stopped.**  `budget_timer_callback` on the leader's timer leaves every
thread asleep exactly if all threads but the leader were asleep before, and the two branches of the
hook exactly if all but the thread that is switched in were.  Once all are asleep and none waits for a
CPU, no thread of the group is picked before the period timer wakes it, in any run in which no thread
of it is preempted in the kernel, writes its own state or is woken up by something else. -/
theorem groupStop_iff (leader : Tid) :
    (∀ s, GroupAsleep leader (budgetTimerLoop leader s) ↔ OthersAsleep leader leader s) ∧
    (∀ s next, (s.task next).isBudgetSet = true → (s.task next).tgid = leader →
      ForceSleep (s.task leader) ∨ BudgetExceeded (s.task leader) (s.task next) →
        (GroupAsleep leader (switchInLoop next s) ↔ OthersAsleep next leader s)) ∧
    ∀ m, GroupAsleep leader m.st → NoneWaiting leader m → ∀ m', QuietRun leader m m' →
      ∀ cpu preemptActive signalPending next,
        m'.Can (.schedule cpu preemptActive signalPending next) →
        m'.Quiet leader (.schedule cpu preemptActive signalPending next) →
          next ∉ m'.st.threads leader := by
  refine ⟨groupAsleep_callback leader, fun s next => groupAsleep_hook, ?_⟩
  intro m hasleep hwaiting m' hrun cpu preemptActive signalPending next hcan hquiet
  exact Stopped.not_picked (Stopped.run ⟨hasleep, hwaiting⟩ hrun) hcan hquiet

/-- A process of two threads, 1 and 2, with a budget of one second that is used up, and another
process 3. -/
def pairState (state₁ state₂ : RunState) : KState :=
  { bootState [1, 2, 3] .noPm with
    task := fun t => { newTask t with
      tgid := if t = 2 then 1 else t
      state := if t = 1 then state₁ else if t = 2 then state₂ else .running
      isBudgetSet := decide (t ≠ 3)
      budgetTime := ⟨1, 0⟩
      computeTime := ⟨1, 0⟩ } }

/-- Thread 1 still has the first CPU, and process 3 waits for one. -/
def pairSched : Sched where
  st := pairState .uninterruptible .uninterruptible
  curr := fun cpu => if cpu = 0 then some 1 else none
  onRq := fun t => decide (t = 1 ∨ t = 3)

/-- The second thread sleeps already: the callback, and the hook for the first, stop the group.  Then
process 3 is switched in and runs for a while, and when it calls `__schedule`, that can pick it again
but no thread of the group. -/
theorem groupStop_iff_pair :
    GroupAsleep 1 (budgetTimerLoop 1 (pairState .running .uninterruptible)) ∧
    GroupAsleep 1 (switchInLoop 1 (pairState .running .uninterruptible)) ∧
    ∃ m, QuietRun 1 pairSched m ∧ m.curr 0 = some 3 ∧ m.Can (.schedule 0 false false 3) ∧
      ∀ next, m.Can (.schedule 0 false false next) → next ∉ m.st.threads 1 := by
  obtain ⟨hcallback, hhook, hrun⟩ := groupStop_iff 1
  have hwaiting : NoneWaiting 1 pairSched := by
    have hthreads : pairSched.st.threads 1 = [1, 2] := by decide
    unfold NoneWaiting
    rw [hthreads, List.forall_mem_cons, List.forall_mem_singleton]
    exact ⟨fun _ => ⟨0, rfl⟩, fun h => absurd h (by decide)⟩
  have hcan : pairSched.Can (.schedule 0 false false 3) :=
    ⟨1, rfl, by decide, fun c hc => by simp [pairSched, hc]⟩
  have hstart : QuietRun 1 pairSched pairSched := Reach.start rfl
  have hsteps : QuietRun 1 pairSched
      ((pairSched.after (.schedule 0 false false 3)).after (.pass 5)) := by
    refine Reach.step (Reach.step hstart (a := .schedule 0 false false 3) ?_ rfl) (a := .pass 5) ?_ rfl
    · exact ⟨hcan, fun h => Bool.noConfusion h⟩
    · exact ⟨trivial, trivial⟩
  refine ⟨(hcallback _).2 (by decide), (hhook _ 1 rfl rfl (by decide)).2 (by decide), _, hsteps,
    rfl, ⟨3, rfl, by decide, by decide⟩, fun next hnext => ?_⟩
  exact hrun pairSched (by decide) hwaiting _ hsteps 0 false false next hnext
    fun h => Bool.noConfusion h

/-- Both threads run; after the callback on the leader's timer the second one is still running. -/
theorem groupStop_partial :
    ¬ ∀ (leader : Tid) (s : KState), (s.task leader).tgid = leader →
      GroupAsleep leader (budgetTimerLoop leader s) := by
  intro hall
  have hsecond := hall 1 (pairState .running .running) rfl 2 (by decide)
  revert hsecond
  decide

end RtSched
