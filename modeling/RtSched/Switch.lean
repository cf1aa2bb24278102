import RtSched.BinPacking
import RtSched.Enforcement

/-!
# Context switches on several CPUs (`kernel/sched.c`)

The hook in `__schedule` looks at the flag of the thread that is switched.  The budget, the time
used, the start of the slice and the budget timer are those of the group leader: all threads of a
process share them, on whatever CPU they run.

* `switchOut`, `switchIn`: the two halves of the hook, each of which runs under the lock of the
  leader; for a process of one thread they are `hookOut` and `hookIn`;
* `Smp`: the CPUs, what can happen on them, and the state after it.
-/

namespace RtSched

open Call

variable {s : KState} {prev next leader t u : Tid}

/-! ### The hook -/

/-- The hook in `__schedule` for the thread that leaves a CPU. -/
def switchOut (prev : Tid) (s : KState) : KState :=
  if (s.task prev).isBudgetSet then
    s.modifyTask (s.task prev).tgid fun leader =>
      let diff := timespecSub (nsToTimespec s.now) leader.execTime
      { leader with budgetTimer := none, computeTime := timespecAdd leader.computeTime diff }
  else s

/-- `set_task_state` and `set_tsk_need_resched`.  The loops around them go over the threads of the
group, but name the same thread every time. -/
def putToSleep (p : TaskStruct) : TaskStruct :=
  { p with state := .uninterruptible, needResched := true }

/-- The part of the hook that arms the leader's timer or puts the thread to sleep. -/
def armLeader (leader next : Tid) (s : KState) : KState :=
  let p := s.task leader
  if timespecCompare p.budgetTime p.computeTime > 0 then
    let temp := timespecSub p.budgetTime p.computeTime
    if temp.tvSec = 0 ∧ temp.tvNsec ≤ 10000 then s.modifyTask next putToSleep
    else s.modifyTask leader fun p => { p with budgetTimer := some (s.now + timespecToNs temp) }
  else if (s.task next).state ≠ .uninterruptible then s.modifyTask next putToSleep
  else s

/-- The hook in `__schedule` for the thread that gets a CPU. -/
def switchIn (next : Tid) (s : KState) : KState :=
  if (s.task next).isBudgetSet then
    let leader := (s.task next).tgid
    armLeader leader next (s.modifyTask leader fun p => { p with execTime := nsToTimespec s.now })
  else s

/-- `period_timer_callback` for the timer of `curr`. -/
def periodCallback (curr : Tid) (s : KState) : KState :=
  let s := s.modifyTask curr fun p => { p with
    computeTime := ⟨0, 0⟩
    periodTimer := p.periodTimer.map fun expires =>
      hrtimerForward expires s.now (timespecToNs p.timePeriod) }
  s.eachThread curr wakeUpProcess

section Single

theorem modifyTask_congr {f g : TaskStruct → TaskStruct} (h : f (s.task t) = g (s.task t)) :
    s.modifyTask t f = s.modifyTask t g := by
  rw [KState.modifyTask, KState.modifyTask, h]

theorem modifyTask_same {f : TaskStruct → TaskStruct} (h : f (s.task t) = s.task t) :
    s.modifyTask t f = s := by
  rw [KState.modifyTask, h, Function.update_eq_self]

theorem modifyTask_twice (t : Tid) (f g : TaskStruct → TaskStruct) (s : KState) :
    (s.modifyTask t f).modifyTask t g = s.modifyTask t (g ∘ f) := by
  simp [KState.modifyTask]

/-- A process of one thread: the hook is the one we know. -/
theorem switchOut_single (h : (s.task t).tgid = t) :
    switchOut t s = s.modifyTask t (hookOut s.now) := by
  rw [switchOut, h]
  split_ifs with hset
  · apply modifyTask_congr
    rw [hookOut, if_pos hset]
  · symm
    apply modifyTask_same
    rw [hookOut, if_neg hset]

theorem armLeader_single (t : Tid) (s : KState) :
    armLeader t t s = s.modifyTask t (armBudget s.now) := by
  simp only [armLeader]
  split_ifs with h1 h2 h3
  · apply modifyTask_congr
    rw [armBudget, if_pos h1, if_pos h2, putToSleep]
  · apply modifyTask_congr
    rw [armBudget, if_pos h1, if_neg h2]
  · apply modifyTask_congr
    rw [armBudget, if_neg h1, if_pos h3, putToSleep]
  · symm
    apply modifyTask_same
    rw [armBudget, if_neg h1, if_neg h3]

theorem switchIn_single (h : (s.task t).tgid = t) :
    switchIn t s = s.modifyTask t (hookIn s.now) := by
  rw [switchIn, h]
  split_ifs with hset
  · rw [armLeader_single, modifyTask_twice]
    apply modifyTask_congr
    show armBudget s.now _ = hookIn s.now (s.task t)
    rw [hookIn, if_pos hset]
  · symm
    apply modifyTask_same
    rw [hookIn, if_neg hset]

end Single

/-! ### What the hook writes -/

/-- There is enough budget left for a timer. -/
def BudgetLeft (p : TaskStruct) : Prop :=
  timespecCompare p.budgetTime p.computeTime > 0 ∧
    ¬ ((timespecSub p.budgetTime p.computeTime).tvSec = 0 ∧
      (timespecSub p.budgetTime p.computeTime).tvNsec ≤ 10000)

instance (p : TaskStruct) : Decidable (BudgetLeft p) := instDecidableAnd

/-- The leader's record at switch-out. -/
theorem switchOut_task (prev u : Tid) (s : KState) :
    (switchOut prev s).task u =
      if (s.task prev).isBudgetSet = true ∧ u = (s.task prev).tgid then
        { s.task u with
          budgetTimer := none
          computeTime := timespecAdd (s.task u).computeTime
            (timespecSub (nsToTimespec s.now) (s.task u).execTime) }
      else s.task u := by
  unfold switchOut
  by_cases hset : (s.task prev).isBudgetSet = true
  · rw [if_pos hset, KState.modifyTask_task]
    simp only [hset, true_and]
  · rw [if_neg hset, if_neg fun h => hset h.1]

theorem armLeader_cases (leader next : Tid) (s : KState) :
    BudgetLeft (s.task leader) ∧ armLeader leader next s = s.modifyTask leader (fun p =>
        { p with budgetTimer := some (s.now + (timespecToNs (s.task leader).budgetTime -
          timespecToNs (s.task leader).computeTime)) }) ∨
      ¬ BudgetLeft (s.task leader) ∧ (armLeader leader next s = s.modifyTask next putToSleep ∨
        armLeader leader next s = s) := by
  simp only [armLeader, BudgetLeft]
  split_ifs with h1 h2 h3
  · exact Or.inr ⟨fun h => h.2 h2, Or.inl rfl⟩
  · refine Or.inl ⟨⟨h1, h2⟩, ?_⟩
    rw [timespecToNs_sub]
  · exact Or.inr ⟨fun h => h1 h.1, Or.inl rfl⟩
  · exact Or.inr ⟨fun h => h1 h.1, Or.inr rfl⟩

/-- The second record differs from the first at most in what the hook writes at switch-in. -/
def HookOnly (p q : TaskStruct) : Prop :=
  { q with
    state := p.state, needResched := p.needResched, execTime := p.execTime
    budgetTimer := p.budgetTimer } = p

section HookOnly

variable {p q : TaskStruct} (h : HookOnly p q)

include h

theorem HookOnly.tgid : q.tgid = p.tgid := by
  unfold HookOnly at h
  rw [← h]

theorem HookOnly.isBudgetSet : q.isBudgetSet = p.isBudgetSet := by
  unfold HookOnly at h
  rw [← h]

theorem HookOnly.budgetTime : q.budgetTime = p.budgetTime := by
  unfold HookOnly at h
  rw [← h]

theorem HookOnly.computeTime : q.computeTime = p.computeTime := by
  unfold HookOnly at h
  rw [← h]

end HookOnly

/-- The state in which the timer is armed: the slice has begun. -/
def startSlice (leader : Tid) (s : KState) : KState :=
  s.modifyTask leader fun p => { p with execTime := nsToTimespec s.now }

theorem startSlice_task (leader u : Tid) (s : KState) :
    (startSlice leader s).task u = { s.task u with
      execTime := if u = leader then nsToTimespec s.now else (s.task u).execTime } := by
  rw [startSlice, KState.modifyTask_task]
  split_ifs <;> rfl

theorem switchIn_cases (hset : (s.task next).isBudgetSet = true)
    (hleader : (s.task next).tgid = leader) :
    BudgetLeft (s.task leader) ∧ switchIn next s = (startSlice leader s).modifyTask leader (fun p =>
        { p with budgetTimer := some (s.now + (timespecToNs (s.task leader).budgetTime -
          timespecToNs (s.task leader).computeTime)) }) ∨
      ¬ BudgetLeft (s.task leader) ∧ (switchIn next s = (startSlice leader s).modifyTask next putToSleep
        ∨ switchIn next s = startSlice leader s) := by
  have hcases := armLeader_cases leader next (startSlice leader s)
  simp only [startSlice_task, BudgetLeft] at hcases ⊢
  rw [switchIn, if_pos hset, hleader]
  exact hcases

section Fields

variable (next u : Tid) (s : KState)

theorem switchIn_hookOnly : HookOnly (s.task u) ((switchIn next s).task u) := by
  by_cases hset : (s.task next).isBudgetSet = true
  · rcases switchIn_cases hset rfl with ⟨-, heq⟩ | ⟨-, heq | heq⟩
    all_goals
      rw [heq]
      simp only [KState.modifyTask_task, startSlice_task, HookOnly, putToSleep]
      try split_ifs
      all_goals rfl
  · rw [switchIn, if_neg hset]
    rfl

/-- The leader gets the start of the slice. -/
theorem switchIn_execTime : ((switchIn next s).task u).execTime =
    if (s.task next).isBudgetSet = true ∧ u = (s.task next).tgid then nsToTimespec s.now
    else (s.task u).execTime := by
  by_cases hset : (s.task next).isBudgetSet = true
  · simp only [hset, true_and]
    rcases switchIn_cases hset rfl with ⟨-, heq⟩ | ⟨-, heq | heq⟩
    all_goals
      rw [heq]
      simp only [KState.modifyTask_task, startSlice_task, putToSleep]
      try split_ifs
      all_goals rfl
  · rw [switchIn, if_neg hset, if_neg fun h => hset h.1]

/-- The leader's timer is armed if there is budget left; no other is. -/
theorem switchIn_budgetTimer : ((switchIn next s).task u).budgetTimer =
    if (s.task next).isBudgetSet = true ∧ u = (s.task next).tgid ∧ BudgetLeft (s.task u) then
      some (s.now + (timespecToNs (s.task u).budgetTime - timespecToNs (s.task u).computeTime))
    else (s.task u).budgetTimer := by
  by_cases hset : (s.task next).isBudgetSet = true
  · simp only [hset, true_and]
    rcases switchIn_cases hset rfl with ⟨hl, heq⟩ | ⟨hl, heq⟩
    · rw [heq]
      by_cases hu : u = (s.task next).tgid
      · subst hu
        simp [hl]
      · simp [hu, startSlice_task]
    · rw [if_neg (by rintro ⟨hu, h⟩; exact hl (hu ▸ h))]
      rcases heq with heq | heq
      all_goals
        rw [heq]
        simp only [KState.modifyTask_task, startSlice_task, putToSleep]
        try split_ifs
        all_goals rfl
  · rw [switchIn, if_neg hset, if_neg fun h => hset h.1]

/-- Only the thread itself may be put to sleep, and only if there is not. -/
theorem switchIn_state : ((switchIn next s).task u).state = (s.task u).state ∨
    (s.task next).isBudgetSet = true ∧ u = next ∧ ¬ BudgetLeft (s.task (s.task next).tgid) := by
  by_cases hset : (s.task next).isBudgetSet = true
  · rcases switchIn_cases hset rfl with ⟨-, heq⟩ | ⟨hl, heq | heq⟩
    · left
      rw [heq, KState.modifyTask_task, startSlice_task]
      split_ifs <;> rfl
    · by_cases hu : u = next
      · exact Or.inr ⟨hset, hu, hl⟩
      · left
        rw [heq, KState.modifyTask_task, if_neg hu, startSlice_task]
    · left
      rw [heq, startSlice_task]
  · left
    rw [switchIn, if_neg hset]

/-- The clock and the list are not touched. -/
theorem switchIn_globals : (switchIn next s).now = s.now ∧ (switchIn next s).links = s.links := by
  by_cases hset : (s.task next).isBudgetSet = true
  · rcases switchIn_cases hset rfl with ⟨-, heq⟩ | ⟨-, heq | heq⟩
    all_goals
      rw [heq]
      exact ⟨rfl, rfl⟩
  · rw [switchIn, if_neg hset]
    exact ⟨rfl, rfl⟩

theorem switchOut_globals (prev : Tid) :
    (switchOut prev s).now = s.now ∧ (switchOut prev s).links = s.links := by
  unfold switchOut
  split_ifs <;> exact ⟨rfl, rfl⟩

end Fields

/-! ### The CPUs -/

instance : NeZero maxCpu := ⟨by decide⟩

/-- The tasks and the thread on each CPU, `none` between the two halves of the hook. -/
structure Smp where
  st : KState
  curr : Fin maxCpu → Option Tid

/-- What can happen. -/
inductive SmpEvent
  /-- time passes -/
  | pass (d : ℕ)
  | switchIn (cpu : Fin maxCpu) (t : Tid)
  | switchOut (cpu : Fin maxCpu)
  /-- the timer of `t` expires -/
  | budgetExpiry (t : Tid)
  | periodExpiry (t : Tid)

/-- A CPU gets one thread at a time, a thread one CPU; a timer expires when it is due, or later. -/
def Possible (m : Smp) : SmpEvent → Prop
  | .pass _ => True
  | .switchIn cpu t => m.curr cpu = none ∧ ∀ c, m.curr c ≠ some t
  | .switchOut cpu => (m.curr cpu).isSome = true
  | .budgetExpiry t => ((m.st.task t).budgetTimer.any fun x => decide (x ≤ m.st.now)) = true
  | .periodExpiry t => ((m.st.task t).periodTimer.any fun x => decide (x ≤ m.st.now)) = true

instance (m : Smp) : (a : SmpEvent) → Decidable (Possible m a)
  | .pass _ => instDecidableTrue
  | .switchIn _ _ => instDecidableAnd
  | .switchOut _ => instDecidableEqBool _ _
  | .budgetExpiry _ => instDecidableEqBool _ _
  | .periodExpiry _ => instDecidableEqBool _ _

/-- The state after an event. -/
def Smp.after (m : Smp) : SmpEvent → Smp
  | .pass d => { m with st := { m.st with now := m.st.now + d } }
  | .switchIn cpu t => ⟨RtSched.switchIn t m.st, Function.update m.curr cpu (some t)⟩
  | .switchOut cpu =>
      match m.curr cpu with
      | some t => ⟨RtSched.switchOut t m.st, Function.update m.curr cpu none⟩
      | none => m
  | .budgetExpiry t => { m with st := m.st.modifyTask t budgetTimerCallback }
  | .periodExpiry t => { m with st := periodCallback t m.st }

/-! ### The groups of threads -/

/-- The threads of each process are the same. -/
structure SameGroups (s s' : KState) : Prop where
  hash : s'.pidHash = s.pidHash
  tgid : ∀ u, (s'.task u).tgid = (s.task u).tgid

section SameGroups

variable {s s' s'' : KState} {t : Tid}

theorem SameGroups.refl (s : KState) : SameGroups s s := ⟨rfl, fun _ => rfl⟩

theorem SameGroups.trans (h : SameGroups s s') (h' : SameGroups s' s'') : SameGroups s s'' :=
  ⟨h'.hash.trans h.hash, fun u => (h'.tgid u).trans (h.tgid u)⟩

theorem SameGroups.threads (h : SameGroups s s') (t : Tid) : s'.threads t = s.threads t := by
  rw [KState.threads, KState.threads, h.hash]
  simp only [h.tgid]

theorem sameGroups_modifyTask (s : KState) (t : Tid) {f : TaskStruct → TaskStruct}
    (hf : ∀ p, (f p).tgid = p.tgid) : SameGroups s (s.modifyTask t f) := by
  refine ⟨rfl, fun u => ?_⟩
  rw [KState.modifyTask_task]
  split_ifs
  · exact hf _
  · rfl

theorem sameGroups_eachThread (s : KState) (t : Tid) {f : TaskStruct → TaskStruct}
    (hf : ∀ p, (f p).tgid = p.tgid) : SameGroups s (s.eachThread t f) := by
  refine ⟨rfl, fun u => ?_⟩
  rw [KState.eachThread_task]
  split_ifs
  · exact hf _
  · rfl

theorem sameGroups_switchOut (prev : Tid) (s : KState) : SameGroups s (switchOut prev s) := by
  rw [switchOut]
  split_ifs
  · exact sameGroups_modifyTask s _ fun _ => rfl
  · exact SameGroups.refl s

theorem sameGroups_armLeader (leader next : Tid) (s : KState) :
    SameGroups s (armLeader leader next s) := by
  rcases armLeader_cases leader next s with ⟨-, heq⟩ | ⟨-, heq | heq⟩
  all_goals rw [heq]
  · exact sameGroups_modifyTask s _ fun _ => rfl
  · exact sameGroups_modifyTask s _ fun _ => rfl
  · exact SameGroups.refl s

theorem sameGroups_startSlice (leader : Tid) (s : KState) : SameGroups s (startSlice leader s) :=
  sameGroups_modifyTask s _ fun _ => rfl

theorem sameGroups_switchIn (next : Tid) (s : KState) : SameGroups s (switchIn next s) := by
  rw [switchIn]
  split_ifs
  · exact (sameGroups_startSlice _ s).trans (sameGroups_armLeader _ next _)
  · exact SameGroups.refl s

theorem sameGroups_periodCallback (curr : Tid) (s : KState) :
    SameGroups s (periodCallback curr s) := by
  rw [periodCallback]
  refine SameGroups.trans ?_ (sameGroups_eachThread _ curr fun p => ?_)
  · exact sameGroups_modifyTask s curr fun _ => rfl
  · obtain ⟨_, -, heq⟩ := wakeUpProcess_eq p
    rw [heq]

theorem sameGroups_after (m : Smp) (a : SmpEvent) : SameGroups m.st (m.after a).st := by
  cases a with
  | pass d => exact ⟨rfl, fun _ => rfl⟩
  | switchIn cpu t => exact sameGroups_switchIn t m.st
  | switchOut cpu =>
    simp only [Smp.after]
    split
    · exact sameGroups_switchOut _ _
    · exact SameGroups.refl _
  | budgetExpiry t =>
    refine sameGroups_modifyTask m.st t fun p => ?_
    rw [budgetTimerCallback]
    split_ifs <;> rfl
  | periodExpiry t => exact sameGroups_periodCallback t m.st

end SameGroups

end RtSched
