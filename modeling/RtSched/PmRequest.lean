import RtSched.Guarantee

/-!
# Who asks for the frequency (`kernel/sched.c`)

Under PM-Clock `__schedule` asks for the frequency of the thread that it switched to, after the switch:
`flag` says that the budget timer of `next` was started, and behind `context_switch` the frequency of
`next` is requested.  But `flag` and `next` are on the stack, and `context_switch` flips the stack: what
runs behind it is the thread that was switched in, with the variables it had when it was itself switched
out.  So a thread asks for the frequency of the one that took the CPU from it.

* `Frame`: the two variables, and where the thread is in the code; a thread that is preempted or sleeps
  in `set_pmclock_freq` has more than one frame;
* `PmSched.after`: one turn of the loop `need_resched`, and the steps behind it, with the flag
  `is_freq_lock_taken` tested and set in two steps;
* `FrameInv`: a thread that asks has switched to another one with a budget;
* `reserved_never_asks`: a task that is the only one with a reservation never asks for its frequency, and
  with one CPU the frequency does not change while it runs;
* `freqLock_held`: `is_freq_lock_taken` is set only while some thread is going to clear it.
-/

namespace RtSched

open Call

/-! ### The code -/

/-- Where a thread is in `__schedule`. -/
inductive Pc
  /-- behind `context_switch`, or nothing was switched -/
  | switched
  /-- `is_freq_lock_taken == 0` was seen -/
  | tested
  /-- `is_freq_lock_taken = 1` is done -/
  | locked
  /-- at the call of `set_pmclock_freq` -/
  | asking
  /-- before `is_freq_lock_taken = 0` -/
  | asked
  deriving DecidableEq

/-- The variables `flag` and `next` of one call of `__schedule`. -/
structure Frame where
  flag : Bool
  next : Tid
  pc : Pc

/-- The scheduler with the stacks of the threads. -/
structure PmSched extends Sched where
  stack : Tid → List Frame
  isFreqLockTaken : Bool

/-- What can happen. -/
inductive PmEvent
  /-- the thread on a CPU calls `__schedule`, or is preempted, wherever it is -/
  | call (cpu : Fin maxCpu) (preemptActive signalPending : Bool) (next : Tid)
  /-- it goes round the loop `need_resched` again -/
  | again (cpu : Fin maxCpu) (preemptActive signalPending : Bool) (next : Tid)
  /-- the thread on a CPU leaves the loop and looks at `flag` and the lock -/
  | leave (cpu : Fin maxCpu)
  | lock (cpu : Fin maxCpu)
  /-- it looks at `next->state` -/
  | check (cpu : Fin maxCpu)
  | ask (cpu : Fin maxCpu)
  | unlock (cpu : Fin maxCpu)
  /-- something else -/
  | other (e : SchedEvent)

/-- The hook starts the budget timer of the thread that is switched in. -/
def startsTimer (next : Tid) (s : KState) : Prop :=
  (s.task next).isBudgetSet = true ∧ BudgetLeft (s.task (s.task next).tgid)

instance (next : Tid) (s : KState) : Decidable (startsTimer next s) := instDecidableAnd

/-- `set_pmclock_freq` for CPU 0; `cpuFreq` is the frequency that the driver was asked for last. -/
def setPmclockFreq (frequency : ℕ) (s : KState) : KState :=
  if frequency = 0 then s else { s with cpuFreq := frequency }

namespace PmSched

variable (m : PmSched)

/-- `flag = 1` in a turn of the loop. -/
def raises (prev next : Tid) (preemptActive signalPending : Bool) : Bool :=
  let s := (m.deactivate prev preemptActive signalPending).st
  let s := switchOut prev (s.modifyTask prev fun p => { p with needResched := false })
  decide (next ≠ prev ∧ startsTimer next s ∧ s.powerScheme = .pmClock)

/-- The thread on a CPU and its innermost call of `__schedule`. -/
def top (cpu : Fin maxCpu) : Option (Tid × Frame × List Frame) :=
  match m.curr cpu with
  | some t =>
      match m.stack t with
      | fr :: rest => some (t, fr, rest)
      | [] => none
  | none => none

/-- One turn of the loop, with the value of `flag` before it and the calls around this one. -/
def turn (cpu : Fin maxCpu) (prev : Tid) (flag : Bool) (rest : List Frame)
    (preemptActive signalPending : Bool) (next : Tid) : PmSched :=
  { m with
    toSched := m.toSched.after (.schedule cpu preemptActive signalPending next)
    stack := Function.update m.stack prev
      (⟨flag || m.raises prev next preemptActive signalPending, next, .switched⟩ :: rest) }

/-- The state after an event. -/
def after : PmEvent → PmSched
  | .call cpu preemptActive signalPending next =>
      match m.curr cpu with
      | some prev => m.turn cpu prev false (m.stack prev) preemptActive signalPending next
      | none => m
  | .again cpu preemptActive signalPending next =>
      match m.top cpu with
      | some (prev, fr, rest) => m.turn cpu prev fr.flag rest preemptActive signalPending next
      | none => m
  | .leave cpu =>
      match m.top cpu with
      | some (t, fr, rest) =>
          if fr.flag = true ∧ m.isFreqLockTaken = false then
            { m with stack := Function.update m.stack t ({ fr with pc := .tested } :: rest) }
          else { m with stack := Function.update m.stack t rest }
      | none => m
  | .lock cpu =>
      match m.top cpu with
      | some (t, fr, rest) => { m with
          isFreqLockTaken := true
          stack := Function.update m.stack t ({ fr with pc := .locked } :: rest) }
      | none => m
  | .check cpu =>
      match m.top cpu with
      | some (t, fr, rest) =>
          let pc := if (m.st.task fr.next).state ≠ .uninterruptible then .asking else .asked
          { m with stack := Function.update m.stack t ({ fr with pc := pc } :: rest) }
      | none => m
  | .ask cpu =>
      match m.top cpu with
      | some (t, fr, rest) => { m with
          st := setPmclockFreq (m.st.task fr.next).pmclockFreq m.st
          stack := Function.update m.stack t ({ fr with pc := .asked } :: rest) }
      | none => m
  | .unlock cpu =>
      match m.top cpu with
      | some (t, _, rest) => { m with
          isFreqLockTaken := false
          stack := Function.update m.stack t rest }
      | none => m
  | .other e => { m with toSched := m.toSched.after e }

/-- The thread on a CPU is at `pc` of its innermost call, with a reschedule pending or not. -/
def At (cpu : Fin maxCpu) (pc : Pc) (needResched : Bool → Prop) : Prop :=
  ∃ t fr rest, m.top cpu = some (t, fr, rest) ∧ fr.pc = pc ∧ needResched (m.st.task t).needResched

/-- A thread goes round the loop again if it has to reschedule, and leaves it if it has not. -/
def Can : PmEvent → Prop
  | .call cpu preemptActive signalPending next =>
      m.toSched.Can (.schedule cpu preemptActive signalPending next)
  | .again cpu preemptActive signalPending next =>
      m.toSched.Can (.schedule cpu preemptActive signalPending next) ∧ m.At cpu .switched (· = true)
  | .leave cpu => m.At cpu .switched (· = false)
  | .lock cpu => m.At cpu .tested fun _ => True
  | .check cpu => m.At cpu .locked fun _ => True
  | .ask cpu => m.At cpu .asking fun _ => True
  | .unlock cpu => m.At cpu .asked fun _ => True
  | .other e => m.toSched.Can e ∧ ∀ cpu preemptActive signalPending next,
      e ≠ .schedule cpu preemptActive signalPending next

end PmSched

/-- The steps as calls; they all return. -/
def pmExec (m : PmSched) (e : PmEvent) : Call PmSched (PmSched × Unit) := pure (m.after e, ())

/-- No thread is in `__schedule`. -/
structure AllOutside (m : PmSched) : Prop where
  stack : ∀ t, m.stack t = []
  unlocked : m.isFreqLockTaken = false

/-- The states from `m₀` on. -/
def PmRun (m₀ : PmSched) : PmSched → Prop := Reach (fun m => m = m₀) PmSched.Can pmExec

/-! ### Frames -/

section Frames

variable {m m₀ : PmSched} {e : PmEvent} {cpu : Fin maxCpu} {t : Tid} {fr : Frame} {rest : List Frame}

theorem top_spec (h : m.top cpu = some (t, fr, rest)) :
    m.curr cpu = some t ∧ m.stack t = fr :: rest := by
  unfold PmSched.top at h
  cases hcurr : m.curr cpu with
  | none =>
    rw [hcurr] at h
    cases h
  | some u =>
    cases hstack : m.stack u with
    | nil =>
      simp only [hcurr, hstack] at h
      cases h
    | cons x l =>
      simp only [hcurr, hstack, Option.some.injEq, Prod.mk.injEq] at h
      obtain ⟨rfl, rfl, rfl⟩ := h
      exact ⟨rfl, hstack⟩

/-- What holds of all frames, when the stack of one thread is replaced. -/
theorem forall_frames_update {P : Tid → Frame → Prop} {stack : Tid → List Frame}
    (h : ∀ u, ∀ x ∈ stack u, P u x) {frames : List Frame} (hnew : ∀ x ∈ frames, P t x) :
    ∀ u, ∀ x ∈ Function.update stack t frames u, P u x := by
  intro u x hx
  by_cases hut : u = t
  · subst hut
    rw [Function.update_self] at hx
    exact hnew x hx
  · rw [Function.update_of_ne hut] at hx
    exact h u x hx

/-- Some other thread has a budget. -/
def OtherReserved (s : KState) (t : Tid) : Prop := ∃ u, u ≠ t ∧ (s.task u).isBudgetSet = true

/-- A thread whose `flag` is set has switched to another thread with a budget, and only such a thread gets
behind the test of `flag`. -/
structure FrameInv (s : KState) (t : Tid) (fr : Frame) : Prop where
  flag : fr.flag = true → OtherReserved s t
  behind : fr.pc ≠ .switched → fr.flag = true

theorem FrameInv.of_static {s s' : KState} (h : FrameInv s t fr) (hs : SameStatic s s') :
    FrameInv s' t fr := by
  refine ⟨fun hflag => ?_, h.behind⟩
  obtain ⟨u, hut, hset⟩ := h.flag hflag
  exact ⟨u, hut, (hs u).isBudgetSet.trans hset⟩

/-- `flag` is set for another thread with a budget. -/
theorem raises_reserved {prev next : Tid} {preemptActive signalPending : Bool}
    (h : m.raises prev next preemptActive signalPending = true) : OtherReserved m.st prev := by
  obtain ⟨hne, ⟨hset, -⟩, -⟩ := of_decide_eq_true h
  refine ⟨next, hne, ?_⟩
  have hstatic := (sameStatic_deactivate m.toSched prev preemptActive signalPending).trans
    ((sameStatic_clear _ prev).trans (sameStatic_switchOut prev _))
  exact (hstatic next).isBudgetSet.symm.trans hset

theorem sameStatic_pmEvent (m : PmSched) (e : PmEvent) : SameStatic m.st (m.after e).st := by
  cases e with
  | call cpu preemptActive signalPending next =>
    cases hcurr : m.curr cpu with
    | none =>
      simp only [PmSched.after, hcurr]
      exact SameStatic.refl _
    | some prev =>
      simp only [PmSched.after, hcurr]
      exact sameStatic_event m.toSched _
  | again cpu preemptActive signalPending next =>
    cases htop : m.top cpu with
    | none =>
      simp only [PmSched.after, htop]
      exact SameStatic.refl _
    | some x =>
      simp only [PmSched.after, htop]
      exact sameStatic_event m.toSched _
  | ask cpu =>
    cases htop : m.top cpu with
    | none =>
      simp only [PmSched.after, htop]
      exact SameStatic.refl _
    | some x =>
      simp only [PmSched.after, htop, setPmclockFreq]
      split_ifs <;> exact SameStatic.refl _
  | other e => exact sameStatic_event m.toSched e
  | leave cpu =>
    cases htop : m.top cpu with
    | none =>
      simp only [PmSched.after, htop]
      exact SameStatic.refl _
    | some x =>
      simp only [PmSched.after, htop]
      split_ifs <;> exact SameStatic.refl _
  | _ cpu =>
    cases htop : m.top cpu with
    | none =>
      simp only [PmSched.after, htop]
      exact SameStatic.refl _
    | some x =>
      simp only [PmSched.after, htop]
      exact SameStatic.refl _

/-- The thread has set `is_freq_lock_taken` and will clear it. -/
def InSection : Pc → Prop
  | .locked | .asking | .asked => True
  | _ => False

/-- What a step does to the stacks and to `is_freq_lock_taken`. -/
inductive StackStep (s : KState) (stack : Tid → List Frame) (taken : Bool) :
    (Tid → List Frame) → Bool → Prop
  | same : StackStep s stack taken stack taken
  | call (t next : Tid) (raised : Bool) (hraised : raised = true → OtherReserved s t) :
      StackStep s stack taken
        (Function.update stack t (⟨raised, next, .switched⟩ :: stack t)) taken
  | again (t next : Tid) (fr : Frame) (rest : List Frame) (raised : Bool)
      (hstack : stack t = fr :: rest) (hpc : fr.pc = .switched)
      (hraised : raised = true → OtherReserved s t) :
      StackStep s stack taken
        (Function.update stack t (⟨fr.flag || raised, next, .switched⟩ :: rest)) taken
  | leave (t : Tid) (fr : Frame) (rest : List Frame) (hstack : stack t = fr :: rest)
      (hpc : fr.pc = .switched) : StackStep s stack taken (Function.update stack t rest) taken
  | test (t : Tid) (fr : Frame) (rest : List Frame) (hstack : stack t = fr :: rest)
      (hpc : fr.pc = .switched) (hflag : fr.flag = true) (hfree : taken = false) :
      StackStep s stack taken (Function.update stack t ({ fr with pc := .tested } :: rest)) taken
  | lock (t : Tid) (fr : Frame) (rest : List Frame) (hstack : stack t = fr :: rest)
      (hpc : fr.pc = .tested) :
      StackStep s stack taken (Function.update stack t ({ fr with pc := .locked } :: rest)) true
  | move (t : Tid) (fr : Frame) (rest : List Frame) (pc : Pc) (hstack : stack t = fr :: rest)
      (hpc : InSection fr.pc) (hpc' : InSection pc) :
      StackStep s stack taken (Function.update stack t ({ fr with pc := pc } :: rest)) taken
  | unlock (t : Tid) (fr : Frame) (rest : List Frame) (hstack : stack t = fr :: rest)
      (hpc : fr.pc = .asked) : StackStep s stack taken (Function.update stack t rest) false

theorem stackStep_after (hcan : m.Can e) : StackStep m.st m.stack m.isFreqLockTaken
    (m.after e).stack (m.after e).isFreqLockTaken := by
  cases e with
  | call cpu preemptActive signalPending next =>
    obtain ⟨prev, hprev, -, -⟩ := hcan
    simp only [PmSched.after, hprev, PmSched.turn, Bool.false_or]
    exact .call prev next _ raises_reserved
  | again cpu preemptActive signalPending next =>
    obtain ⟨-, t, fr, rest, htop, hpc, -⟩ := hcan
    simp only [PmSched.after, htop, PmSched.turn]
    exact .again t next fr rest _ (top_spec htop).2 hpc raises_reserved
  | leave cpu =>
    obtain ⟨t, fr, rest, htop, hpc, -⟩ := hcan
    simp only [PmSched.after, htop]
    split_ifs with hflag
    · exact .test t fr rest (top_spec htop).2 hpc hflag.1 hflag.2
    · exact .leave t fr rest (top_spec htop).2 hpc
  | lock cpu =>
    obtain ⟨t, fr, rest, htop, hpc, -⟩ := hcan
    simp only [PmSched.after, htop]
    exact .lock t fr rest (top_spec htop).2 hpc
  | check cpu =>
    obtain ⟨t, fr, rest, htop, hpc, -⟩ := hcan
    simp only [PmSched.after, htop]
    refine .move t fr rest _ (top_spec htop).2 (by rw [hpc]; trivial) ?_
    split_ifs <;> trivial
  | ask cpu =>
    obtain ⟨t, fr, rest, htop, hpc, -⟩ := hcan
    simp only [PmSched.after, htop]
    exact .move t fr rest _ (top_spec htop).2 (by rw [hpc]; trivial) trivial
  | unlock cpu =>
    obtain ⟨t, fr, rest, htop, hpc, -⟩ := hcan
    simp only [PmSched.after, htop]
    exact .unlock t fr rest (top_spec htop).2 hpc
  | other e => exact .same

/-! ### The two invariants -/

section StackStep

variable {s : KState} {stack stack' : Tid → List Frame} {taken taken' : Bool}

/-- A step keeps `FrameInv` for all frames. -/
theorem StackStep.frames (hstep : StackStep s stack taken stack' taken')
    (h : ∀ t, ∀ fr ∈ stack t, FrameInv s t fr) : ∀ t, ∀ fr ∈ stack' t, FrameInv s t fr := by
  have htop : ∀ {t fr rest}, stack t = fr :: rest →
      FrameInv s t fr ∧ ∀ x ∈ rest, FrameInv s t x := by
    intro t fr rest hstack
    have hall := h t
    rw [hstack, List.forall_mem_cons] at hall
    exact hall
  cases hstep with
  | same => exact h
  | call t next raised hraised =>
    exact forall_frames_update h (List.forall_mem_cons.2 ⟨⟨hraised, fun hpc => absurd rfl hpc⟩, h t⟩)
  | again t next fr rest raised hstack hpc hraised =>
    obtain ⟨hfr, hrest⟩ := htop hstack
    refine forall_frames_update h (List.forall_mem_cons.2 ⟨⟨fun hflag => ?_, ?_⟩, hrest⟩)
    · rcases Bool.or_eq_true_iff.1 hflag with hold | hnew
      · exact hfr.flag hold
      · exact hraised hnew
    · exact fun hpc => absurd rfl hpc
  | leave t fr rest hstack hpc => exact forall_frames_update h (htop hstack).2
  | test t fr rest hstack hpc hflag hfree =>
    obtain ⟨hfr, hrest⟩ := htop hstack
    exact forall_frames_update h (List.forall_mem_cons.2 ⟨⟨hfr.flag, fun _ => hflag⟩, hrest⟩)
  | lock t fr rest hstack hpc =>
    obtain ⟨hfr, hrest⟩ := htop hstack
    have hflag : fr.flag = true := hfr.behind (by rw [hpc]; exact Pc.noConfusion)
    exact forall_frames_update h (List.forall_mem_cons.2 ⟨⟨hfr.flag, fun _ => hflag⟩, hrest⟩)
  | move t fr rest pc hstack hpc hpc' =>
    obtain ⟨hfr, hrest⟩ := htop hstack
    have hflag : fr.flag = true := by
      refine hfr.behind fun hsw => ?_
      rw [hsw] at hpc
      exact hpc
    exact forall_frames_update h (List.forall_mem_cons.2 ⟨⟨hfr.flag, fun _ => hflag⟩, hrest⟩)
  | unlock t fr rest hstack hpc => exact forall_frames_update h (htop hstack).2

/-- Some thread has set the flag and will clear it. -/
def Held (stack : Tid → List Frame) : Prop := ∃ t, ∃ fr ∈ stack t, InSection fr.pc

/-- The frames of one thread are replaced, and the others or a new one hold the lock. -/
theorem held_update {t : Tid} {fr : Frame} {rest frames : List Frame} (h : Held stack)
    (hstack : stack t = fr :: rest) (hrest : ∀ x ∈ rest, x ∈ frames)
    (hfr : InSection fr.pc → ∃ x ∈ frames, InSection x.pc) : Held (Function.update stack t frames) := by
  obtain ⟨u, x, hx, hholds⟩ := h
  by_cases hut : u = t
  · subst hut
    rw [hstack] at hx
    have hframes : ∃ x ∈ frames, InSection x.pc := by
      rcases List.mem_cons.1 hx with rfl | hx
      · exact hfr hholds
      · exact ⟨x, hrest x hx, hholds⟩
    obtain ⟨y, hy, hholds'⟩ := hframes
    exact ⟨u, y, by rw [Function.update_self]; exact hy, hholds'⟩
  · exact ⟨u, x, by rw [Function.update_of_ne hut]; exact hx, hholds⟩

/-- A step keeps somebody in the section as long as the flag is set. -/
theorem StackStep.held (hstep : StackStep s stack taken stack' taken')
    (h : taken = true → Held stack) : taken' = true → Held stack' := by
  cases hstep with
  | same => exact h
  | call t next raised hraised =>
    intro htaken
    obtain ⟨u, x, hx, hholds⟩ := h htaken
    by_cases hut : u = t
    · subst hut
      exact ⟨u, x, by rw [Function.update_self]; exact List.mem_cons_of_mem _ hx, hholds⟩
    · exact ⟨u, x, by rw [Function.update_of_ne hut]; exact hx, hholds⟩
  | again t next fr rest raised hstack hpc hraised =>
    exact fun htaken => held_update (h htaken) hstack (fun x hx => List.mem_cons_of_mem _ hx)
      fun hholds => by rw [hpc] at hholds; exact hholds.elim
  | leave t fr rest hstack hpc =>
    exact fun htaken => held_update (h htaken) hstack (fun x hx => hx)
      fun hholds => by rw [hpc] at hholds; exact hholds.elim
  | test t fr rest hstack hpc hflag hfree =>
    exact fun htaken => absurd (hfree.symm.trans htaken) Bool.false_ne_true
  | lock t fr rest hstack hpc =>
    exact fun _ => ⟨t, { fr with pc := .locked },
      by rw [Function.update_self]; exact List.mem_cons_self, trivial⟩
  | move t fr rest pc hstack hpc hpc' =>
    exact fun htaken => held_update (h htaken) hstack (fun x hx => List.mem_cons_of_mem _ hx)
      fun _ => ⟨_, List.mem_cons_self, hpc'⟩
  | unlock t fr rest hstack hpc => exact Bool.noConfusion

end StackStep

/-- What holds throughout. -/
structure PmInv (m : PmSched) : Prop where
  frames : ∀ t, ∀ fr ∈ m.stack t, FrameInv m.st t fr
  held : m.isFreqLockTaken = true → Held m.stack

theorem PmInv.step (h : PmInv m) (hcan : m.Can e) : PmInv (m.after e) := by
  have hstep := stackStep_after hcan
  refine ⟨fun t fr hfr => ?_, hstep.held h.held⟩
  exact (hstep.frames h.frames t fr hfr).of_static (sameStatic_pmEvent m e)

theorem PmInv.start (h : AllOutside m) : PmInv m := by
  refine ⟨fun t fr hfr => ?_, fun htaken => ?_⟩
  · rw [h.stack t] at hfr
    cases hfr
  · rw [h.unlocked] at htaken
    cases htaken

theorem PmInv.run (h₀ : AllOutside m₀) (hrun : PmRun m₀ m) :
    PmInv m ∧ SameStatic m₀.st m.st := by
  refine Reach.inv (I := fun m => PmInv m ∧ SameStatic m₀.st m.st) (E := fun _ => True) ?_ ?_ hrun
  · rintro m rfl
    exact ⟨PmInv.start h₀, SameStatic.refl _⟩
  · rintro m e ⟨hm, hstatic⟩ hcan
    exact ⟨hm.step hcan, hstatic.trans (sameStatic_pmEvent m e)⟩

/-! ### The frequency -/

theorem switchIn_cpuFreq (next : Tid) (s : KState) : (switchIn next s).cpuFreq = s.cpuFreq := by
  simp only [switchIn, armLeader]
  split_ifs <;> rfl

/-- The hook and the timers leave the frequency alone. -/
theorem sched_cpuFreq (m : Sched) (e : SchedEvent) : (m.after e).st.cpuFreq = m.st.cpuFreq := by
  cases e with
  | schedule cpu preemptActive signalPending next =>
    cases hcurr : m.curr cpu with
    | none => simp only [Sched.after, hcurr]
    | some prev =>
      have hdeact : (m.deactivate prev preemptActive signalPending).st.cpuFreq = m.st.cpuFreq := by
        rw [Sched.deactivate]
        split_ifs <;> rfl
      simp only [Sched.after, hcurr, Sched.switchTo]
      split_ifs
      · exact hdeact
      · simp only [switchInLoop_eq, switchIn_cpuFreq, switchOut]
        split_ifs <;> exact hdeact
  | budgetExpiry t =>
    simp only [Sched.after, budgetTimerLoop_eq]
    rfl
  | setState cpu state =>
    cases hcurr : m.curr cpu with
    | none => simp only [Sched.after, hcurr]
    | some t =>
      simp only [Sched.after, hcurr]
      rfl
  | _ => rfl

/-- Only a thread that asks changes the frequency. -/
theorem pm_cpuFreq (m : PmSched) (hask : ∀ cpu, e ≠ .ask cpu) :
    (m.after e).st.cpuFreq = m.st.cpuFreq := by
  cases e with
  | call cpu preemptActive signalPending next =>
    cases hcurr : m.curr cpu with
    | none => simp only [PmSched.after, hcurr]
    | some prev =>
      simp only [PmSched.after, hcurr]
      exact sched_cpuFreq m.toSched _
  | again cpu preemptActive signalPending next =>
    cases htop : m.top cpu with
    | none => simp only [PmSched.after, htop]
    | some x =>
      simp only [PmSched.after, htop]
      exact sched_cpuFreq m.toSched _
  | ask cpu => exact absurd rfl (hask cpu)
  | other e => exact sched_cpuFreq m.toSched e
  | leave cpu =>
    cases htop : m.top cpu with
    | none => simp only [PmSched.after, htop]
    | some x =>
      simp only [PmSched.after, htop]
      split_ifs <;> rfl
  | _ cpu =>
    cases htop : m.top cpu with
    | none => simp only [PmSched.after, htop]
    | some x => simp only [PmSched.after, htop]

/-- A CPU that runs nothing stays that way. -/
theorem sched_idle {m : Sched} {e : SchedEvent} {c : Fin maxCpu} (h : m.curr c = none)
    (hcan : m.Can e) : (m.after e).curr c = none := by
  cases e with
  | schedule cpu preemptActive signalPending next =>
    obtain ⟨prev, hprev, -, -⟩ := hcan
    have hne : c ≠ cpu := by
      rintro rfl
      exact absurd (h.symm.trans hprev) (Option.some_ne_none prev).symm
    simp only [Sched.after, hprev]
    rw [Sched.switchTo_curr_of_ne _ _ _ hne, deactivate_same.1]
    exact h
  | setState cpu state =>
    cases hcurr : m.curr cpu with
    | none =>
      simp only [Sched.after, hcurr]
      exact h
    | some t =>
      simp only [Sched.after, hcurr]
      exact h
  | _ => exact h

theorem pm_idle {c : Fin maxCpu} (h : m.curr c = none) (hcan : m.Can e) :
    (m.after e).curr c = none := by
  cases e with
  | call cpu preemptActive signalPending next =>
    obtain ⟨prev, hprev, hrest⟩ := hcan
    have hidle := sched_idle h (e := .schedule cpu preemptActive signalPending next)
      ⟨prev, hprev, hrest⟩
    simp only [PmSched.after, hprev]
    exact hidle
  | again cpu preemptActive signalPending next =>
    obtain ⟨hsched, t, fr, rest, htop, -⟩ := hcan
    simp only [PmSched.after, htop]
    exact sched_idle h hsched
  | other e => exact sched_idle h hcan.1
  | leave cpu =>
    obtain ⟨t, fr, rest, htop, -⟩ := hcan
    simp only [PmSched.after, htop]
    split_ifs <;> exact h
  | _ cpu =>
    obtain ⟨t, fr, rest, htop, -⟩ := hcan
    simp only [PmSched.after, htop]
    exact h

/-- A thread that asks is not the only one with a budget. -/
theorem PmInv.asks (h : PmInv m) {t : Tid} (hcurr : m.curr cpu = some t)
    (hcan : m.Can (.ask cpu)) : OtherReserved m.st t := by
  obtain ⟨u, fr, rest, htop, hpc, -⟩ := hcan
  obtain ⟨hcurr', hstack⟩ := top_spec htop
  obtain rfl : t = u := Option.some.inj (hcurr.symm.trans hcurr')
  have hframe := h.frames t fr (by rw [hstack]; exact List.mem_cons_self)
  exact hframe.flag (hframe.behind (by rw [hpc]; exact Pc.noConfusion))

end Frames

/-- **A task never asks for its own frequency.**  If `r` is the only thread with a reservation, then in
every run `r` never gets to `set_pmclock_freq`, on whatever CPU it runs.  With one CPU no step changes
the frequency while `r` has the CPU: it runs at the frequency it finds. -/
theorem reserved_never_asks {r : Tid} {m₀ m : PmSched} (h₀ : AllOutside m₀)
    (honly : ∀ u, (m₀.st.task u).isBudgetSet = true → u = r) (hrun : PmRun m₀ m) :
    (∀ cpu, m.curr cpu = some r → ¬ m.Can (.ask cpu)) ∧
    ((∀ c, c ≠ 0 → m₀.curr c = none) → m.curr 0 = some r →
      ∀ e, m.Can e → (m.after e).st.cpuFreq = m.st.cpuFreq) := by
  obtain ⟨hinv, hstatic⟩ := PmInv.run h₀ hrun
  have hnever : ∀ cpu, m.curr cpu = some r → ¬ m.Can (.ask cpu) := by
    intro cpu hcurr hcan
    obtain ⟨u, hne, hset⟩ := hinv.asks hcurr hcan
    exact hne (honly u ((hstatic u).isBudgetSet.symm.trans hset))
  refine ⟨hnever, fun hone hcurr e hcan => pm_cpuFreq m ?_⟩
  have hidle : ∀ c, c ≠ 0 → m.curr c = none := by
    refine Reach.inv (I := fun m => ∀ c, c ≠ 0 → m.curr c = none) (E := fun _ => True) ?_ ?_ hrun
    · rintro m rfl
      exact hone
    · exact fun m e hm hok c hc => pm_idle (hm c hc) hok
  -- the thread that asks is on a CPU, so it is `r`
  rintro cpu rfl
  by_cases hcpu : cpu = 0
  · subst hcpu
    exact hnever 0 hcurr hcan
  · obtain ⟨t, fr, rest, htop, -⟩ := hcan
    exact absurd ((hidle cpu hcpu).symm.trans (top_spec htop).1) (Option.some_ne_none t).symm

/-- A thread 1 that is to run at 1 GHz, on a CPU that idles at 500 MHz (thread 0). -/
def slowIdle : PmSched where
  st := { bootState [0, 1] .pmClock with
    task := fun t => { newTask t with
      isBudgetSet := decide (t = 1), budgetTime := ⟨1, 0⟩, timePeriod := ⟨2, 0⟩
      pmclockFreq := 1000000 }
    cpuFreq := 500000 }
  curr := fun cpu => if cpu = 0 then some 0 else none
  onRq := fun t => decide (t ≤ 1)
  stack := fun _ => []
  isFreqLockTaken := false

/-- Only the first CPU runs anything. -/
theorem slowIdle_call {m : PmSched} {t next : Tid} {preemptActive : Bool} (hcurr : m.curr 0 = some t)
    (hidle : ∀ c, c ≠ 0 → m.curr c = none)
    (hrq : (m.deactivate t preemptActive false).onRq next = true) :
    m.Can (.call 0 preemptActive false next) := by
  refine ⟨t, hcurr, hrq, fun c hc h => ?_⟩
  exact absurd ((hidle c hc).symm.trans h) (Option.some_ne_none next).symm

/-- The thread is switched in, and its whole slice goes by at 500 MHz. -/
theorem reserved_never_asks_slow : ∃ m, PmRun slowIdle m ∧ m.curr 0 = some 1 ∧
    m.st.cpuFreq = 500000 ∧ (m.st.task 1).pmclockFreq = 1000000 ∧
    ∀ e, m.Can e → (m.after e).st.cpuFreq = 500000 := by
  have hrun : PmRun slowIdle (slowIdle.after (.call 0 false false 1)) :=
    .step (.start rfl) (slowIdle_call rfl (fun c hc => if_neg hc) rfl) rfl
  have honly : ∀ u, (slowIdle.st.task u).isBudgetSet = true → u = 1 := by
    intro u hu
    exact of_decide_eq_true hu
  refine ⟨_, hrun, rfl, rfl, rfl, fun e hcan => ?_⟩
  exact (reserved_never_asks ⟨fun _ => rfl, rfl⟩ honly hrun).2 (fun c hc => if_neg hc) rfl e hcan

/-- `is_freq_lock_taken` is set only while some thread is going to clear it. -/
theorem freqLock_held {m₀ m : PmSched} (h₀ : AllOutside m₀) (hrun : PmRun m₀ m)
    (htaken : m.isFreqLockTaken = true) : Held m.stack := (PmInv.run h₀ hrun).1.held htaken

/-- The idle thread is preempted by thread 1, preempts it in turn and asks for its frequency. -/
theorem freqLock_held_slow : ∃ m, PmRun slowIdle m ∧ m.isFreqLockTaken = true ∧ Held m.stack := by
  have hrun : PmRun slowIdle ((((slowIdle.after (.call 0 false false 1)).after
      (.call 0 true false 0)).after (.leave 0)).after (.lock 0)) := by
    refine .step (.step (.step (.step (.start rfl) (a := .call 0 false false 1) ?_ rfl)
      (a := .call 0 true false 0) ?_ rfl) (a := .leave 0) ?_ rfl) (a := .lock 0) ?_ rfl
    · exact slowIdle_call rfl (fun c hc => if_neg hc) rfl
    · refine slowIdle_call rfl (fun c hc => ?_) rfl
      show Function.update slowIdle.curr 0 (some 1) c = none
      rw [Function.update_of_ne hc]
      exact if_neg hc
    · exact ⟨0, _, _, rfl, rfl, rfl⟩
    · exact ⟨0, _, _, rfl, rfl, trivial⟩
  exact ⟨_, hrun, rfl, freqLock_held ⟨fun _ => rfl, rfl⟩ hrun rfl⟩

end RtSched
