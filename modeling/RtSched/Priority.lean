import RtSched.Base.Loop
import RtSched.Task

/-!
# Real-time priorities (`kernel/sched.c`, `kernel/sched_rt.c`)

`set_rt_priorities` and `set_rt_priorities_per_cpu` number the tasks of a list and hand each number
to `sched_setscheduler_nocheck`; the scheduler's own scale is the other way round (`normal_prio`),
and `pick_next_rt_entity` takes the lowest queue.

* `schedSetscheduler`, `setThreadPriority`, `setRtPriorities`, `setRtPrioritiesPerCpu`;
* `pickNextRtEntity_prefers`: of two runnable tasks the one with the smaller priority value runs;
* a task that is already `SCHED_FIFO` keeps the priority the scheduler uses
  (`setThreadPriority_of_fifo`);
* `setRtPriorities_rateMonotonic_iff`: the numbering grows with the period, so the order is rate
  monotonic only when there is a single period.
-/

namespace RtSched

open LinkRing

/-- `MAX_USER_RT_PRIO`. -/
def maxUserRtPrio : ℤ := 100

/-- `MAX_RT_PRIO`. -/
def maxRtPrio : ℤ := maxUserRtPrio

/-- `rt_policy`. -/
def rtPolicy : Policy → Bool
  | .fifo | .rr => true
  | _ => false

/-- `normal_prio`. -/
def normalPrio (p : TaskStruct) : ℤ :=
  if rtPolicy p.policy then maxRtPrio - 1 - p.rtPriority else p.staticPrio

/-- `rt_mutex_getprio`. -/
def rtMutexGetprio (p : TaskStruct) : ℤ :=
  match p.topPiWaiter with
  | none => p.normalPrio
  | some w => min w p.normalPrio

/-- `__setscheduler`. -/
def setscheduler (p : TaskStruct) (policy : Policy) (prio : ℤ) : TaskStruct :=
  let p := { p with policy := policy, rtPriority := prio }
  let p := { p with normalPrio := normalPrio p }
  { p with prio := rtMutexGetprio p }

/-- `sched_setscheduler_nocheck`, i.e. `__sched_setscheduler` with `user` false: the task and the
return value. -/
def schedSetscheduler (p : TaskStruct) (policy : Policy) (schedPriority : ℤ) : TaskStruct × ℤ :=
  if schedPriority < 0 ∨ p.mm = true ∧ schedPriority > maxUserRtPrio - 1 ∨
      p.mm = false ∧ schedPriority > maxRtPrio - 1 then (p, -einval)
  else if rtPolicy policy ≠ decide (schedPriority ≠ 0) then (p, -einval)
  -- nothing to change: `prio` and `normal_prio` stay as they are
  else if policy = p.policy ∧ (rtPolicy policy = false ∨ schedPriority = p.rtPriority) then (p, 0)
  else (setscheduler { p with schedResetOnFork := false } policy schedPriority, 0)

/-- The body of the inner loop of `set_rt_priorities`, for one thread. -/
def setThreadPriority (rtPrio : ℤ) (p : TaskStruct) : TaskStruct :=
  -- the new value is in place before `__sched_setscheduler` looks for a change
  let p := { p with rtPriority := rtPrio }
  let p := (schedSetscheduler p .fifo rtPrio).1
  { p with needResched := true }

/-- The variables of the loop of `set_rt_priorities`. -/
structure PrioAcc where
  rtPrio : ℤ
  prevDeadline : Timespec
  st : KState

/-- One turn of the loop of `set_rt_priorities`. -/
def rtPriorityStep (a : PrioAcc) (curr : Tid) : PrioAcc :=
  let rtPrio :=
    if timespecCompare (a.st.task curr).timePeriod a.prevDeadline > 0 then a.rtPrio + 1 else a.rtPrio
  let s := a.st.eachThread curr (setThreadPriority rtPrio)
  -- the cap comes after the threads have got their number
  { rtPrio := if rtPrio > 99 then 99 else rtPrio
    prevDeadline := (s.task curr).timePeriod
    st := s }

/-- The loop of `set_rt_priorities` over the listed tasks. -/
def numberTasks (s : KState) (list : List Tid) : KState :=
  (list.foldl rtPriorityStep ⟨0, ⟨0, 0⟩, s⟩).st

/-- `set_rt_priorities`. -/
def setRtPriorities (fuel : ℕ) (s : KState) : Call KState (KState × ℤ) :=
  if s.periodicTasksSize ≤ 0 then pure (s, -1)
  else do
    let list ← s.periodicTasks fuel
    pure (numberTasks s list, 0)

/-- `set_rt_priorities_per_cpu`. -/
def setRtPrioritiesPerCpu (fuel cpu : ℕ) (s : KState) : Call KState (KState × ℤ) :=
  if s.perCpuListSize cpu ≤ 0 then pure (s, -1)
  else do
    let list ← s.perCpuTasks fuel cpu
    pure (numberTasks s list, 0)

/-! ### Which task the scheduler prefers -/

/-- `pick_next_rt_entity`: the first entry of the lowest non-empty queue. -/
def pickNextRtEntity (queue : ℕ → List Tid) : ℕ → ℕ → Option Tid
  | 0, _ => none
  | n + 1, idx =>
      match queue idx with
      | t :: _ => some t
      | [] => pickNextRtEntity queue n (idx + 1)

/-- The scan stops at the first queue that is not empty. -/
theorem pickNextRtEntity_eq {queue : ℕ → List Tid} {n idx p : ℕ} (hidx : idx ≤ p)
    (hn : p < idx + n) (hempty : ∀ i, i < p → queue i = []) (hne : queue p ≠ []) :
    pickNextRtEntity queue n idx = (queue p).head? := by
  induction n generalizing idx with
  | zero => omega
  | succ n ih =>
    rw [pickNextRtEntity]
    rcases hidx.eq_or_lt with rfl | hlt
    · cases hq : queue idx with
      | nil => exact absurd hq hne
      | cons t rest => rfl
    · rw [hempty idx hlt]
      exact ih hlt (by omega)

/-- The queues that hold exactly two runnable tasks, each at its priority value. -/
def twoQueues (a b : Tid) (pa pb : ℕ) : ℕ → List Tid :=
  fun idx => (if idx = pa then [a] else []) ++ (if idx = pb then [b] else [])

/-- Of two runnable real-time tasks, the one with the smaller priority value is picked. -/
theorem pickNextRtEntity_prefers {a b : Tid} {pa pb : ℕ} (hab : pa < pb) {n idx : ℕ}
    (hidx : idx ≤ pa) (hn : pa < idx + n) :
    pickNextRtEntity (twoQueues a b pa pb) n idx = some a := by
  have hempty : ∀ i, i < pa → twoQueues a b pa pb i = [] := by
    intro i hi
    simp [twoQueues, hi.ne, (hi.trans hab).ne]
  have hself : twoQueues a b pa pb pa = [a] := by simp [twoQueues, hab.ne]
  rw [pickNextRtEntity_eq hidx hn hempty (by simp [hself]), hself]
  rfl

/-! ### One thread -/

/-- A legal request that changes something goes through to `__setscheduler`. -/
theorem schedSetscheduler_of_legal {p : TaskStruct} {policy : Policy} {r : ℤ} (h0 : 0 ≤ r)
    (h99 : r ≤ 99) (hrt : rtPolicy policy = decide (r ≠ 0))
    (hne : ¬ (policy = p.policy ∧ (rtPolicy policy = false ∨ r = p.rtPriority))) :
    schedSetscheduler p policy r = (setscheduler { p with schedResetOnFork := false } policy r, 0) := by
  have hlegal :
      ¬ (r < 0 ∨ p.mm = true ∧ r > maxUserRtPrio - 1 ∨ p.mm = false ∧ r > maxRtPrio - 1) := by
    unfold maxRtPrio maxUserRtPrio
    omega
  simp only [schedSetscheduler, if_neg hlegal, hrt, ne_eq, not_true_eq_false, if_false]
  rw [if_neg (by rwa [hrt] at hne)]

/-- All that `sched_setscheduler_nocheck` can do to a task. -/
theorem schedSetscheduler_cases (p : TaskStruct) (policy : Policy) (r : ℤ) :
    (schedSetscheduler p policy r).1 = p ∨
    ¬ (policy = p.policy ∧ (rtPolicy policy = false ∨ r = p.rtPriority)) ∧
      (schedSetscheduler p policy r).1 = setscheduler { p with schedResetOnFork := false } policy r := by
  unfold schedSetscheduler
  split_ifs with h1 h2 h3
  · exact Or.inl rfl
  · exact Or.inl rfl
  · exact Or.inl rfl
  · exact Or.inr ⟨h3, rfl⟩

/-- A thread that is already `SCHED_FIFO` keeps the priority the scheduler uses: the number was
written before `__sched_setscheduler` compares it, so there is "nothing to change". -/
theorem setThreadPriority_of_fifo {p : TaskStruct} (hp : p.policy = .fifo) (r : ℤ) :
    setThreadPriority r p = { p with rtPriority := r, needResched := true } := by
  rcases schedSetscheduler_cases { p with rtPriority := r } .fifo r with h | ⟨h, -⟩
  · simp only [setThreadPriority, h]
  · exact absurd ⟨hp.symm, Or.inr rfl⟩ h

/-- A legal number turns a thread of another policy into a `SCHED_FIFO` one of that priority. -/
theorem setThreadPriority_of_ne_fifo {p : TaskStruct} (hp : p.policy ≠ .fifo) {r : ℤ} (h1 : 1 ≤ r)
    (h2 : r ≤ 99) : (setThreadPriority r p).policy = .fifo ∧ (setThreadPriority r p).rtPriority = r ∧
      (setThreadPriority r p).normalPrio = maxRtPrio - 1 - r := by
  have h := @schedSetscheduler_of_legal { p with rtPriority := r } .fifo r (by omega) h2
    (by simp [rtPolicy]; omega) (fun h => hp h.1.symm)
  simp only [setThreadPriority, h]
  exact ⟨rfl, rfl, rfl⟩

theorem setThreadPriority_prioOnly (r : ℤ) (p : TaskStruct) : PrioOnly p (setThreadPriority r p) := by
  rcases schedSetscheduler_cases { p with rtPriority := r } .fifo r with h | ⟨-, h⟩ <;>
    simp only [setThreadPriority, h] <;> rfl

theorem rtPriorityStep_update (a : PrioAcc) (t : Tid) :
    TaskUpdate PrioOnly a.st (rtPriorityStep a t).st :=
  taskUpdate_eachThread PrioOnly.refl (setThreadPriority_prioOnly _)

/-- Numbering writes priorities only. -/
theorem numberTasks_update (s : KState) (list : List Tid) :
    TaskUpdate PrioOnly s (numberTasks s list) :=
  taskUpdate_foldl PrioOnly.refl PrioOnly.trans PrioAcc.st rtPriorityStep_update list ⟨0, ⟨0, 0⟩, s⟩

theorem numberTasks_cpuFreq (s : KState) (list : List Tid) :
    (numberTasks s list).cpuFreq = s.cpuFreq := by
  have hfold : ∀ acc : PrioAcc, (list.foldl rtPriorityStep acc).st.cpuFreq = acc.st.cpuFreq := by
    induction list with
    | nil => exact fun _ => rfl
    | cons t list ih => exact fun acc => ih (rtPriorityStep acc t)
  exact hfold ⟨0, ⟨0, 0⟩, s⟩

/-! ### The order of the numbers -/

/-- The tasks of a list are `SCHED_FIFO` at the priority recorded for them, shorter periods are
preferred, and equal periods are not distinguished. -/
structure RateMonotonic (s : KState) (list : List Tid) : Prop where
  fifo : ∀ a ∈ list, (s.task a).policy = .fifo ∧
    (s.task a).normalPrio = maxRtPrio - 1 - (s.task a).rtPriority
  shorter : ∀ a ∈ list, ∀ b ∈ list,
    timespecCompare (s.task a).timePeriod (s.task b).timePeriod < 0 →
      (s.task a).normalPrio < (s.task b).normalPrio
  equal : ∀ a ∈ list, ∀ b ∈ list, (s.task a).timePeriod = (s.task b).timePeriod →
    (s.task a).normalPrio = (s.task b).normalPrio

/-- A list as the kernel keeps it: sorted by period, every period positive. -/
structure KeptSorted (s : KState) (list : List Tid) : Prop where
  sorted : list.Pairwise fun a b => timespecCompare (s.task a).timePeriod (s.task b).timePeriod ≤ 0
  pos : ∀ t ∈ list, 0 < timespecCompare (s.task t).timePeriod ⟨0, 0⟩

/-- `SCHED_FIFO` with the scheduler's priority `v`. -/
def FifoAt (v : ℤ) (p : TaskStruct) : Prop := p.policy = .fifo ∧ p.normalPrio = v

theorem FifoAt.setThreadPriority {v : ℤ} {p : TaskStruct} (h : FifoAt v p) (r : ℤ) :
    FifoAt v (setThreadPriority r p) := by
  rw [setThreadPriority_of_fifo h.1]
  exact h

/-- Later turns of the loop do not move a `SCHED_FIFO` task. -/
theorem fifoAt_step {v : ℤ} {u : Tid} (a : PrioAcc) (t : Tid) (h : FifoAt v (a.st.task u)) :
    FifoAt v ((rtPriorityStep a t).st.task u) := by
  rw [rtPriorityStep, KState.eachThread_task]
  by_cases hu : u ∈ a.st.threads t
  · rw [if_pos hu]
    exact h.setThreadPriority _
  · rw [if_neg hu]
    exact h

theorem fifoAt_foldl {v : ℤ} {u : Tid} (list : List Tid) (a : PrioAcc)
    (h : FifoAt v (a.st.task u)) : FifoAt v ((list.foldl rtPriorityStep a).st.task u) := by
  induction list generalizing a with
  | nil => exact h
  | cons t list ih => exact ih _ (fifoAt_step a t h)

/-- The loop has numbered the task 1. -/
def FirstAt (p : TaskStruct) : Prop := FifoAt 98 p ∧ p.rtPriority = 1

/-- Tasks the loop has numbered 1, or not reached yet. -/
def FirstOrFresh (p : TaskStruct) : Prop := FirstAt p ∨ p.policy ≠ .fifo

theorem FirstOrFresh.setThreadPriority_one {p : TaskStruct} (h : FirstOrFresh p) :
    FirstAt (setThreadPriority 1 p) := by
  rcases h with h | h
  · refine ⟨h.1.setThreadPriority 1, ?_⟩
    rw [setThreadPriority_of_fifo h.1.1]
  · obtain ⟨h1, h2, h3⟩ := setThreadPriority_of_ne_fifo h le_rfl (by norm_num : (1 : ℤ) ≤ 99)
    exact ⟨⟨h1, h3⟩, h2⟩

/-- What the loop holds while all periods met so far are `P`. -/
structure FirstRun (P : Timespec) (s : KState) (all done : List Tid) (a : PrioAcc) : Prop where
  acc : done = [] ∧ a.rtPrio = 0 ∧ a.prevDeadline = ⟨0, 0⟩ ∨ a.rtPrio = 1 ∧ a.prevDeadline = P
  period : ∀ t, (a.st.task t).timePeriod = (s.task t).timePeriod
  fresh : ∀ t ∈ all, FirstOrFresh (a.st.task t)
  first : ∀ t ∈ done, FirstAt (a.st.task t)

theorem firstRun_step {P : Timespec} {s : KState} {all done : List Tid} {a : PrioAcc} {t : Tid}
    (hP : 0 < timespecCompare P ⟨0, 0⟩) (ht : t ∈ all) (htP : (s.task t).timePeriod = P)
    (h : FirstRun P s all done a) : FirstRun P s all (done ++ [t]) (rtPriorityStep a t) := by
  have hnum : (if timespecCompare (a.st.task t).timePeriod a.prevDeadline > 0 then a.rtPrio + 1
      else a.rtPrio) = 1 := by
    rw [h.period, htP]
    rcases h.acc with ⟨-, h1, h2⟩ | ⟨h1, h2⟩
    · rw [h2, if_pos hP, h1]; norm_num
    · rw [h2, timespecCompare_eq_zero_iff.2 rfl, if_neg (lt_irrefl _), h1]
  have hper : ∀ u, ((rtPriorityStep a t).st.task u).timePeriod = (s.task u).timePeriod := by
    intro u
    rw [← h.period u]
    exact ((rtPriorityStep_update a t).task u).reg.timePeriod
  have hst : ∀ u, (rtPriorityStep a t).st.task u =
      if u ∈ a.st.threads t then setThreadPriority 1 (a.st.task u) else a.st.task u := by
    intro u
    simp only [rtPriorityStep, KState.eachThread_task, hnum]
  refine ⟨Or.inr ⟨?_, ?_⟩, hper, fun u hu => ?_, fun u hu => ?_⟩
  · simp only [rtPriorityStep, hnum]; norm_num
  · exact (hper t).trans htP
  · rw [hst]
    split_ifs
    · exact Or.inl (h.fresh u hu).setThreadPriority_one
    · exact h.fresh u hu
  · rcases List.mem_append.1 hu with hu | hu
    · rw [hst]
      split_ifs
      · exact FirstOrFresh.setThreadPriority_one (Or.inl (h.first u hu))
      · exact h.first u hu
    · rw [List.mem_singleton.1 hu, hst, if_pos (a.st.self_mem_threads t)]
      exact (h.fresh t ht).setThreadPriority_one

theorem firstRun_foldl {P : Timespec} {s : KState} {all : List Tid}
    (hP : 0 < timespecCompare P ⟨0, 0⟩) {l : List Tid} {a : PrioAcc}
    (hl : ∀ t ∈ l, t ∈ all ∧ (s.task t).timePeriod = P) (h : FirstRun P s all [] a) :
    FirstRun P s all l (l.foldl rtPriorityStep a) := by
  refine Loop.foldl_inv h fun done t rest a hlist h => ?_
  have ht : t ∈ l := by
    rw [hlist]
    exact List.mem_append_right _ List.mem_cons_self
  exact firstRun_step hP (hl t ht).1 (hl t ht).2 h

theorem firstRun_start {P : Timespec} {s : KState} {all : List Tid}
    (hn : ∀ t ∈ all, (s.task t).policy = .normal) : FirstRun P s all [] ⟨0, ⟨0, 0⟩, s⟩ :=
  ⟨Or.inl ⟨rfl, rfl, rfl⟩, fun _ => rfl, fun t ht => Or.inr (by rw [hn t ht]; decide), by simp⟩

/-- Equal periods are numbered alike. -/
theorem rateMonotonic_of_same {s : KState} {list : List Tid} (hk : KeptSorted s list)
    (hn : ∀ t ∈ list, (s.task t).policy = .normal)
    (hsame : ∀ a ∈ list, ∀ b ∈ list, (s.task a).timePeriod = (s.task b).timePeriod) :
    RateMonotonic (numberTasks s list) list := by
  have hfirst : ∀ a ∈ list, FirstAt ((numberTasks s list).task a) := by
    intro a ha
    have hrun := firstRun_foldl (hk.pos a ha) (fun t ht => ⟨ht, hsame t ht a ha⟩)
      (firstRun_start hn)
    exact hrun.first a ha
  have hper := fun t => ((numberTasks_update s list).task t).reg.timePeriod
  refine ⟨fun a ha => ⟨(hfirst a ha).1.1, ?_⟩, fun a ha b hb hlt => ?_, fun a ha b hb _ => ?_⟩
  · rw [(hfirst a ha).1.2, (hfirst a ha).2]
    rfl
  · rw [hper, hper, timespecCompare_eq_zero_iff.2 (hsame a ha b hb)] at hlt
    exact absurd hlt (lt_irrefl _)
  · rw [(hfirst a ha).1.2, (hfirst b hb).1.2]

/-- A sorted list has a single period, or a first task of a longer one. -/
theorem exists_longer {s : KState} {e : Tid} {rest : List Tid} (hk : KeptSorted s (e :: rest)) :
    (∀ t ∈ e :: rest, (s.task t).timePeriod = (s.task e).timePeriod) ∨
    ∃ l b r, rest = l ++ b :: r ∧ (∀ t ∈ l, (s.task t).timePeriod = (s.task e).timePeriod) ∧
      0 < timespecCompare (s.task b).timePeriod (s.task e).timePeriod := by
  induction rest with
  | nil => exact Or.inl (by simp)
  | cons c rest ih =>
    by_cases hc : (s.task c).timePeriod = (s.task e).timePeriod
    · have hsub : (e :: rest).Sublist (e :: c :: rest) := (List.sublist_cons_self c rest).cons_cons e
      rcases ih ⟨hk.sorted.sublist hsub, fun t ht => hk.pos t (hsub.subset ht)⟩ with h | h
      · refine Or.inl fun t ht => ?_
        rcases List.mem_cons.1 ht with rfl | ht
        · rfl
        · rcases List.mem_cons.1 ht with rfl | ht
          · exact hc
          · exact h t (List.mem_cons_of_mem _ ht)
      · obtain ⟨l, b, r, rfl, hl, hb⟩ := h
        refine Or.inr ⟨c :: l, b, r, rfl, fun t ht => ?_, hb⟩
        rcases List.mem_cons.1 ht with rfl | ht
        · exact hc
        · exact hl t ht
    · refine Or.inr ⟨[], c, rest, rfl, by simp, ?_⟩
      rw [← timespecCompare_neg_symm]
      refine lt_of_le_of_ne ((List.pairwise_cons.1 hk.sorted).1 c List.mem_cons_self) fun h0 => ?_
      exact hc (timespecCompare_eq_zero_iff.1 h0).symm

/-- The first task of a longer period is numbered 2, so the scheduler puts it at 97, or leaves it
where the number 1 of its thread group put it. -/
theorem fifoAt_second {P : Timespec} {s : KState} {all done : List Tid} {a : PrioAcc} {b : Tid}
    (h : FirstRun P s all done a) (hdone : done ≠ []) (hb : b ∈ all)
    (hbP : 0 < timespecCompare (s.task b).timePeriod P) :
    ∃ v ≤ 98, FifoAt v ((rtPriorityStep a b).st.task b) := by
  obtain ⟨h1, h2⟩ : a.rtPrio = 1 ∧ a.prevDeadline = P := by
    rcases h.acc with ⟨h0, -⟩ | h
    · exact absurd h0 hdone
    · exact h
  have hst : (rtPriorityStep a b).st.task b = setThreadPriority 2 (a.st.task b) := by
    simp only [rtPriorityStep, KState.eachThread_task, if_pos (a.st.self_mem_threads b), h.period, h2,
      if_pos hbP, h1]
    norm_num
  rw [hst]
  rcases h.fresh b hb with hf | hf
  · exact ⟨98, le_rfl, hf.1.setThreadPriority 2⟩
  · obtain ⟨h3, -, h4⟩ := setThreadPriority_of_ne_fifo hf (by norm_num : (1 : ℤ) ≤ 2)
      (by norm_num)
    exact ⟨97, by norm_num, h3, h4⟩

/-- Two different periods are numbered against the rate-monotonic order. -/
theorem same_of_rateMonotonic {s : KState} {list : List Tid} (hk : KeptSorted s list)
    (hn : ∀ t ∈ list, (s.task t).policy = .normal)
    (hrm : RateMonotonic (numberTasks s list) list) :
    ∀ a ∈ list, ∀ b ∈ list, (s.task a).timePeriod = (s.task b).timePeriod := by
  cases list with
  | nil => simp
  | cons e rest =>
    rcases exists_longer hk with h | ⟨l, b, r, rfl, hl, hbP⟩
    · exact fun a ha b hb => (h a ha).trans (h b hb).symm
    exfalso
    have hfirst : ∀ t ∈ e :: l, t ∈ e :: (l ++ b :: r) ∧
        (s.task t).timePeriod = (s.task e).timePeriod := by
      intro t ht
      rcases List.mem_cons.1 ht with rfl | ht
      · exact ⟨List.mem_cons_self, rfl⟩
      · exact ⟨by simp [ht], hl t ht⟩
    have hrun := firstRun_foldl (hk.pos e List.mem_cons_self) hfirst (firstRun_start hn)
    have hnum : numberTasks s (e :: (l ++ b :: r)) = (r.foldl rtPriorityStep (rtPriorityStep
        ((e :: l).foldl rtPriorityStep ⟨0, ⟨0, 0⟩, s⟩) b)).st := by
      rw [numberTasks, ← List.cons_append, List.foldl_append, List.foldl_cons]
    have he : FifoAt 98 ((numberTasks s (e :: (l ++ b :: r))).task e) := by
      rw [hnum]
      exact fifoAt_foldl r _ (fifoAt_step _ b (hrun.first e (by simp)).1)
    obtain ⟨v, hv, hb⟩ := fifoAt_second hrun (by simp) (by simp) hbP
    have hb' : FifoAt v ((numberTasks s (e :: (l ++ b :: r))).task b) := by
      rw [hnum]
      exact fifoAt_foldl r _ hb
    have hper := fun t => ((numberTasks_update s (e :: (l ++ b :: r))).task t).reg.timePeriod
    have hlt := hrm.shorter e List.mem_cons_self b (by simp)
    rw [hper e, hper b, timespecCompare_neg_symm, he.2, hb'.2] at hlt
    have := hlt hbP
    omega

/-- The numbering is rate monotonic exactly when all listed tasks have one period. -/
theorem rateMonotonic_iff {s : KState} {list : List Tid} (hk : KeptSorted s list)
    (hn : ∀ t ∈ list, (s.task t).policy = .normal) :
    RateMonotonic (numberTasks s list) list ↔
      ∀ a ∈ list, ∀ b ∈ list, (s.task a).timePeriod = (s.task b).timePeriod :=
  ⟨same_of_rateMonotonic hk hn, rateMonotonic_of_same hk hn⟩

/-- The call numbers the listed tasks, whichever list it is made for. -/
theorem setRtPriorities_eq {s : KState} {list : List Tid} {fuel : ℕ} (hf : list.length < fuel)
    (ht : Traverses s.links .head (list.map .entry)) (hsize : s.periodicTasksSize = list.length) :
    ∃ r, setRtPriorities fuel s = .ok (numberTasks s list, r) := by
  rw [setRtPriorities, hsize, s.periodicTasks_eq ht, if_pos hf]
  cases list with
  | nil => exact ⟨-1, rfl⟩
  | cons t list => exact ⟨0, rfl⟩

theorem setRtPrioritiesPerCpu_eq {s : KState} {cpu : ℕ} {list : List Tid} {fuel : ℕ}
    (hf : list.length < fuel) (ht : Traverses s.cpuLinks (.head cpu) (list.map .entry))
    (hsize : s.perCpuListSize cpu = list.length) :
    ∃ r, setRtPrioritiesPerCpu fuel cpu s = .ok (numberTasks s list, r) := by
  rw [setRtPrioritiesPerCpu, hsize, s.perCpuTasks_eq ht, if_pos hf]
  cases list with
  | nil => exact ⟨-1, rfl⟩
  | cons t list => exact ⟨0, rfl⟩

/-- `list` is the global list of `s`. -/
def IsGlobalList (s : KState) (list : List Tid) : Prop :=
  Traverses s.links .head (list.map .entry) ∧ s.periodicTasksSize = list.length

/-- `list` is the list of CPU `cpu` of `s`. -/
def IsCpuList (s : KState) (cpu : ℕ) (list : List Tid) : Prop :=
  Traverses s.cpuLinks (.head cpu) (list.map .entry) ∧ s.perCpuListSize cpu = list.length

/-- On a sorted list of `SCHED_NORMAL` tasks, `set_rt_priorities` (and its per-CPU twin) ends in a
rate-monotonic order exactly when all listed tasks have one period: the numbers grow with the
period, and a larger number is preferred. -/
theorem setRtPriorities_rateMonotonic_iff (s : KState) (list : List Tid) (fuel : ℕ)
    (hf : list.length < fuel) (hk : KeptSorted s list)
    (hn : ∀ t ∈ list, (s.task t).policy = .normal) :
    (IsGlobalList s list → ∃ s' r, setRtPriorities fuel s = .ok (s', r) ∧
      (RateMonotonic s' list ↔
        ∀ a ∈ list, ∀ b ∈ list, (s.task a).timePeriod = (s.task b).timePeriod)) ∧
    ∀ cpu, IsCpuList s cpu list → ∃ s' r, setRtPrioritiesPerCpu fuel cpu s = .ok (s', r) ∧
      (RateMonotonic s' list ↔
        ∀ a ∈ list, ∀ b ∈ list, (s.task a).timePeriod = (s.task b).timePeriod) := by
  constructor
  · rintro ⟨ht, hsize⟩
    obtain ⟨r, hr⟩ := setRtPriorities_eq hf ht hsize
    exact ⟨_, r, hr, rateMonotonic_iff hk hn⟩
  · rintro cpu ⟨ht, hsize⟩
    obtain ⟨r, hr⟩ := setRtPrioritiesPerCpu_eq hf ht hsize
    exact ⟨_, r, hr, rateMonotonic_iff hk hn⟩

/-- Tasks 1 and 2 on the global list and on that of CPU 0, with periods of `p` and `q` seconds. -/
def twoListed (p q : ℤ) : KState :=
  { bootState [1, 2] .noPm with
    task := fun t => { newTask t with timePeriod := if t = 1 then ⟨p, 0⟩ else ⟨q, 0⟩ }
    periodicTasksSize := 2
    links := fun
      | .head => ⟨.node (.entry 1), .node (.entry 2)⟩
      | .entry t => if t = 1 then ⟨.node (.entry 2), .node .head⟩ else ⟨.node .head, .node (.entry 1)⟩
    perCpuListSize := fun _ => 2
    cpuLinks := fun
      | .head _ => ⟨.node (.entry 1), .node (.entry 2)⟩
      | .entry t =>
          if t = 1 then ⟨.node (.entry 2), .node (.head 0)⟩
          else ⟨.node (.head 0), .node (.entry 1)⟩ }

theorem isGlobalList_twoListed (p q : ℤ) : IsGlobalList (twoListed p q) [1, 2] := by
  simp [IsGlobalList, Traverses, twoListed]

theorem isCpuList_twoListed (p q : ℤ) : IsCpuList (twoListed p q) 0 [1, 2] := by
  simp [IsCpuList, Traverses, twoListed]

theorem setRtPriorities_rateMonotonic_iff_equal :
    (∃ s' r, setRtPriorities 3 (twoListed 1 1) = .ok (s', r) ∧ RateMonotonic s' [1, 2]) ∧
    ∃ s' r, setRtPrioritiesPerCpu 3 0 (twoListed 1 1) = .ok (s', r) ∧ RateMonotonic s' [1, 2] := by
  have h := setRtPriorities_rateMonotonic_iff (twoListed 1 1) [1, 2] 3 (by decide)
    ⟨by decide, by decide⟩ (by decide)
  obtain ⟨s₁, r₁, h₁, hrm₁⟩ := h.1 (isGlobalList_twoListed 1 1)
  obtain ⟨s₂, r₂, h₂, hrm₂⟩ := h.2 0 (isCpuList_twoListed 1 1)
  exact ⟨⟨s₁, r₁, h₁, hrm₁.2 (by decide)⟩, ⟨s₂, r₂, h₂, hrm₂.2 (by decide)⟩⟩

/-- With periods of one and two seconds the longer one is preferred. -/
theorem setRtPriorities_not_rateMonotonic :
    ¬ ∀ (s : KState) (list : List Tid) (fuel : ℕ), list.length < fuel → KeptSorted s list →
      (∀ t ∈ list, (s.task t).policy = .normal) → IsGlobalList s list →
      ∃ s' r, setRtPriorities fuel s = .ok (s', r) ∧ RateMonotonic s' list := by
  intro h
  have hk : KeptSorted (twoListed 1 2) [1, 2] := ⟨by decide, by decide⟩
  obtain ⟨s', r, hr, hrm⟩ := h (twoListed 1 2) [1, 2] 3 (by decide) hk (by decide)
    (isGlobalList_twoListed 1 2)
  obtain ⟨r', hr'⟩ := setRtPriorities_eq (by decide : [1, 2].length < 3)
    (isGlobalList_twoListed 1 2).1 (isGlobalList_twoListed 1 2).2
  rw [hr'] at hr
  cases hr
  have hsame := same_of_rateMonotonic hk (by decide) hrm 1 (by decide) 2 (by decide)
  exact absurd hsame (by decide)

end RtSched
