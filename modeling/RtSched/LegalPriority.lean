import RtSched.PriorityRun

/-!
# Which priorities `set_rt_priorities` asks for

`set_rt_priorities` hands the number of each task to `sched_setscheduler_nocheck` and prints what it
returns.  The number is increased before it is used and capped after it, so the cap comes one period
too late: with a hundred different periods the number 100 is asked for, and refused.

* `SetschedulerCall`, `numberTasksCalls`: the loop with a record of its calls.  What it leaves in the
  tasks is what `numberTasks` leaves there (`numberTasksCalls_st`);
* `Recorded.rtPrio`: up to the cap the number is `distinctPeriods`;
* `setRtPriorities_legal_iff`: all calls are legal and accepted exactly if there are at most 99
  different periods and no thread is a stop thread.
-/

namespace RtSched

open LinkRing

/-! ### The calls -/

/-- A call of `sched_setscheduler_nocheck` for `SCHED_FIFO`. -/
structure SetschedulerCall where
  thread : Tid
  schedPriority : ℤ
  retval : ℤ
  deriving DecidableEq, Repr

/-- `sched_setscheduler_nocheck` with the check `p == rq->stop`.  The checks before it return the
same error, so their order does not show. -/
def schedSetschedulerNocheck (stop : Bool) (p : TaskStruct) (policy : Policy) (schedPriority : ℤ) :
    TaskStruct × ℤ :=
  if stop then (p, -einval) else schedSetscheduler p policy schedPriority

/-- The body of the inner loop of `set_rt_priorities`, and the call it makes. -/
def threadCall (stop : Tid → Bool) (rtPrio : ℤ) (t : Tid) (p : TaskStruct) :
    TaskStruct × SetschedulerCall :=
  let p := { p with rtPriority := rtPrio }
  let x := schedSetschedulerNocheck (stop t) p .fifo rtPrio
  ({ x.1 with needResched := true }, ⟨t, rtPrio, x.2⟩)

/-- The variables of the loop, and the calls made so far. -/
structure CallAcc extends PrioAcc where
  calls : List SetschedulerCall

/-- One turn of the loop of `set_rt_priorities`. -/
def rtPriorityCallStep (stop : Tid → Bool) (a : CallAcc) (curr : Tid) : CallAcc :=
  let rtPrio :=
    if timespecCompare (a.st.task curr).timePeriod a.prevDeadline > 0 then a.rtPrio + 1 else a.rtPrio
  let s := { a.st with task := fun u =>
    if u ∈ a.st.threads curr then (threadCall stop rtPrio u (a.st.task u)).1 else a.st.task u }
  { rtPrio := if rtPrio > 99 then 99 else rtPrio
    prevDeadline := (s.task curr).timePeriod
    st := s
    calls := a.calls ++
      (a.st.threads curr).map fun u => (threadCall stop rtPrio u (a.st.task u)).2 }

/-- The loop of `set_rt_priorities` over the listed tasks. -/
def numberTasksCalls (stop : Tid → Bool) (s : KState) (list : List Tid) :
    KState × List SetschedulerCall :=
  let a := list.foldl (rtPriorityCallStep stop) ⟨⟨0, ⟨0, 0⟩, s⟩, []⟩
  (a.st, a.calls)

/-- `set_rt_priorities`, with its calls. -/
def setRtPrioritiesCalls (stop : Tid → Bool) (fuel : ℕ) (s : KState) :
    Call KState ((KState × List SetschedulerCall) × ℤ) :=
  if s.periodicTasksSize ≤ 0 then pure ((s, []), -1)
  else do
    let list ← s.periodicTasks fuel
    pure (numberTasksCalls stop s list, 0)

/-- `set_rt_priorities_per_cpu`, with its calls. -/
def setRtPrioritiesPerCpuCalls (stop : Tid → Bool) (fuel cpu : ℕ) (s : KState) :
    Call KState ((KState × List SetschedulerCall) × ℤ) :=
  if s.perCpuListSize cpu ≤ 0 then pure ((s, []), -1)
  else do
    let list ← s.perCpuTasks fuel cpu
    pure (numberTasksCalls stop s list, 0)

/-- All calls are made with a legal priority and accepted, and the listed tasks are `SCHED_FIFO`. -/
structure AllLegal (list : List Tid) (x : KState × List SetschedulerCall) : Prop where
  legal : ∀ c ∈ x.2, 1 ≤ c.schedPriority ∧ c.schedPriority ≤ maxUserRtPrio - 1
  accepted : ∀ c ∈ x.2, c.retval = 0
  fifo : ∀ t ∈ list, (x.1.task t).policy = .fifo

/-! ### One call -/

section Thread

variable {stop : Tid → Bool} {r : ℤ} {t : Tid} {p : TaskStruct}

theorem schedSetscheduler_fifo_retval (p : TaskStruct) (r : ℤ) :
    (schedSetscheduler p .fifo r).2 = 0 ↔ 1 ≤ r ∧ r ≤ maxUserRtPrio - 1 := by
  have herr : -einval ≠ 0 := by decide
  unfold schedSetscheduler
  split_ifs with hillegal hzero hsame
  · refine iff_of_false herr ?_
    unfold maxRtPrio at hillegal
    rcases hillegal with h | ⟨-, h⟩ | ⟨-, h⟩ <;> omega
  · refine iff_of_false herr ?_
    simp only [rtPolicy, ne_eq, true_eq_decide_iff, not_not] at hzero
    omega
  all_goals
    have hle : ¬ r > maxUserRtPrio - 1 := by
      intro hgt
      cases hmm : p.mm with
      | true => exact hillegal (Or.inr (Or.inl ⟨hmm, hgt⟩))
      | false => exact hillegal (Or.inr (Or.inr ⟨hmm, hgt⟩))
    refine iff_of_true rfl ?_
    simp only [rtPolicy, ne_eq, true_eq_decide_iff, not_not] at hzero
    omega

theorem threadCall_retval : (threadCall stop r t p).2.retval = 0 ↔
    (1 ≤ r ∧ r ≤ maxUserRtPrio - 1) ∧ stop t = false := by
  have herr : -einval ≠ 0 := by decide
  simp only [threadCall, schedSetschedulerNocheck]
  cases stop t with
  | true => exact iff_of_false herr fun h => Bool.noConfusion h.2
  | false =>
    simp only [Bool.false_eq_true, if_false, and_true]
    exact schedSetscheduler_fifo_retval _ r

/-- Without the check of stop threads the body is the one we know. -/
theorem threadCall_of_not_stop (h : stop t = false) :
    (threadCall stop r t p).1 = setThreadPriority r p := by
  simp only [threadCall, schedSetschedulerNocheck, h, Bool.false_eq_true, if_false]
  rfl

/-- A `SCHED_FIFO` thread stays one, stop thread or not. -/
theorem threadCall_of_fifo (h : p.policy = .fifo) :
    (threadCall stop r t p).1 = { p with rtPriority := r, needResched := true } := by
  cases hstop : stop t with
  | true => simp only [threadCall, schedSetschedulerNocheck, hstop, if_true]
  | false => rw [threadCall_of_not_stop hstop, setThreadPriority_of_fifo h]

theorem threadCall_prioOnly : PrioOnly p (threadCall stop r t p).1 := by
  cases hstop : stop t with
  | true =>
    simp only [threadCall, schedSetschedulerNocheck, hstop, if_true]
    rfl
  | false =>
    rw [threadCall_of_not_stop hstop]
    exact setThreadPriority_prioOnly r p

/-- An accepted call makes the thread `SCHED_FIFO`. -/
theorem threadCall_fifo (h : (threadCall stop r t p).2.retval = 0) :
    (threadCall stop r t p).1.policy = .fifo := by
  obtain ⟨⟨h1, h2⟩, hstop⟩ := threadCall_retval.1 h
  by_cases hp : p.policy = .fifo
  · rw [threadCall_of_fifo hp]
    exact hp
  · rw [threadCall_of_not_stop hstop]
    exact (setThreadPriority_of_ne_fifo hp h1 h2).1

end Thread

/-! ### The tasks after the loop -/

/-- Stop threads are shown as `SCHED_FIFO`; where that is so, the record changes nothing. -/
theorem rtPriorityCallStep_toPrioAcc {stop : Tid → Bool} {a : CallAcc} (t : Tid)
    (hstop : ∀ u, stop u = true → (a.st.task u).policy = .fifo) :
    (rtPriorityCallStep stop a t).toPrioAcc = rtPriorityStep a.toPrioAcc t ∧
      ∀ u, stop u = true → ((rtPriorityCallStep stop a t).st.task u).policy = .fifo := by
  have hcall : ∀ r u, (threadCall stop r u (a.st.task u)).1 = setThreadPriority r (a.st.task u) := by
    intro r u
    cases hu : stop u with
    | true => rw [threadCall_of_fifo (hstop u hu), setThreadPriority_of_fifo (hstop u hu)]
    | false => exact threadCall_of_not_stop hu
  refine ⟨?_, fun u hu => ?_⟩
  · simp only [rtPriorityCallStep, rtPriorityStep, hcall]
    rfl
  · simp only [rtPriorityCallStep]
    split_ifs
    all_goals
      first
      | exact hstop u hu
      | rw [threadCall_of_fifo (hstop u hu)]
        exact hstop u hu

/-- The calls apart, the loop is the one of `numberTasks`. -/
theorem numberTasksCalls_st {stop : Tid → Bool} {s : KState}
    (hstop : ∀ u, stop u = true → (s.task u).policy = .fifo) (list : List Tid) :
    (numberTasksCalls stop s list).1 = numberTasks s list := by
  have hfold : ∀ a : CallAcc, (∀ u, stop u = true → (a.st.task u).policy = .fifo) →
      (list.foldl (rtPriorityCallStep stop) a).toPrioAcc =
        list.foldl rtPriorityStep a.toPrioAcc := by
    induction list with
    | nil => exact fun _ _ => rfl
    | cons t list ih =>
      intro a ha
      obtain ⟨hstep, hfifo⟩ := rtPriorityCallStep_toPrioAcc t ha
      rw [List.foldl_cons, List.foldl_cons, ih _ hfifo, hstep]
  exact congrArg PrioAcc.st (hfold ⟨⟨0, ⟨0, 0⟩, s⟩, []⟩ hstop)

/-! ### The numbers -/

section Numbers

variable {stop : Tid → Bool} {s : KState} {list done : List Tid} {t : Tid} {a : CallAcc}

/-- The period of the last task, which the next one is compared with. -/
def lastPeriod (s : KState) (done : List Tid) : Timespec :=
  (done.getLast?.map fun t => (s.task t).timePeriod).getD ⟨0, 0⟩

/-- On a sorted list a period is new exactly if it is longer than the last one. -/
theorem longer_iff_new (hk : KeptSorted s (done ++ [t])) :
    timespecCompare (s.task t).timePeriod (lastPeriod s done) > 0 ↔
      s.periods t ∉ done.map s.periods := by
  rcases List.eq_nil_or_concat' done with rfl | ⟨d, x, rfl⟩
  · refine iff_of_true (hk.pos t (by simp)) ?_
    simp
  · have hlast : lastPeriod s (d ++ [x]) = (s.task x).timePeriod := by
      simp [lastPeriod]
    obtain ⟨hdx, -, hnew⟩ := List.pairwise_append.1 hk.sorted
    have hx : ∀ u ∈ d ++ [x], timespecCompare (s.task u).timePeriod (s.task x).timePeriod ≤ 0 := by
      intro u hu
      rcases List.mem_append.1 hu with hu | hu
      · exact (List.pairwise_append.1 hdx).2.2 u hu x (by simp)
      · rw [List.mem_singleton.1 hu, timespecCompare_eq_zero_iff.2 rfl]
    rw [hlast]
    constructor
    · intro hlong hmem
      obtain ⟨u, hu, heq⟩ := List.mem_map.1 hmem
      have hle : timespecCompare (s.periods u) (s.periods x) ≤ 0 := hx u hu
      rw [heq] at hle
      exact absurd hlong (not_lt.2 hle)
    · intro hno
      have hle := hnew x (by simp) t (by simp)
      rw [gt_iff_lt, ← timespecCompare_neg_symm]
      refine lt_of_le_of_ne hle fun hzero => hno (List.mem_map.2 ⟨x, by simp, ?_⟩)
      exact timespecCompare_eq_zero_iff.1 hzero

/-- No thread of a listed task is a stop thread. -/
def NoStop (stop : Tid → Bool) (s : KState) (list : List Tid) : Prop :=
  ∀ t ∈ list, ∀ u ∈ s.threads t, stop u = false

/-- What the loop has done when it has been through `done`. -/
structure Recorded (stop : Tid → Bool) (s : KState) (done : List Tid) (a : CallAcc) : Prop where
  update : TaskUpdate PrioOnly s a.st
  /-- the number is the number of periods, as long as that is legal -/
  rtPrio : a.rtPrio = min (distinctPeriods s.periods done : ℤ) 99
  prevDeadline : a.prevDeadline = lastPeriod s done
  legal : (∀ c ∈ a.calls, 1 ≤ c.schedPriority ∧ c.schedPriority ≤ maxUserRtPrio - 1) ↔
    distinctPeriods s.periods done ≤ 99
  accepted : (∀ c ∈ a.calls, c.retval = 0) ↔ distinctPeriods s.periods done ≤ 99 ∧ NoStop stop s done
  fifo : (∀ c ∈ a.calls, c.retval = 0) → ∀ t ∈ done, (a.st.task t).policy = .fifo

theorem recorded_start (stop : Tid → Bool) (s : KState) :
    Recorded stop s [] ⟨⟨0, ⟨0, 0⟩, s⟩, []⟩ where
  update := TaskUpdate.refl PrioOnly.refl s
  rtPrio := rfl
  prevDeadline := rfl
  legal := iff_of_true (by simp) (by simp [distinctPeriods])
  accepted := iff_of_true (by simp) ⟨by simp [distinctPeriods], by simp [NoStop]⟩
  fifo := by simp

theorem TaskUpdate.threads {s' : KState} (h : TaskUpdate PrioOnly s s') (t : Tid) :
    s'.threads t = s.threads t :=
  threads_congr h.pidHash (fun u => congrArg TaskReg.tgid (h.task u).reg) t

/-- The number of the next task, before and after the cap. -/
theorem Recorded.next_rtPrio (h : Recorded stop s done a) (hk : KeptSorted s (done ++ [t])) :
    ∃ r, (if timespecCompare (a.st.task t).timePeriod a.prevDeadline > 0 then a.rtPrio + 1
        else a.rtPrio) = r ∧
      (if r > 99 then 99 else r) = min (distinctPeriods s.periods (done ++ [t]) : ℤ) 99 ∧ 1 ≤ r ∧
      (distinctPeriods s.periods done ≤ 99 →
        (r ≤ 99 ↔ distinctPeriods s.periods (done ++ [t]) ≤ 99)) ∧
      distinctPeriods s.periods done ≤ distinctPeriods s.periods (done ++ [t]) := by
  refine ⟨_, rfl, ?_⟩
  have hper : (a.st.task t).timePeriod = (s.task t).timePeriod := (h.update.task t).reg.timePeriod
  rw [hper, h.prevDeadline, h.rtPrio]
  have hcount := distinctPeriods_append s.periods done t
  by_cases hnew : s.periods t ∈ done.map s.periods
  · have hpos : 0 < distinctPeriods s.periods done :=
      Finset.card_pos.2 ⟨s.periods t, List.mem_toFinset.2 hnew⟩
    rw [if_pos hnew] at hcount
    rw [if_neg fun hlong => (longer_iff_new hk).1 hlong hnew, hcount]
    refine ⟨?_, ?_, ?_, ?_⟩
    · split_ifs <;> omega
    · omega
    · omega
    · omega
  · rw [if_neg hnew] at hcount
    rw [if_pos ((longer_iff_new hk).2 hnew), hcount]
    push_cast
    refine ⟨?_, ?_, ?_, ?_⟩
    · split_ifs <;> omega
    · omega
    · omega
    · omega

/-- One turn. -/
theorem Recorded.step (h : Recorded stop s done a) (hk : KeptSorted s (done ++ [t])) :
    Recorded stop s (done ++ [t]) (rtPriorityCallStep stop a t) := by
  obtain ⟨r, hr, hcap, hone, hlegal, hmono⟩ := h.next_rtPrio hk
  have hst : ∀ u, (rtPriorityCallStep stop a t).st.task u =
      if u ∈ s.threads t then (threadCall stop r u (a.st.task u)).1 else a.st.task u := by
    intro u
    simp only [rtPriorityCallStep, hr, h.update.threads t]
  have hcalls : (rtPriorityCallStep stop a t).calls = a.calls ++
      (s.threads t).map fun u => (threadCall stop r u (a.st.task u)).2 := by
    simp only [rtPriorityCallStep, hr, h.update.threads t]
  have hupdate : TaskUpdate PrioOnly s (rtPriorityCallStep stop a t).st := by
    refine h.update.trans PrioOnly.trans ⟨rfl, fun u => ?_⟩
    rw [hst]
    split_ifs
    · exact threadCall_prioOnly
    · exact PrioOnly.refl _
  -- legal before, and legal now
  have hcount : distinctPeriods s.periods done ≤ 99 ∧ r ≤ maxUserRtPrio - 1 ↔
      distinctPeriods s.periods (done ++ [t]) ≤ 99 := by
    have hmax : maxUserRtPrio - 1 = 99 := rfl
    rw [hmax]
    exact ⟨fun hle => (hlegal hle.1).1 hle.2,
      fun hle => ⟨hmono.trans hle, (hlegal (hmono.trans hle)).2 hle⟩⟩
  refine ⟨hupdate, ?_, ?_, ?_, ?_, fun hok u hu => ?_⟩
  · simp only [rtPriorityCallStep, hr]
    exact hcap
  · have hlast : lastPeriod s (done ++ [t]) = (s.task t).timePeriod := by
      simp [lastPeriod]
    rw [hlast]
    exact (hupdate.task t).reg.timePeriod
  · rw [hcalls, List.forall_mem_append, h.legal, List.forall_mem_map, ← hcount]
    refine and_congr_right fun _ => ⟨fun hall => (hall t (s.self_mem_threads t)).2, fun hle u _ => ?_⟩
    exact ⟨hone, hle⟩
  · rw [hcalls, List.forall_mem_append, h.accepted, List.forall_mem_map, ← hcount]
    simp only [threadCall_retval, NoStop, List.forall_mem_append, List.forall_mem_singleton]
    constructor
    · rintro ⟨⟨hle, hno⟩, hall⟩
      exact ⟨⟨hle, (hall t (s.self_mem_threads t)).1.2⟩, hno, fun u hu => (hall u hu).2⟩
    · rintro ⟨⟨hle, hr99⟩, hno, hnow⟩
      exact ⟨⟨hle, hno⟩, fun u hu => ⟨⟨hone, hr99⟩, hnow u hu⟩⟩
  · rw [hcalls, List.forall_mem_append, List.forall_mem_map] at hok
    rw [hst]
    rcases List.mem_append.1 hu with hu | hu
    · have hfifo := h.fifo hok.1 u hu
      split_ifs
      · rw [threadCall_of_fifo hfifo]
        exact hfifo
      · exact hfifo
    · obtain rfl := List.mem_singleton.1 hu
      rw [if_pos (s.self_mem_threads u)]
      exact threadCall_fifo (hok.2 u (s.self_mem_threads u))

/-- The whole loop. -/
theorem recorded_foldl (hk : KeptSorted s list) :
    Recorded stop s list (list.foldl (rtPriorityCallStep stop) ⟨⟨0, ⟨0, 0⟩, s⟩, []⟩) := by
  refine Loop.foldl_inv (recorded_start stop s) ?_
  rintro done t rest a rfl h
  rw [List.append_cons] at hk
  exact h.step ⟨hk.sorted.sublist (List.sublist_append_left _ _),
    fun u hu => hk.pos u (List.mem_append_left _ hu)⟩

theorem allLegal_iff (hk : KeptSorted s list) :
    AllLegal list (numberTasksCalls stop s list) ↔
      distinctPeriods s.periods list ≤ 99 ∧ NoStop stop s list := by
  have h : Recorded stop s list _ := recorded_foldl hk
  constructor
  · exact fun hall => h.accepted.1 hall.accepted
  · intro hok
    have haccepted := h.accepted.2 hok
    exact ⟨h.legal.2 hok.1, haccepted, h.fifo haccepted⟩

theorem setRtPrioritiesCalls_eq {fuel : ℕ} (hf : list.length < fuel) (hlist : IsGlobalList s list) :
    ∃ r, setRtPrioritiesCalls stop fuel s = .ok (numberTasksCalls stop s list, r) := by
  rw [setRtPrioritiesCalls, hlist.2, s.periodicTasks_eq hlist.1, if_pos hf]
  cases list with
  | nil => exact ⟨-1, rfl⟩
  | cons t list => exact ⟨0, rfl⟩

theorem setRtPrioritiesPerCpuCalls_eq {fuel cpu : ℕ} (hf : list.length < fuel)
    (hlist : IsCpuList s cpu list) :
    ∃ r, setRtPrioritiesPerCpuCalls stop fuel cpu s = .ok (numberTasksCalls stop s list, r) := by
  rw [setRtPrioritiesPerCpuCalls, hlist.2, s.perCpuTasks_eq hlist.1, if_pos hf]
  cases list with
  | nil => exact ⟨-1, rfl⟩
  | cons t list => exact ⟨0, rfl⟩

end Numbers

/-- **When every priority is legal.**  On a sorted list `set_rt_priorities`, and its per-CPU twin,
ask for legal priorities only, are never refused and leave all listed tasks `SCHED_FIFO`, exactly if
the list has at most 99 different periods and no thread of a listed task is a stop thread. -/
theorem setRtPriorities_legal_iff (stop : Tid → Bool) (s : KState) (list : List Tid) (fuel : ℕ)
    (hf : list.length < fuel) (hk : KeptSorted s list) :
    (IsGlobalList s list → ∃ x r, setRtPrioritiesCalls stop fuel s = .ok (x, r) ∧
      (AllLegal list x ↔ distinctPeriods s.periods list ≤ 99 ∧ NoStop stop s list)) ∧
    ∀ cpu, IsCpuList s cpu list → ∃ x r, setRtPrioritiesPerCpuCalls stop fuel cpu s = .ok (x, r) ∧
      (AllLegal list x ↔ distinctPeriods s.periods list ≤ 99 ∧ NoStop stop s list) := by
  constructor
  · intro hlist
    obtain ⟨r, hr⟩ := setRtPrioritiesCalls_eq hf hlist
    exact ⟨_, r, hr, allLegal_iff hk⟩
  · intro cpu hlist
    obtain ⟨r, hr⟩ := setRtPrioritiesPerCpuCalls_eq hf hlist
    exact ⟨_, r, hr, allLegal_iff hk⟩

/-- Two tasks, with periods of one and two seconds. -/
theorem setRtPriorities_legal_iff_two :
    (∃ x r, setRtPrioritiesCalls (fun _ => false) 3 (twoListed 1 2) = .ok (x, r) ∧
      AllLegal [1, 2] x) ∧
    ∃ x r, setRtPrioritiesPerCpuCalls (fun _ => false) 3 0 (twoListed 1 2) = .ok (x, r) ∧
      AllLegal [1, 2] x := by
  have h := setRtPriorities_legal_iff (fun _ => false) (twoListed 1 2) [1, 2] 3 (by decide)
    ⟨by decide, by decide⟩
  have hok : distinctPeriods (twoListed 1 2).periods [1, 2] ≤ 99 ∧
      NoStop (fun _ => false) (twoListed 1 2) [1, 2] := ⟨by decide, fun _ _ _ _ => rfl⟩
  obtain ⟨x, r, hx, hlegal⟩ := h.1 (isGlobalList_twoListed 1 2)
  obtain ⟨y, r', hy, hlegal'⟩ := h.2 0 (isCpuList_twoListed 1 2)
  exact ⟨⟨x, r, hx, hlegal.2 hok⟩, y, r', hy, hlegal'.2 hok⟩

/-- Tasks 1 to `n` on the global list, the period of task `t` being `t` seconds. -/
def manyListed (n : ℕ) : KState :=
  { bootState (List.range' 1 n) .noPm with
    task := fun t => { newTask t with timePeriod := ⟨t, 0⟩ }
    periodicTasksSize := n
    links := fun
      | .head => ⟨.node (.entry 1), .node (.entry n)⟩
      | .entry t => ⟨.node (if t = n then .head else .entry (t + 1)),
          .node (if t = 1 then .head else .entry (t - 1))⟩ }

theorem manyListed_period (n : ℕ) (t : Tid) : (manyListed n).periods t = ⟨t, 0⟩ := rfl

theorem keptSorted_manyListed (n : ℕ) : KeptSorted (manyListed n) (List.range' 1 n) := by
  constructor
  · refine List.Pairwise.imp (fun {t u} htu => ?_) (List.pairwise_lt_range' : List.Pairwise _ _)
    show timespecCompare ⟨t, 0⟩ ⟨u, 0⟩ ≤ 0
    rw [timespecCompare_le_iff]
    exact Or.inl (Int.ofNat_lt.2 htu)
  · intro t ht
    show timespecCompare ⟨t, 0⟩ ⟨0, 0⟩ > 0
    rw [gt_iff_lt, timespecCompare_pos_iff]
    exact Or.inl (Int.natCast_pos.2 (List.mem_range'_1.1 ht).1)

theorem distinctPeriods_manyListed (n : ℕ) :
    distinctPeriods (manyListed n).periods (List.range' 1 n) = n := by
  have hinj : Function.Injective (manyListed n).periods := by
    intro t u htu
    rw [manyListed_period, manyListed_period, Timespec.mk.injEq] at htu
    exact Int.ofNat.inj htu.1
  rw [distinctPeriods, List.toFinset_card_of_nodup (List.Nodup.map hinj List.nodup_range'),
    List.length_map, List.length_range']

/-- With a hundred periods the last task is refused. -/
theorem setRtPriorities_illegal :
    ¬ ∀ (stop : Tid → Bool) (s : KState) (list : List Tid) (fuel : ℕ), list.length < fuel →
      KeptSorted s list → IsGlobalList s list → NoStop stop s list →
      ∃ x r, setRtPrioritiesCalls stop fuel s = .ok (x, r) ∧ AllLegal list x := by
  intro hall
  have hlist : IsGlobalList (manyListed 100) (List.range' 1 100) := ⟨by decide +kernel, rfl⟩
  obtain ⟨x, r, hx, hlegal⟩ := hall (fun _ => false) (manyListed 100) (List.range' 1 100) 101
    (by decide) (keptSorted_manyListed 100) hlist fun _ _ _ _ => rfl
  obtain ⟨r', hr⟩ : ∃ r, setRtPrioritiesCalls (fun _ => false) 101 (manyListed 100) =
      .ok (numberTasksCalls (fun _ => false) (manyListed 100) (List.range' 1 100), r) :=
    setRtPrioritiesCalls_eq (by decide) hlist
  obtain rfl : x = _ := congrArg Prod.fst (Except.ok.inj (hx.symm.trans hr))
  have hcount := ((allLegal_iff (keptSorted_manyListed 100)).1 hlegal).1
  rw [distinctPeriods_manyListed] at hcount
  exact absurd hcount (by decide)

end RtSched
