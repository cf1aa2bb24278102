import RtSched.Guarantee
import RtSched.PriorityRun

/-!
# The critical instant (`kernel/sched.c`)

`apply_sysclock` "emulates the critical instant": it stops the timers of all reservations, gives every
task a full budget, wakes it up and starts all period timers at once.  The priorities under which the
tasks then run are those of `set_rt_priorities`, which are the higher the longer the period.

* `applyFrequency_record`: what the two loops leave of a task;
* `numberTasks_prio_le_iff`: of two tasks the one with the longer period is the more urgent one;
* `applySysclock_guarantees`: what the reservations are worth after the two calls;
* `shorter_starves`: a task whose period is at most the budget of one with a longer period does not run
  at all.
-/

namespace RtSched

open Call FixedPriority TimeDemand

variable {s s' : KState} {list : List Tid} {a b : Tid}

/-! ### The record of a task -/

/-- What the first loop of `apply_sysclock` makes of the record of a task. -/
def rescaledRecord (e : Env) (frequency : ℕ) (p : TaskStruct) : TaskStruct :=
  wakeUpProcess { p with
    budgetTimer := none, periodTimer := none, computeTime := ⟨0, 0⟩
    budgetTime := updatedBudget e.maxFreq frequency p.minBudgetTime }

theorem sameGroups_applyBudget (e : Env) (freq : TaskStruct → ℕ) (s : KState) (t : Tid) :
    SameGroups s (applyBudget e freq s t) := by
  rw [applyBudget]
  refine SameGroups.trans ?_ (sameGroups_eachThread _ t fun p => ?_)
  · exact sameGroups_modifyTask s t fun _ => rfl
  · obtain ⟨_, -, heq⟩ := wakeUpProcess_eq p
    rw [heq]

theorem applyBudget_record (e : Env) (frequency : ℕ) (h : SoleThread s a) (t : Tid) :
    (applyBudget e (fun _ => frequency) s t).task a =
      if t = a then rescaledRecord e frequency (s.task a) else s.task a := by
  have halone := h.congr (sameGroups_modifyTask s t (f := fun p => { p with
    budgetTimer := none, periodTimer := none, computeTime := ⟨0, 0⟩
    budgetTime := updatedBudget e.maxFreq frequency p.minBudgetTime }) fun _ => rfl)
  rw [applyBudget, KState.eachThread_task]
  by_cases hta : t = a
  · subst hta
    rw [if_pos (KState.self_mem_threads _ t), if_pos rfl, KState.modifyTask_task, if_pos rfl]
    rfl
  · rw [if_neg fun hmem => hta (halone.threads.1 hmem), if_neg hta, KState.modifyTask_task,
      if_neg (Ne.symm hta)]

/-- The first loop. -/
theorem applyBudget_foldl (e : Env) (frequency : ℕ) (h : SoleThread s a) (hnodup : list.Nodup)
    (ha : a ∈ list) :
    SoleThread (list.foldl (applyBudget e fun _ => frequency) s) a ∧
      (list.foldl (applyBudget e fun _ => frequency) s).now = s.now ∧
      (list.foldl (applyBudget e fun _ => frequency) s).task a =
        rescaledRecord e frequency (s.task a) := by
  have hloop : SoleThread (list.foldl (applyBudget e fun _ => frequency) s) a ∧
      (list.foldl (applyBudget e fun _ => frequency) s).now = s.now ∧
      (list.foldl (applyBudget e fun _ => frequency) s).task a =
        if a ∈ list then rescaledRecord e frequency (s.task a) else s.task a := by
    refine Loop.foldl_inv (I := fun done s' => SoleThread s' a ∧ s'.now = s.now ∧
      s'.task a = if a ∈ done then rescaledRecord e frequency (s.task a) else s.task a)
      ⟨h, rfl, rfl⟩ ?_
    rintro done t rest s' rfl ⟨halone, hnow, htask⟩
    refine ⟨halone.congr (sameGroups_applyBudget e _ s' t), hnow, ?_⟩
    rw [applyBudget_record e frequency halone, htask]
    by_cases hta : t = a
    · subst hta
      have hdone : t ∉ done := fun hd =>
        (List.nodup_append.1 hnodup).2.2 t hd t List.mem_cons_self rfl
      rw [if_pos rfl, if_neg hdone, if_pos (List.mem_append_right _ List.mem_cons_self)]
    · have hmem : a ∈ done ++ [t] ↔ a ∈ done := by
        rw [List.mem_append, List.mem_singleton]
        exact or_iff_left (Ne.symm hta)
      rw [if_neg hta, if_congr hmem rfl rfl]
  rwa [if_pos ha] at hloop

/-- The second loop. -/
theorem startPeriodTimer_foldl (s : KState) (ha : a ∈ list) :
    (list.foldl startPeriodTimer s).now = s.now ∧
      (list.foldl startPeriodTimer s).task a =
        { s.task a with periodTimer := some (s.now + timespecToNs (s.task a).timePeriod) } := by
  have hloop : (list.foldl startPeriodTimer s).now = s.now ∧
      (list.foldl startPeriodTimer s).task a = if a ∈ list then
        { s.task a with periodTimer := some (s.now + timespecToNs (s.task a).timePeriod) }
      else s.task a := by
    refine Loop.foldl_inv (I := fun done (s' : KState) => s'.now = s.now ∧ s'.task a = if a ∈ done then
      { s.task a with periodTimer := some (s.now + timespecToNs (s.task a).timePeriod) }
      else s.task a) ⟨rfl, rfl⟩ ?_
    rintro done t rest s' - ⟨hnow, htask⟩
    refine ⟨hnow, ?_⟩
    rw [startPeriodTimer, KState.modifyTask_task, htask, hnow]
    by_cases hat : a = t
    · subst hat
      rw [if_pos rfl, if_pos (List.mem_append_right _ List.mem_cons_self)]
      split_ifs <;> rfl
    · have hmem : a ∈ done ++ [t] ↔ a ∈ done := by
        rw [List.mem_append, List.mem_singleton]
        exact or_iff_left hat
      rw [if_neg hat, if_congr hmem rfl rfl]
  rwa [if_pos ha] at hloop

/-- A task after the two loops of `apply_sysclock`. -/
theorem applyFrequency_record (e : Env) (frequency : ℕ) (h : Kept s list) (halone : SoleThread s a)
    (ha : a ∈ list) :
    Sat (fun s' => SoleThread s' a ∧ s'.now = s.now ∧ s'.task a =
        { rescaledRecord e frequency (s.task a) with
          periodTimer := some (s.now + timespecToNs (s.task a).timePeriod) })
      (fun _ => True) (applyFrequency e (fun _ => frequency) s) := by
  refine Sat.bind ((h.periodicTasks_sat e.fuel).mono (fun _ h => h) fun _ _ => trivial) ?_
  rintro l rfl
  obtain ⟨halone', hnow, htask⟩ := applyBudget_foldl e frequency halone h.nodup ha
  obtain ⟨hnow', htask'⟩ :=
    startPeriodTimer_foldl (l.foldl (applyBudget e fun _ => frequency) s) ha
  have hgroups : SameGroups (l.foldl (applyBudget e fun _ => frequency) s)
      (l.foldl startPeriodTimer (l.foldl (applyBudget e fun _ => frequency) s)) :=
    Loop.foldl_inv (I := fun _ s' => SameGroups (l.foldl (applyBudget e fun _ => frequency) s) s')
      (SameGroups.refl _) fun _ t _ s' _ hs' => hs'.trans (sameGroups_modifyTask s' t fun _ => rfl)
  have hperiod : (rescaledRecord e frequency (s.task a)).timePeriod = (s.task a).timePeriod := by
    obtain ⟨_, -, heq⟩ := wakeUpProcess_eq { s.task a with
      budgetTimer := none, periodTimer := none, computeTime := ⟨0, 0⟩
      budgetTime := updatedBudget e.maxFreq frequency (s.task a).minBudgetTime }
    rw [rescaledRecord, heq]
  refine ⟨halone'.congr hgroups, hnow'.trans hnow, ?_⟩
  show (l.foldl startPeriodTimer _).task a = _
  rw [htask', htask, hnow, hperiod]

theorem applySysclock_record {e : Env} {frequency f : ℕ} (h : Kept s list) (halone : SoleThread s a)
    (ha : a ∈ list) (happly : applySysclock e frequency s = .ok (s', f)) :
    SoleThread s' a ∧ s'.now = s.now ∧ s'.task a = { rescaledRecord e f (s.task a) with
      periodTimer := some (s.now + timespecToNs (s.task a).timePeriod) } := by
  have hsat : Sat (fun x : KState × ℕ => SoleThread x.1 a ∧ x.1.now = s.now ∧
      x.1.task a = { rescaledRecord e x.2 (s.task a) with
        periodTimer := some (s.now + timespecToNs (s.task a).timePeriod) })
      (fun _ => True) (applySysclock e frequency s) :=
    (applyFrequency_record e (getTableFrequency e frequency) h halone ha).bind fun s' hs' => hs'
  rw [happly] at hsat
  exact hsat

/-- A record after `apply_sysclock`: a period begins. -/
theorem periodBegun_rescaled {p : TaskStruct} (e : Env) (f : ℕ) (now : ℤ) (hset : p.isBudgetSet = true)
    (hmin : 0 ≤ timespecToNs p.minBudgetTime) (hperiod : 0 < timespecToNs p.timePeriod)
    (halive : p.state ≠ .dead) :
    PeriodBegun now { rescaledRecord e f p with periodTimer := some (now + timespecToNs p.timePeriod) } := by
  have hscaled : 0 ≤ timespecToNs p.minBudgetTime * e.maxFreq / f :=
    Int.ediv_nonneg (mul_nonneg hmin (Int.natCast_nonneg _)) (Int.natCast_nonneg _)
  have hbudget : (updatedBudget e.maxFreq f p.minBudgetTime).Normalised ∧
      0 ≤ timespecToNs (updatedBudget e.maxFreq f p.minBudgetTime) := by
    refine ⟨nsToTimespec_normalised hscaled, ?_⟩
    rw [updatedBudget, timespecToNs_nsToTimespec]
    exact hscaled
  have hawake : ∀ q : TaskStruct, q.state ≠ .dead →
      wakeUpProcess q = { q with state := .running } := by
    intro q hq
    unfold wakeUpProcess
    split
    · rename_i hrun
      rw [← hrun]
    · rename_i hdead
      exact absurd hdead hq
    · rfl
  have hrecord : rescaledRecord e f p = { p with
      budgetTimer := none, periodTimer := none, computeTime := ⟨0, 0⟩
      budgetTime := updatedBudget e.maxFreq f p.minBudgetTime, state := .running } :=
    hawake _ halive
  rw [hrecord]
  exact ⟨hset, hbudget, hperiod, rfl, rfl, rfl, rfl⟩

/-! ### The priorities -/

/-- Nobody waits for the task on a PI mutex, and the priority in use is its own. -/
def Unboosted (p : TaskStruct) : Prop :=
  p.topPiWaiter = none ∧ (p.policy = .fifo → p.prio = p.normalPrio)

theorem setThreadPriority_unboosted (r : ℤ) {p : TaskStruct} (h : Unboosted p) :
    Unboosted (setThreadPriority r p) := by
  obtain ⟨hnone, hprio⟩ := h
  rcases schedSetscheduler_cases { p with rtPriority := r } .fifo r with heq | ⟨-, heq⟩
  · simp only [setThreadPriority, heq]
    exact ⟨hnone, hprio⟩
  · have hset : setThreadPriority r p = { setscheduler
        { p with rtPriority := r, schedResetOnFork := false } .fifo r with needResched := true } := by
      simp only [setThreadPriority, heq]
    rw [hset]
    refine ⟨hnone, fun _ => ?_⟩
    show rtMutexGetprio _ = _
    simp only [rtMutexGetprio, hnone]
    rfl

theorem numberTasks_unboosted (s : KState) (list : List Tid) (h : Unboosted (s.task a)) :
    Unboosted ((numberTasks s list).task a) := by
  have hupdate : TaskUpdate (fun p q => Unboosted p → Unboosted q) s (numberTasks s list) :=
    taskUpdate_foldl (fun _ => id) (fun hpq hqr hp => hqr (hpq hp)) PrioAcc.st
      (fun acc t => taskUpdate_eachThread (fun _ => id) fun _ => setThreadPriority_unboosted _) list
      ⟨0, ⟨0, 0⟩, s⟩
  exact hupdate.task a h

/-- Ranks follow the periods. -/
theorem rank_le_iff {per : Tid → Timespec} (ha : a ∈ list) :
    rank per list a ≤ rank per list b ↔ timespecCompare (per a) (per b) ≤ 0 := by
  have hsub : ∀ {u v : Tid}, timespecCompare (per u) (per v) ≤ 0 →
      ((list.filter fun w => timespecCompare (per w) (per u) ≤ 0).map per).toFinset ⊆
        ((list.filter fun w => timespecCompare (per w) (per v) ≤ 0).map per).toFinset := by
    intro u v huv q hq
    simp only [List.mem_toFinset, List.mem_map, List.mem_filter, decide_eq_true_eq] at hq ⊢
    obtain ⟨w, ⟨hw, hwu⟩, rfl⟩ := hq
    refine ⟨w, ⟨hw, ?_⟩, rfl⟩
    rw [timespecCompare_le_iff] at *
    omega
  constructor
  · intro hle
    by_contra hlt
    rw [not_le] at hlt
    -- the periods up to that of `b` are among those up to that of `a`, and that of `a` is not one
    have hba : timespecCompare (per b) (per a) ≤ 0 := by
      rw [timespecCompare_le_iff]
      rw [← not_le, timespecCompare_le_iff] at hlt
      omega
    refine absurd hle (not_le.2 (Finset.card_lt_card (Finset.ssubset_iff_of_subset (hsub hba) |>.2
      ⟨per a, ?_, ?_⟩)))
    · refine List.mem_toFinset.2 (List.mem_map_of_mem (List.mem_filter.2 ⟨ha, ?_⟩))
      simp [timespecCompare_eq_zero_iff.2 rfl]
    · intro hmem
      simp only [List.mem_toFinset, List.mem_map, List.mem_filter, decide_eq_true_eq] at hmem
      obtain ⟨w, ⟨-, hwb⟩, hw⟩ := hmem
      rw [hw] at hwb
      omega
  · exact fun hle => Finset.card_le_card (hsub hle)

/-- **The longer period is the more urgent one.** -/
theorem numberTasks_prio_le_iff (hinv : LeaderInv s list)
    (hpos : ∀ u ∈ list, 0 < timespecCompare (s.periods u) ⟨0, 0⟩)
    (hnormal : ∀ u ∈ list, (s.task u).policy ≠ .fifo ∧ (s.task u).topPiWaiter = none)
    (hfew : distinctPeriods s.periods list ≤ 99) (ha : a ∈ list) (hb : b ∈ list) :
    ((numberTasks s list).task b).prio ≤ ((numberTasks s list).task a).prio ↔
      timespecCompare (s.periods a) (s.periods b) ≤ 0 := by
  have hkeep : KeepsNumbers s s.periods list :=
    ⟨hfew, fun u hu hfifo => absurd hfifo (hnormal u hu).1⟩
  have hprio : ∀ u ∈ list, ((numberTasks s list).task u).prio =
      maxRtPrio - 1 - rank s.periods list u := by
    intro u hu
    obtain ⟨hfifo, -, hnumber⟩ := numberTasks_numbered hinv hpos hkeep hu
    have hown := numberTasks_unboosted s list
      ⟨(hnormal u hu).2, fun hfifo => absurd hfifo (hnormal u hu).1⟩
    rw [hown.2 hfifo, hnumber]
  rw [hprio a ha, hprio b hb, ← rank_le_iff ha]
  omega

/-! ### The two calls -/

/-- A process that can be served: one thread, alive, with a proper period and budget. -/
structure Ready (s : KState) (a : Tid) : Prop where
  alone : SoleThread s a
  alive : (s.task a).state ≠ .dead
  period : (s.periods a).Normalised
  budget : 0 ≤ timespecToNs (s.task a).minBudgetTime

/-- `set_rt_priorities` and `apply_sysclock` on tasks that were `SCHED_NORMAL`, none of which has a CPU
when the call returns. -/
structure Started (e : Env) (list : List Tid) (reserved : Finset Tid) (frequency f : ℕ) (s : KState)
    (m : Metered) : Prop where
  inv : LeaderInv s list
  pos : ∀ u ∈ list, 0 < timespecCompare (s.periods u) ⟨0, 0⟩
  normal : ∀ u ∈ list, (s.task u).policy ≠ .fifo ∧ (s.task u).topPiWaiter = none
  few : distinctPeriods s.periods list ≤ 99
  listed : ∀ a ∈ reserved, a ∈ list
  ready : ∀ a ∈ reserved, Ready s a
  applied : applySysclock e frequency (numberTasks s list) = .ok (m.st, f)
  off : ∀ a ∈ reserved, ∀ cpu, m.curr cpu ≠ some a
  queued : ∀ a ∈ reserved, m.onRq a = true
  ran : ∀ a ∈ reserved, m.ran a = 0

section Started

variable {e : Env} {reserved : Finset Tid} {frequency f : ℕ} {m : Metered}

theorem PrioOnly.terms {p q : TaskStruct} (h : PrioOnly p q) : q.state = p.state ∧
    q.isBudgetSet = p.isBudgetSet ∧ q.minBudgetTime = p.minBudgetTime ∧
    q.timePeriod = p.timePeriod := by
  unfold PrioOnly at h
  rw [← h]
  exact ⟨rfl, rfl, rfl, rfl⟩

theorem sameGroups_numberTasks (s : KState) (list : List Tid) :
    SameGroups s (numberTasks s list) := by
  have hhash := congrArg KState.pidHash (numberTasks_update s list).globals
  exact ⟨hhash, fun u => congrArg TaskReg.tgid ((numberTasks_update s list).task u).reg⟩

/-- The record of a task after the two calls, in terms of the record before. -/
theorem Started.record (h : Started e list reserved frequency f s m) (ha : a ∈ reserved) :
    SoleThread m.st a ∧ PeriodBegun m.st.now (m.st.task a) ∧
      m.cost a = timespecToNs (s.task a).minBudgetTime * e.maxFreq / f ∧
      m.period a = timespecToNs (s.periods a) ∧
      m.prio a = ((numberTasks s list).task a).prio := by
  obtain ⟨hstate, hflag, hmin, hperiod⟩ := ((numberTasks_update s list).task a).terms
  have hkept := h.inv.kept.of_quiet
    (TaskUpdate.refl ClockOnly.refl (numberTasks s list)).quiet_of_numbered
  obtain ⟨halone', hnow, hrecord⟩ := applySysclock_record hkept
    ((h.ready a ha).alone.congr (sameGroups_numberTasks s list)) (h.listed a ha) h.applied
  obtain ⟨halone₀, halive, hnorm, hbudget⟩ := h.ready a ha
  have hpos : 0 < timespecToNs (s.periods a) :=
    (timespecCompare_pos_iff_ns hnorm ⟨by decide, by decide⟩).1 (h.pos a (h.listed a ha))
  refine ⟨halone', ?_, ?_, ?_, ?_⟩
  · rw [hrecord, hnow]
    refine periodBegun_rescaled e f _ ?_ ?_ ?_ ?_
    · rw [hflag]
      exact (h.inv.flag a halone₀.leader).2 (h.listed a ha)
    · rw [hmin]
      exact hbudget
    · rw [hperiod]
      exact hpos
    · rw [hstate]
      exact halive
  all_goals
    obtain ⟨_, -, hwake⟩ := wakeUpProcess_eq { (numberTasks s list).task a with
      budgetTimer := none, periodTimer := none, computeTime := ⟨0, 0⟩
      budgetTime := updatedBudget e.maxFreq f ((numberTasks s list).task a).minBudgetTime }
    rw [rescaledRecord, hwake] at hrecord
  · rw [Metered.cost, hrecord, ← hmin]
    exact timespecToNs_nsToTimespec _
  · rw [Metered.period, hrecord]
    exact congrArg timespecToNs hperiod
  · rw [Metered.prio, hrecord]

theorem Started.critical (h : Started e list reserved frequency f s m) : Critical reserved m :=
  ⟨fun _ ha => (h.record ha).1, fun _ ha => (h.record ha).2.1, h.off, h.queued, h.ran⟩

theorem Started.prio_le_iff (h : Started e list reserved frequency f s m) (ha : a ∈ reserved)
    (hb : b ∈ reserved) : m.prio b ≤ m.prio a ↔ m.period a ≤ m.period b := by
  obtain ⟨-, -, -, hperioda, hprioa⟩ := h.record ha
  obtain ⟨-, -, -, hperiodb, hpriob⟩ := h.record hb
  rw [hprioa, hpriob, numberTasks_prio_le_iff h.inv h.pos h.normal h.few (h.listed a ha)
    (h.listed b hb), timespecCompare_le_iff_ns (h.ready a ha).period (h.ready b hb).period,
    hperioda, hperiodb]

end Started

/-- **What a reservation is worth under SysClock.**  `set_rt_priorities` and `apply_sysclock` have set up
the reservations at a frequency `f`.  If the demand of the tasks whose periods are at least as long as
that of a task leaves a rest of some stretch of its period, then in every run in which the CPU serves them
the task never runs for more than the budget that was rescaled for `f` in a period, and it has run for all
of it, up to 10 µs, whenever its period timer expires. -/
theorem applySysclock_guarantees {e : Env} {list : List Tid} {reserved : Finset Tid}
    {frequency f : ℕ} {s : KState} {m₀ m : Metered} {cpu : Fin maxCpu} {cost period : Tid → ℤ}
    (hstart : Started e list reserved frequency f s m₀)
    (hcost : ∀ a ∈ reserved, cost a = timespecToNs (s.task a).minBudgetTime * e.maxFreq / f)
    (hperiod : ∀ a ∈ reserved, period a = timespecToNs (s.periods a))
    (hfit : ∀ a ∈ reserved, ∃ slack, 0 < slack ∧ slack ≤ period a ∧
      demand cost period (reserved.filter fun b => period a ≤ period b).val slack < slack)
    (hrun : ServedRun cpu reserved m₀ m) {a : Tid} (ha : a ∈ reserved) :
    m.ran a ≤ cost a ∧ (m.Can (.periodExpiry a) → cost a - 10000 ≤ m.ran a) := by
  have hterms : ∀ b ∈ reserved, m₀.cost b = cost b ∧ m₀.period b = period b := by
    intro b hb
    obtain ⟨-, -, hc, hp, -⟩ := hstart.record hb
    exact ⟨hc.trans (hcost b hb).symm, hp.trans (hperiod b hb).symm⟩
  -- the tasks of at least its priority are those with at least its period
  have hlevel : ∀ b ∈ reserved, (reserved.filter fun x => m₀.prio x ≤ m₀.prio b) =
      reserved.filter fun x => period b ≤ period x := by
    intro b hb
    refine Finset.filter_congr fun x hx => ?_
    rw [hstart.prio_le_iff hb hx, (hterms b hb).2, (hterms x hx).2]
  have hslacks : ∀ b ∈ reserved, ∃ slack, HasSlack m₀.cost m₀.period m₀.prio reserved b slack := by
    intro b hb
    obtain ⟨slack, hpos, hle, hrest⟩ := hfit b hb
    refine ⟨slack, hpos, hle.trans_eq (hterms b hb).2.symm, ?_⟩
    rw [hlevel b hb]
    refine lt_of_eq_of_lt (congrArg Multiset.sum (Multiset.map_congr rfl fun x hx => ?_)) hrest
    rw [(hterms x (Finset.mem_filter.1 hx).1).1, (hterms x (Finset.mem_filter.1 hx).1).2]
  choose! slack hslack using hslacks
  have h := (GuaranteeInv.run hstart.critical hslack hrun).had_budget ha (hslack a ha)
  rwa [(hterms a ha).1] at h

/-- The global list of two reservations. -/
def pairLinks : LinkRing.Links RtNode
  | .head => ⟨.node (.entry 1), .node (.entry 2)⟩
  | .entry t => if t = 1 then ⟨.node (.entry 2), .node .head⟩ else ⟨.node .head, .node (.entry 1)⟩

/-- Two reservations of tasks that have not run yet. -/
def freshPair (budget₁ period₁ budget₂ period₂ : Timespec) : KState :=
  { bootState [0, 1, 2] .sysClock with
    task := fun t => { newTask t with
      isBudgetSet := decide (t = 1 ∨ t = 2)
      minBudgetTime := if t = 1 then budget₁ else budget₂
      timePeriod := if t = 1 then period₁ else period₂ }
    periodicTasksSize := 2
    links := pairLinks }

/-- The state after the two calls, on a CPU that idles (thread 0). -/
def startedPair (e : Env) (frequency : ℕ) (s : KState) : Metered where
  st := match applySysclock e frequency (numberTasks s [1, 2]) with
    | .ok (s', _) => s'
    | .error (_, s') => s'
  curr := fun cpu => if cpu = 0 then some 0 else none
  onRq := fun t => decide (t ≤ 2)
  ran := fun _ => 0

theorem freshPair_started {budget₁ period₁ budget₂ period₂ : Timespec} (frequency : ℕ)
    (hpos₁ : 0 < timespecCompare period₁ ⟨0, 0⟩) (hpos₂ : 0 < timespecCompare period₂ ⟨0, 0⟩)
    (hle : timespecCompare period₁ period₂ ≤ 0) (hnorm₁ : period₁.Normalised)
    (hnorm₂ : period₂.Normalised) (hb₁ : 0 ≤ timespecToNs budget₁) (hb₂ : 0 ≤ timespecToNs budget₂) :
    Started twoSpeeds [1, 2] {1, 2} frequency (getTableFrequency twoSpeeds frequency)
      (freshPair budget₁ period₁ budget₂ period₂)
      (startedPair twoSpeeds frequency (freshPair budget₁ period₁ budget₂ period₂)) where
  inv := by
    have hring : LinkRing.IsRing pairLinks .head (List.map RtNode.entry [1, 2]) := by decide
    refine ⟨⟨Or.inl hring, rfl, ?_⟩, rfl, fun _ _ => rfl, fun t _ => ?_⟩
    · exact List.pairwise_pair.2 hle
    · simp [freshPair]
  pos := List.forall_mem_cons.2 ⟨hpos₁, List.forall_mem_singleton.2 hpos₂⟩
  normal := fun _ _ => ⟨Policy.noConfusion, rfl⟩
  few := (List.toFinset_card_le _).trans (show 2 ≤ 99 by decide)
  listed := by decide
  ready := duo_cases ⟨⟨rfl, fun _ hu => hu⟩, RunState.noConfusion, hnorm₁, hb₁⟩
    ⟨⟨rfl, fun _ hu => hu⟩, RunState.noConfusion, hnorm₂, hb₂⟩
  applied := rfl
  off := duo_cases (fun _ => by simp [startedPair]) fun _ => by simp [startedPair]
  queued := duo_cases rfl rfl
  ran := fun _ _ => rfl

/-- 10 µs in 100 µs and 15 µs in 200 µs at full speed, run at half speed. -/
def halfSpeed : KState := freshPair ⟨0, 10000⟩ ⟨0, 100000⟩ ⟨0, 15000⟩ ⟨0, 200000⟩

/-- The task with the longer period runs first; each is switched in with a reschedule pending. -/
def halfSpeedRun : List SchedEvent :=
  [.schedule 0 false false 2, .schedule 0 true false 2, .pass 30000, .budgetExpiry 2,
    .schedule 0 false false 1, .schedule 0 true false 1, .pass 20000, .budgetExpiry 1,
    .schedule 0 false false 0, .pass 50000]

/-- The first task has had 20 µs when its period is over. -/
theorem applySysclock_guarantees_pair :
    ∃ m, ServedRun 0 {1, 2} (startedPair twoSpeeds 500000 halfSpeed) m ∧
      m.Can (.periodExpiry 1) ∧ 10000 ≤ m.ran 1 ∧ m.ran 1 ≤ 20000 := by
  obtain ⟨m, hfollow, hcan⟩ := exists_some_of_test
    (o := follow (fun m e => m.Can e ∧ m.Served 0 {1, 2} e) meteredExec halfSpeedRun
      (startedPair twoSpeeds 500000 halfSpeed))
    (p := fun m => m.Can (.periodExpiry 1)) (by decide +kernel)
  have hrun : ServedRun 0 {1, 2} (startedPair twoSpeeds 500000 halfSpeed) m :=
    reach_of_follow (.start rfl) hfollow
  have hstart : Started twoSpeeds [1, 2] {1, 2} 500000 500000 halfSpeed
      (startedPair twoSpeeds 500000 halfSpeed) :=
    freshPair_started 500000 (by decide) (by decide) (by decide) ⟨by decide, by decide⟩
      ⟨by decide, by decide⟩ (by decide) (by decide)
  obtain ⟨hle, hge⟩ := @applySysclock_guarantees _ _ _ _ _ _ _ _ _ duo.cost duo.period hstart
    (duo_cases (by decide) (by decide)) (duo_cases (by decide) (by decide))
    (fun a ha => ⟨60000, by decide, duo_period a ha, duo_demand (Finset.filter_subset _ _)⟩) hrun
    1 (by decide)
  exact ⟨m, hrun, hcan, hge hcan, hle⟩

/-! ### Starvation -/

/-- `a` has not run, and `b` has only if it is still awake or has used up its budget. -/
structure StarveInv (cpu : Fin maxCpu) (m₀ : Metered) (a b : Tid) (m : Metered) : Prop where
  later : m₀.st.now ≤ m.st.now
  static : SameStatic m₀.st m.st
  home : ∀ c, m.curr c = some a → c = cpu
  starved : m.st.now ≤ m₀.st.now + m₀.period a → m.ran a = 0 ∧
    SoleThread m.st b ∧ (∀ c, m.curr c = some b → c = cpu) ∧ ReserveInv (m.view cpu b) ∧
    m.cost b = m₀.cost b ∧ (m.st.task b).periodTimer = some (m₀.st.now + m₀.period b) ∧
    m.ran b ≤ m.st.now - m₀.st.now

section Starve

variable {cpu : Fin maxCpu} {reserved : Finset Tid} {m₀ m : Metered} {e : SchedEvent}

theorem starveInv_critical (h : Critical reserved m₀) (cpu : Fin maxCpu) (ha : a ∈ reserved)
    (hb : b ∈ reserved) : StarveInv cpu m₀ a b m₀ := by
  refine ⟨le_rfl, SameStatic.refl _, fun c hc => absurd hc (h.off a ha c), fun _ => ⟨h.ran a ha,
    h.alone b hb, fun c hc => absurd hc (h.off b hb c), reserveInv_critical h cpu hb, rfl,
    (h.filled b hb).timer, ?_⟩⟩
  rw [h.ran b hb, sub_self]

/-- While `b` is awake, time goes to it or to tasks that are more urgent still. -/
theorem StarveInv.pass (h : StarveInv cpu m₀ a b m) (ha : a ∈ reserved) (hb : b ∈ reserved)
    (hprio : m₀.prio b < m₀.prio a) (hlong : m₀.period a + 10000 ≤ m₀.cost b) {d : ℕ}
    (hserved : m.Served cpu reserved (.pass d))
    (hearly : m.st.now + d ≤ m₀.st.now + m₀.period a) : (m.after (.pass d)).ran a = 0 := by
  obtain ⟨hran, halone, hhome, hreserve, hcost, htimer, hle⟩ := h.starved (by omega)
  simp only [Metered.after]
  rcases hreserve.state with hawake | hsleep
  · obtain ⟨x, hx, hcurr, hurgent⟩ := hserved.2.2 b hb (hreserve.queued.2 (Or.inl hawake))
    have hnot : ¬ ∃ c, m.curr c = some a := by
      rintro ⟨c, hc⟩
      obtain rfl := h.home c hc
      obtain rfl : x = a := Option.some.inj (hcurr.symm.trans hc)
      rw [(h.static x).prio, (h.static b).prio] at hurgent
      exact absurd hprio (not_lt.2 hurgent)
    rw [if_neg hnot]
    exact hran
  · -- `b` has used up its budget, so the time of `a` is over
    have hused : m.cost b - 10000 ≤ m.ran b := hreserve.asleep hsleep
    have hd : (d : ℤ) = 0 := by omega
    rw [hran, hd]
    split_ifs <;> rfl

theorem after_periodTimer (s : CpuState) {e : CpuEvent} (hne : e ≠ .periodExpiry) :
    (s.after e).task.periodTimer = s.task.periodTimer := by
  cases e with
  | pass d => rfl
  | switchIn =>
    simp only [CpuState.after, hookIn, armBudget]
    split_ifs <;> rfl
  | resched preemptActive again =>
    cases again with
    | true => rfl
    | false =>
      simp only [CpuState.after, hookOut, Bool.false_eq_true, if_false]
      split_ifs <;> rfl
  | budgetExpiry =>
    simp only [CpuState.after, budgetTimerCallback]
    split_ifs <;> rfl
  | periodExpiry => exact absurd rfl hne

theorem StarveInv.step (h : StarveInv cpu m₀ a b m) (ha : a ∈ reserved) (hb : b ∈ reserved)
    (hprio : m₀.prio b < m₀.prio a) (hperiod : m₀.period a < m₀.period b)
    (hlong : m₀.period a + 10000 ≤ m₀.cost b) (hcan : m.Can e)
    (hserved : m.Served cpu reserved e) : StarveInv cpu m₀ a b (m.after e) := by
  have hnow : m.st.now ≤ (m.after e).st.now := by
    by_cases hpass : ∃ d, e = .pass d
    · obtain ⟨d, rfl⟩ := hpass
      exact Int.le_add_of_nonneg_right (Int.natCast_nonneg d)
    · exact (after_now m fun d hd => hpass ⟨d, hd⟩).ge
  refine ⟨h.later.trans hnow, h.static.trans (sameStatic_event m.toSched e),
    home_after h.home ha hcan hserved, fun hearly => ?_⟩
  obtain ⟨hran, halone, hhome, hreserve, hcost, htimer, hle⟩ := h.starved (hnow.trans hearly)
  have hdue : ∀ x ∈ (m.st.task b).periodTimer, m.st.now < x := by
    intro x hx
    obtain rfl := Option.some.inj (htimer.symm.trans hx)
    omega
  have hview := view_after hreserve halone hhome hb hcan hserved
  have hok : ∀ e' ∈ m.project b e, Enabled (m.view cpu b) e' ∧ ReserveOk (m.view cpu b) e' ∧
      e' ≠ .periodExpiry := by
    intro e' he
    refine ⟨enabled_project hreserve hhome hb hcan hserved he, ?_⟩
    refine (reserveOk_or_due hb hserved he).resolve_right ?_
    -- the period of `b` is not over
    rintro ⟨-, rfl⟩
    obtain ⟨x, hx, hx'⟩ := hcan
    exact absurd (hdue x hx) (not_lt.2 hx')
  have hsame := sameTerms_afterSome (m.view cpu b) (m.project b e)
  rw [← hview] at hsame
  refine ⟨?_, halone.of_static (sameStatic_event m.toSched e), home_after hhome hb hcan hserved, ?_, ?_,
    ?_, ?_⟩
  · cases e with
    | pass d => exact h.pass ha hb hprio hlong hserved hearly
    | periodExpiry t =>
      simp only [Metered.after, Function.update_apply]
      split_ifs
      · rfl
      · exact hran
    | _ => exact hran
  · rw [hview]
    cases hp : m.project b e with
    | none => exact hreserve
    | some e' => exact hreserve.step (hok e' hp).1 (hok e' hp).2.1
  · exact (congrArg timespecToNs hsame.budgetTime).trans hcost
  · refine Eq.trans ?_ htimer
    show ((m.after e).view cpu b).task.periodTimer = (m.view cpu b).task.periodTimer
    rw [hview]
    cases hp : m.project b e with
    | none => rfl
    | some e' => exact after_periodTimer _ (hok e' hp).2.2
  · cases e with
    | pass d =>
      simp only [Metered.after, Sched.after]
      split_ifs <;> omega
    | periodExpiry t =>
      have htb : b ≠ t := by
        rintro rfl
        obtain ⟨x, hx, hx'⟩ := hcan
        exact absurd (hdue x hx) (not_lt.2 hx')
      simp only [Metered.after, Function.update_of_ne htb]
      exact hle
    | _ =>
      rw [after_now m fun d => SchedEvent.noConfusion]
      exact hle

end Starve

/-- **A long reservation starves a short one.**  `set_rt_priorities` and `apply_sysclock` have set up the
reservations at a frequency `f`, and the budget of `b` at that frequency is at least the period of `a` and
10 µs.  If the period of `b` is the longer one, then in every run in which the CPU serves the reservations
by priority `a` does not run at all until its first period is over. -/
theorem shorter_starves {e : Env} {list : List Tid} {reserved : Finset Tid} {frequency f : ℕ}
    {s : KState} {m₀ m : Metered} {cpu : Fin maxCpu} {a b : Tid}
    (hstart : Started e list reserved frequency f s m₀) (ha : a ∈ reserved) (hb : b ∈ reserved)
    (hperiod : timespecToNs (s.periods a) < timespecToNs (s.periods b))
    (hlong : timespecToNs (s.periods a) + 10000 ≤
      timespecToNs (s.task b).minBudgetTime * e.maxFreq / f)
    (hrun : ServedRun cpu reserved m₀ m)
    (hearly : m.st.now ≤ m₀.st.now + timespecToNs (s.periods a)) : m.ran a = 0 := by
  obtain ⟨-, -, -, hpera, -⟩ := hstart.record ha
  obtain ⟨-, -, hcostb, hperb, -⟩ := hstart.record hb
  rw [← hpera, ← hperb] at hperiod
  rw [← hpera, ← hcostb] at hlong
  rw [← hpera] at hearly
  have hprio : m₀.prio b < m₀.prio a := by
    rw [← not_le, hstart.prio_le_iff hb ha]
    omega
  have h : StarveInv cpu m₀ a b m := by
    refine Reach.inv (E := fun _ => True) ?_ ?_ hrun
    · rintro m rfl
      exact starveInv_critical hstart.critical cpu ha hb
    · intro m e hm hok
      exact hm.step ha hb hprio hperiod hlong hok.1 hok.2
  exact (h.starved hearly).1

/-- 20 µs in 50 µs and 80 µs in 400 µs. -/
def longBudget : KState := freshPair ⟨0, 20000⟩ ⟨0, 50000⟩ ⟨0, 80000⟩ ⟨0, 400000⟩

/-- `__check_admission` accepts the two reservations, and the first one gets nothing in its first
period. -/
theorem shorter_starves_pair :
    checkAdmissionList 10 ([1, 2].map (ctOf longBudget)) 2 = some true ∧
      ∃ m, ServedRun 0 {1, 2} (startedPair twoSpeeds 1000000 longBudget) m ∧
        m.Can (.periodExpiry 1) ∧ m.ran 1 = 0 := by
  refine ⟨by decide, ?_⟩
  obtain ⟨m, hfollow, hcan, hearly⟩ := exists_some_of_test
    (o := follow (fun m e => m.Can e ∧ m.Served 0 {1, 2} e) meteredExec
      [.schedule 0 false false 2, .schedule 0 true false 2, .pass 50000]
      (startedPair twoSpeeds 1000000 longBudget))
    (p := fun m => m.Can (.periodExpiry 1) ∧ m.st.now ≤ 50000) (by decide +kernel)
  have hrun : ServedRun 0 {1, 2} (startedPair twoSpeeds 1000000 longBudget) m :=
    reach_of_follow (.start rfl) hfollow
  have hstart : Started twoSpeeds [1, 2] {1, 2} 1000000 1000000 longBudget
      (startedPair twoSpeeds 1000000 longBudget) :=
    freshPair_started 1000000 (by decide) (by decide) (by decide) ⟨by decide, by decide⟩
      ⟨by decide, by decide⟩ (by decide) (by decide)
  exact ⟨m, hrun, hcan, shorter_starves (a := 1) (b := 2) hstart (by decide) (by decide) (by decide)
    (by decide) hrun hearly⟩

end RtSched
