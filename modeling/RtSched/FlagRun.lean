import RtSched.Leader

/-!
# The enforcement flag over whole runs

`is_budget_set` is what the scheduler hook and `do_exit` go by.  It is set and cleared together with
the reservation of the process, for all its threads, and it is copied to every new task; a new
thread shares the reservation, but a new process has none.  So a flag stands for a reservation as
long as no flagged thread forks (`flag_implies_reservation`), and not beyond (`flag_inherited`).
-/

namespace RtSched

open Call LinkRing

variable {e : Env} {s s' : KState} {list : List Tid} {t u : Tid}

/-! ### Reserved budgets -/

/-- A time of at least zero. -/
def IsTime (ts : Timespec) : Prop := ∃ n : ℕ, ts = nsToTimespec n

theorem IsTime.ne_sentinel {ts : Timespec} (h : IsTime ts) : ts ≠ ⟨-1, -1⟩ := by
  obtain ⟨n, rfl⟩ := h
  intro heq
  have := congrArg timespecToNs heq
  rw [timespecToNs_nsToTimespec] at this
  simp only [timespecToNs] at this
  omega

theorem isTime_updatedBudget {ts : Timespec} (h : IsTime ts) (maxFreq f : ℕ) :
    IsTime (updatedBudget maxFreq f ts) := by
  obtain ⟨n, rfl⟩ := h
  refine ⟨n * maxFreq / f, ?_⟩
  rw [updatedBudget, timespecToNs_nsToTimespec]
  norm_cast

/-- A listed task has a positive period and proper budgets. -/
structure Budgeted (p : TaskStruct) : Prop where
  period : 0 < timespecCompare p.timePeriod ⟨0, 0⟩
  budget : IsTime p.budgetTime
  minBudget : IsTime p.minBudgetTime

theorem RegSame.minBudgetTime {p q : TaskStruct} (h : RegSame p q) :
    q.minBudgetTime = p.minBudgetTime := congrArg TaskReg.minBudgetTime h

theorem budgeted_reserved {b p : Timespec} {s₁ : KState}
    (h : ∀ u ∈ list, Budgeted (s.task u)) (hp : 0 < timespecCompare p ⟨0, 0⟩) (hb : IsTime b)
    (hr : Reserved t b p s s₁) (hl : Launched e t (reservedList s t p list) s₁ s') :
    ∀ u ∈ reservedList s t p list, Budgeted (s'.task u) := by
  intro u hu
  have hreg := registry_task hl.update.quiet_of_numbered.registry u
  have h1 := hr.timePeriod u
  have h2 := hr.minBudgetTime u
  have hold : u ≠ t → Budgeted (s.task u) := fun hne =>
    h u (List.mem_of_mem_erase ((mem_reservedList.1 hu).resolve_left hne))
  have hmin : IsTime (s'.task u).minBudgetTime := by
    rw [hreg.minBudgetTime, h2]
    split_ifs with hut
    · exact hb
    · exact (hold hut).minBudget
  refine ⟨?_, ?_, hmin⟩
  · rw [hreg.timePeriod, h1]
    split_ifs with hut
    · exact hp
    · exact (hold hut).period
  · cases hpow : s₁.powerScheme with
    | noPm =>
      obtain ⟨hcurr, hother⟩ := hl.noPm hpow
      by_cases hut : u = t
      · rw [hut]
        exact hcurr
      · rw [hother u hut, hr.budget u hut]
        exact (hold hut).budget
    | sysClock =>
      rw [hl.sysClock hpow u hu]
      exact isTime_updatedBudget hmin _ _
    | pmClock =>
      rw [hl.pmClock hpow u hu]
      exact isTime_updatedBudget hmin _ _

/-- A cancelled reservation leaves the others with the budgets of a new frequency. -/
theorem budgeted_unreserved {s₁ : KState} {f : ℕ} (hk : Kept s list)
    (h : ∀ u ∈ list, Budgeted (s.task u)) (hu : Unreserved t s s₁) (hq : Quiet s₁ s')
    (hf : ∀ u ∈ list.erase t, (s'.task u).budgetTime =
      updatedBudget e.maxFreq f (s'.task u).minBudgetTime) :
    ∀ u ∈ list.erase t, Budgeted (s'.task u) := by
  intro u hmem
  have hold := h u (List.mem_of_mem_erase hmem)
  have hreg := registry_task hq.registry u
  obtain ⟨h1, h2⟩ := hu.keeps hk u hmem
  have hmin : IsTime (s'.task u).minBudgetTime := by
    rw [hreg.minBudgetTime, h2]
    exact hold.minBudget
  refine ⟨?_, ?_, hmin⟩
  · rw [hreg.timePeriod, h1]
    exact hold.period
  · rw [hf u hmem]
    exact isTime_updatedBudget hmin _ _

/-- So does an exit under SysClock; otherwise it does not touch them. -/
theorem budgeted_dropped {s₁ : KState} (h : ∀ u ∈ list, Budgeted (s.task u)) (hd : Dropped t s s₁)
    (hq : Quiet s₁ s') (hsys : s.powerScheme = .sysClock → SysCoherent e s' (list.erase t))
    (hkeep : s.powerScheme ≠ .sysClock →
      ∀ u, (s'.task u).budgetTime = (s.task u).budgetTime) :
    ∀ u ∈ list.erase t, Budgeted (s'.task u) := by
  intro u hu
  have hold := h u (List.mem_of_mem_erase hu)
  have hreg := Eq.trans (registry_task hq.registry u) (hd.reg u)
  have hmin : (s'.task u).minBudgetTime = (s.task u).minBudgetTime :=
    congrArg TaskReg.minBudgetTime hreg
  have hper : (s'.task u).timePeriod = (s.task u).timePeriod := congrArg TaskReg.timePeriod hreg
  refine ⟨hper ▸ hold.period, ?_, hmin ▸ hold.minBudget⟩
  by_cases hpow : s.powerScheme = .sysClock
  · rw [hsys hpow u hu, hmin]
    exact isTime_updatedBudget hold.minBudget _ _
  · rw [hkeep hpow u]
    exact hold.budget

theorem budgeted_ended (h : ∀ u ∈ list, Budgeted (s.task u)) (he : Ended s s') :
    ∀ u ∈ list, Budgeted (s'.task u) := by
  intro u hu
  obtain ⟨h1, h2, h3⟩ := h u hu
  exact ⟨he.timePeriod u ▸ h1, he.budgetTime u ▸ h2, he.minBudgetTime u ▸ h3⟩

/-! ### The invariant -/

/-- The flag of a thread goes with the reservation of its leader, and no flagged thread is lost. -/
structure FlagInv (s : KState) (list : List Tid) : Prop where
  inv : LeaderInv s list
  flagged : ∀ u, (s.task u).isBudgetSet = true → (s.task u).tgid ∈ list ∧
    (u = (s.task u).tgid ∨ u ∈ s.pidHash)

/-- A flagged thread of a listed leader is among the threads the calls go through. -/
theorem FlagInv.mem_threads (h : FlagInv s list) (hu : (s.task u).isBudgetSet = true) :
    u ∈ s.threads (s.task u).tgid := by
  obtain ⟨hmem, hhash⟩ := h.flagged u hu
  refine s.mem_threads.2 (hhash.imp_right fun hu => ⟨hu, ?_⟩)
  rw [h.inv.leader _ hmem]

theorem FlagInv.of_quiet (h : FlagInv s list) (hq : Quiet s s') : FlagInv s' list := by
  have hreg := registry_task hq.registry
  refine ⟨h.inv.of_quiet hq, fun u hu => ?_⟩
  have hf : (s'.task u).isBudgetSet = (s.task u).isBudgetSet :=
    congrArg TaskReg.isBudgetSet (hreg u)
  have htgid : (s'.task u).tgid = (s.task u).tgid := congrArg TaskReg.tgid (hreg u)
  rw [hf] at hu
  rw [htgid, registry_pidHash hq.registry]
  exact h.flagged u hu

theorem FlagInv.reserved {b p : Timespec} (h : FlagInv s list) (ht : (s.task t).tgid = t)
    (hinv : LeaderInv s' (reservedList s t p list)) (hr : Reserved t b p s s') :
    FlagInv s' (reservedList s t p list) := by
  refine ⟨hinv, fun u hu => ?_⟩
  rw [hr.tgid, hr.step.pidHash]
  rcases (hr.flag h.inv.binOff u).1 hu with hu | hu
  · obtain ⟨hmem, hhash⟩ := h.flagged u hu
    refine ⟨mem_reservedList.2 ?_, hhash⟩
    by_cases heq : (s.task u).tgid = t
    · exact Or.inl heq
    · exact Or.inr ((List.mem_erase_of_ne heq).2 hmem)
  · have htgid : (s.task u).tgid = t := (s.tgid_of_mem_threads hu).trans ht
    rw [htgid]
    exact ⟨mem_reservedList.2 (Or.inl rfl), (s.mem_threads.1 hu).imp_right And.left⟩

/-- Taking a reservation away takes the flags of all its threads. -/
theorem FlagInv.removed (h : FlagInv s list) (hinv : LeaderInv s' (list.erase t))
    (hpid : s'.pidHash = s.pidHash) (htgid : ∀ u, (s'.task u).tgid = (s.task u).tgid)
    (hflag : ∀ u, (s'.task u).isBudgetSet =
      ((s.task u).isBudgetSet && !decide (u ∈ s.threads t))) : FlagInv s' (list.erase t) := by
  refine ⟨hinv, fun u hu => ?_⟩
  rw [hflag, flag_and_iff] at hu
  obtain ⟨hmem, hhash⟩ := h.flagged u hu.1
  rw [htgid, hpid]
  refine ⟨?_, hhash⟩
  rw [h.inv.kept.nodup.mem_erase_iff]
  refine ⟨fun heq => hu.2 ?_, hmem⟩
  have := h.mem_threads hu.1
  rwa [heq] at this

/-- An unflagged task may go. -/
theorem FlagInv.finishExit (h : FlagInv s list) (ht : (s.task t).isBudgetSet = false)
    (autoreap : Bool) : FlagInv (finishExit t autoreap s) list := by
  refine ⟨h.inv.finishExit t autoreap, fun u hu => ?_⟩
  obtain ⟨_, _, hf⟩ := finishExit_task t u autoreap s
  rw [hf] at hu ⊢
  obtain ⟨hmem, hhash⟩ := h.flagged u hu
  refine ⟨hmem, hhash.imp_right fun hu' => ?_⟩
  have hne : u ≠ t := by
    rintro rfl
    rw [ht] at hu
    cases hu
  cases autoreap with
  | false => exact hu'
  | true => exact (List.mem_erase_of_ne hne).2 hu'

theorem FlagInv.exit_thread (h : FlagInv s list) (ht : t ≠ (s.task t).tgid) :
    FlagInv (s.modifyTask t fun p => { p with isBudgetSet := false }) list := by
  refine ⟨h.inv.exit_thread ht, fun u hu => ?_⟩
  rw [KState.modifyTask_task] at hu ⊢
  split_ifs at hu ⊢ with hut
  exact h.flagged u hu

/-! ### `fork` -/

/-- A task that does not exist yet. -/
structure Fresh (s : KState) (child : Tid) : Prop where
  unhashed : child ∉ s.pidHash
  unlisted : ¬ Holds s child
  unused : ∀ u ∈ s.pidHash, (s.task u).tgid ≠ child

theorem forkTask_reg (p : TaskStruct) (child : Tid) (thread : Bool) :
    (forkTask p child thread).isBudgetSet = p.isBudgetSet ∧
    (forkTask p child thread).tgid = if thread then p.tgid else child := by
  refine ⟨?_, rfl⟩
  simp only [forkTask, resetOnFork]
  split_ifs <;> rfl

theorem copyProcess_task (parent child u : Tid) (thread : Bool) (s : KState) :
    (copyProcess parent child thread s).task u =
      if u = child then forkTask (s.task parent) child thread else s.task u := by
  simp only [copyProcess, Function.update_apply]

/-- A node that is not on the list may be written. -/
theorem Kept.copyProcess (h : Kept s list) {child : Tid} (hnot : child ∉ list) (parent : Tid)
    (thread : Bool) : Kept (RtSched.copyProcess parent child thread s) list := by
  have hlinks : ∀ n, n ≠ .entry child →
      (RtSched.copyProcess parent child thread s).links n = s.links n :=
    fun n hn => Function.update_of_ne hn _ _
  refine ⟨?_, h.size, h.sorted.congr fun u hu => ?_⟩
  · rcases h.ring with hr | ⟨hnil, hnull⟩
    · refine Or.inl (hr.congr fun n hn => hlinks n ?_)
      rintro rfl
      simp only [List.mem_cons, reduceCtorEq, List.mem_map, RtNode.entry.injEq, exists_eq_right,
        false_or] at hn
      exact hnot hn
    · refine Or.inr ⟨hnil, ?_⟩
      rw [hlinks .head (by simp)]
      exact hnull
  · have hne : u ≠ child := by
      rintro rfl
      exact hnot hu
    rw [KState.periods, copyProcess_task, if_neg hne]
    rfl

/-- A new thread, or a new process of an unflagged parent, keeps the flags right. -/
theorem FlagInv.copyProcess {parent child : Tid} {thread : Bool} (h : FlagInv s list)
    (hparent : parent ∈ s.pidHash) (hfresh : Fresh s child)
    (hok : thread = false → (s.task parent).isBudgetSet = false) :
    FlagInv (RtSched.copyProcess parent child thread s) list := by
  have hnot : child ∉ list := fun hmem => hfresh.unlisted ⟨list, h.inv.kept.onList, hmem⟩
  obtain ⟨hflag, htgid⟩ := forkTask_reg (s.task parent) child thread
  refine ⟨⟨h.inv.kept.copyProcess hnot parent thread, h.inv.binOff, fun u hu => ?_, fun u hu => ?_⟩,
    fun u hu => ?_⟩
  · have hne : u ≠ child := by
      rintro rfl
      exact hnot hu
    rw [copyProcess_task, if_neg hne]
    exact h.inv.leader u hu
  · rw [copyProcess_task] at hu ⊢
    split_ifs at hu ⊢ with huc
    · -- a new thread is nobody's leader, a new process its own
      rw [hflag]
      rw [htgid] at hu
      cases thread with
      | true =>
        rw [huc] at hu
        exact absurd hu (hfresh.unused parent hparent)
      | false =>
        rw [hok rfl, huc]
        simp [hnot]
    · exact h.inv.flag u hu
  · rw [copyProcess_task] at hu ⊢
    split_ifs at hu ⊢ with huc
    · rw [hflag] at hu
      rw [htgid]
      cases thread with
      | true =>
        rw [huc]
        exact ⟨(h.flagged parent hu).1, Or.inr List.mem_cons_self⟩
      | false =>
        rw [hok rfl] at hu
        cases hu
    · obtain ⟨hmem, hhash⟩ := h.flagged u hu
      exact ⟨hmem, hhash.imp_right (List.mem_cons_of_mem _)⟩

/-! ### Runs -/

/-- The calls a flag survives: reservations of processes, cancellations of reserved tasks, exits,
new threads, and new processes of unflagged threads. -/
def FlagOk (s : KState) : Cmd → Prop
  | .setProcessBudget pid _ _ => ∀ t ∈ s.findTaskByVpid pid, (s.task t).tgid = t
  | .cancelBudget pid => ∀ t ∈ s.findTaskByVpid pid, ∀ list, OnList s list → t ∈ list ∨ list = []
  | .exit _ _ => True
  | .fork parent child thread => parent ∈ s.pidHash ∧ Fresh s child ∧
      (thread = false → (s.task parent).isBudgetSet = false)
  | _ => False

/-- One call keeps flags and reservations together. -/
theorem exec_flagInv (h : ∃ list, FlagInv s list ∧ ∀ u ∈ list, Budgeted (s.task u)) {c : Cmd}
    (hok : FlagOk s c) :
    Sat (fun x => ∃ list, FlagInv x.1 list ∧ ∀ u ∈ list, Budgeted (x.1.task u)) (fun _ => True)
      (exec e s c) := by
  obtain ⟨list, h, hbud⟩ := h
  have hk := h.inv.kept
  cases c with
  | setProcessBudget pid budget p =>
    refine setProcessBudget_leader
      (Q := fun s' => ∃ list, FlagInv s' list ∧ ∀ u ∈ list, Budgeted (s'.task u)) h.inv hok
      ⟨list, h, hbud⟩ ?_
    intro t ht hlt _ s₁ s' hinv hr hl
    refine ⟨_, (h.reserved (hok t ht) hinv hr).of_quiet hl.update.quiet_of_numbered, ?_⟩
    exact budgeted_reserved hbud (period_pos hlt) ⟨_, rfl⟩ hr hl
  | cancelBudget pid =>
    refine cancelBudget_leader
      (Q := fun s' => ∃ list, FlagInv s' list ∧ ∀ u ∈ list, Budgeted (s'.task u)) h.inv
      (fun t ht => hok t ht list hk.onList) ⟨list, h, hbud⟩ ?_
    intro t ht s₁ s' hinv hu hup hf _
    have h₁ := h.removed hinv hu.step.pidHash (fun u => congrArg TaskReg.tgid (hu.reg u))
      fun u => congrArg TaskReg.isBudgetSet (hu.reg u)
    obtain ⟨f, hf⟩ := hf
    exact ⟨_, h₁.of_quiet hup.quiet_of_numbered,
      budgeted_unreserved hk hbud hu hup.quiet_of_numbered hf⟩
  | exit t autoreap =>
    refine doExit_leader
      (Q := fun s' => ∃ list, FlagInv s' list ∧ ∀ u ∈ list, Budgeted (s'.task u)) h.inv
      (fun hf => ?_) (fun hthr => ?_) ?_
    · exact ⟨_, h.finishExit hf autoreap, budgeted_ended hbud (ended_finishExit t autoreap s)⟩
    · refine ⟨_, (h.exit_thread hthr).finishExit (by simp) autoreap, ?_⟩
      exact budgeted_ended hbud ((ended_clearFlag t s).trans (ended_finishExit t autoreap _))
    · intro hmem s₁ s' hinv hd hup hsys hkeep
      have h₁ := h.removed hinv hd.step.pidHash (fun u => congrArg TaskReg.tgid (hd.reg u))
        fun u => congrArg TaskReg.isBudgetSet (hd.reg u)
      have hq := hup.quiet_of_numbered
      have hflag := congrArg TaskReg.isBudgetSet
        (Eq.trans (registry_task hq.registry t) (hd.reg t))
      refine ⟨_, (h₁.of_quiet hq).finishExit ?_ autoreap,
        budgeted_ended (budgeted_dropped hbud hd hq hsys hkeep) (ended_finishExit t autoreap s')⟩
      simpa [TaskStruct.reg, s.self_mem_threads] using hflag
  | fork parent child thread =>
    refine ⟨list, h.copyProcess hok.1 hok.2.1 hok.2.2, fun u hu => ?_⟩
    have hne : u ≠ child := by
      rintro rfl
      exact hok.2.1.unlisted ⟨list, hk.onList, hu⟩
    simp only [copyProcess_task, if_neg hne]
    exact hbud u hu
  | _ => exact hok.elim

/-- The leader of the thread is on the list, with a positive period and a budget that is set. -/
def LeaderReserved (s : KState) (u : Tid) : Prop :=
  Holds s (s.task u).tgid ∧ 0 < timespecCompare (s.task (s.task u).tgid).timePeriod ⟨0, 0⟩ ∧
    (s.task (s.task u).tgid).budgetTime ≠ ⟨-1, -1⟩

/-- **A flag stands for a reservation.**  In every run in which reservations are made for processes,
cancelled for reserved tasks, and no flagged thread forks a process, every flagged thread has a
leader with a reservation. -/
theorem flag_implies_reservation (e : Env) {s : KState} (h : Reach Booted FlagOk (exec e) s)
    (u : Tid) (hu : (s.task u).isBudgetSet = true) : LeaderReserved s u := by
  obtain ⟨list, hinv, hbud⟩ := h.inv
    (I := fun s => ∃ list, FlagInv s list ∧ ∀ u ∈ list, Budgeted (s.task u))
    (fun s hs => ⟨[], ⟨leaderInv_booted hs, fun u hu => by simp [hs.flag u] at hu⟩, by simp⟩)
    fun _ _ hs hok => exec_flagInv hs hok
  obtain ⟨hmem, -⟩ := hinv.flagged u hu
  have hb := hbud _ hmem
  exact ⟨⟨list, hinv.inv.kept.onList, hmem⟩, hb.period, hb.budget.ne_sentinel⟩

/-- A reserved process and its new thread 3. -/
theorem flag_implies_reservation_thread :
    ∃ s, Reach Booted FlagOk (exec twoSpeeds) s ∧ (s.task 3).isBudgetSet = true ∧
      LeaderReserved s 3 := by
  have hboot := booted_bootState [1, 2] .noPm
  have hok : FlagOk (bootState [1, 2] .noPm) (.setProcessBudget 1 100000 ⟨1, 0⟩) := by
    unfold FlagOk
    decide
  obtain ⟨x, hx, hlist, hpid, htgid, htest⟩ : ∃ x, exec twoSpeeds (bootState [1, 2] .noPm)
      (.setProcessBudget 1 100000 ⟨1, 0⟩) = .ok x ∧ OnList x.1 [1] ∧ x.1.pidHash = [1, 2] ∧
      (∀ u ∈ x.1.pidHash, (x.1.task u).tgid ≠ 3) ∧
      (exec twoSpeeds x.1 (.fork 1 3 true)).test
        (fun y => decide ((y.1.task 3).isBudgetSet = true)) = true :=
    exists_ok_of_test (by decide)
  have hok' : FlagOk x.1 (.fork 1 3 true) := by
    refine ⟨by rw [hpid]; decide, ⟨by rw [hpid]; decide, ?_, htgid⟩, Bool.noConfusion⟩
    rintro ⟨list, hl, hmem⟩
    rw [hl.unique hlist] at hmem
    exact absurd hmem (by decide)
  obtain ⟨y, hy, hflag⟩ := exists_ok_of_test htest
  have hreach := ((Reach.start hboot).step hok hx).step hok' hy
  exact ⟨y.1, hreach, hflag, flag_implies_reservation twoSpeeds hreach 3 hflag⟩

/-- Forks and new threads of existing tasks, reservations for any thread, cancellations, exits. -/
def FlagCall (s : KState) : Cmd → Prop
  | .setProcessBudget _ _ _ | .cancelBudget _ | .exit _ _ => True
  | .fork parent child _ => parent ∈ s.pidHash ∧ Fresh s child
  | _ => False

/-- A reserved process forks: its child has the flag and no reservation. -/
theorem flag_inherited :
    ¬ ∀ e s u, Reach Booted FlagCall (exec e) s → (s.task u).isBudgetSet = true →
      LeaderReserved s u := by
  intro h
  obtain ⟨x, hx, hlist, hpid, htgid, htest⟩ : ∃ x, exec twoSpeeds (bootState [1, 2] .noPm)
      (.setProcessBudget 1 100000 ⟨1, 0⟩) = .ok x ∧ OnList x.1 [1] ∧ x.1.pidHash = [1, 2] ∧
      (∀ u ∈ x.1.pidHash, (x.1.task u).tgid ≠ 3) ∧
      (exec twoSpeeds x.1 (.fork 1 3 false)).test (fun y =>
        decide ((y.1.task 3).isBudgetSet = true ∧ (y.1.task 3).tgid = 3 ∧ OnList y.1 [1])) = true :=
    exists_ok_of_test (by decide)
  obtain ⟨y, hy, hflag, htgid', hlist'⟩ := exists_ok_of_test htest
  have hok' : FlagCall x.1 (.fork 1 3 false) := by
    refine ⟨by rw [hpid]; decide, by rw [hpid]; decide, ?_, htgid⟩
    rintro ⟨list, hl, hmem⟩
    rw [hl.unique hlist] at hmem
    exact absurd hmem (by decide)
  have hreach : Reach Booted FlagCall (exec twoSpeeds) y.1 :=
    ((Reach.start (booted_bootState [1, 2] .noPm)).step trivial hx).step hok' hy
  obtain ⟨⟨list, hl, hmem⟩, -⟩ := h twoSpeeds y.1 3 hreach hflag
  rw [htgid', hl.unique hlist'] at hmem
  exact absurd hmem (by decide)

end RtSched
