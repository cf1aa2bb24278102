import RtSched.Leader

/-!
# Registered tasks over whole runs

A task leaves the lists when it exits with the flag set, and its per-CPU list only in bin-packing
mode and only if `cpu_no`, which nothing writes, is the right CPU.  `registered_alive` is what holds
when every exit finds the task where it looks for it; `registered_dead` is the shortest run in which
it does not: a reservation made in bin-packing mode has no flag yet.
-/

namespace RtSched

open Call LinkRing

variable {e : Env} {s s' s'' : KState} {list : List Tid} {cl : ℕ → List Tid} {t u : Tid}

/-! ### Leaders that have exited -/

/-- The group leader of the task has not passed `do_exit`. -/
def LeaderAlive (s : KState) (t : Tid) : Prop := (s.task (s.task t).tgid).exiting = false

instance (s : KState) (t : Tid) : Decidable (LeaderAlive s t) := by
  unfold LeaderAlive
  infer_instance

/-- Groups and exits are as before. -/
def ExitSame (s s' : KState) : Prop :=
  ∀ u, (s'.task u).tgid = (s.task u).tgid ∧ (s'.task u).exiting = (s.task u).exiting

theorem ExitSame.trans (h : ExitSame s s') (h' : ExitSame s' s'') : ExitSame s s'' :=
  fun u => ⟨(h' u).1.trans (h u).1, (h' u).2.trans (h u).2⟩

theorem ExitSame.leaderAlive (h : ExitSame s s') (ht : LeaderAlive s t) : LeaderAlive s' t := by
  rw [LeaderAlive, (h t).1, (h _).2]
  exact ht

theorem exitSame_of_registry (h : s'.registry = s.registry) : ExitSame s s' := fun u =>
  ⟨congrArg TaskReg.tgid (registry_task h u), congrArg TaskReg.exiting (registry_task h u)⟩

theorem TaskUpdate.exitSame (h : TaskUpdate ButFlag s s') : ExitSame s s' := fun u =>
  ⟨congrArg TaskReg.tgid (h.task u), congrArg TaskReg.exiting (h.task u)⟩

theorem Reserved.exitSame {b p : Timespec} (h : Reserved t b p s s') : ExitSame s s' := fun u =>
  ⟨congrArg TaskReg.tgid (h.reg u), congrArg TaskReg.exiting (h.reg u)⟩

theorem Unreserved.exitSame (h : Unreserved t s s') : ExitSame s s' := fun u =>
  ⟨congrArg TaskReg.tgid (h.reg u), congrArg TaskReg.exiting (h.reg u)⟩

theorem Dropped.exitSame (h : Dropped t s s') : ExitSame s s' := fun u =>
  ⟨congrArg TaskReg.tgid (h.reg u), congrArg TaskReg.exiting (h.reg u)⟩

/-! ### The per-CPU lists when a task leaves -/

/-- The per-CPU lists after `leaveCpu`. -/
def leftCpu (s : KState) (cl : ℕ → List Tid) (t : Tid) : ℕ → List Tid :=
  if s.isBinPackingSet then
    Function.update cl (s.task t).cpuNo ((cl (s.task t).cpuNo).erase t)
  else cl

theorem mem_leftCpu {c : ℕ} (h : u ∈ leftCpu s cl t c) : u ∈ cl c := by
  unfold leftCpu at h
  split_ifs at h
  · by_cases hc : c = (s.task t).cpuNo
    · subst hc
      rw [Function.update_self] at h
      exact List.mem_of_mem_erase h
    · rwa [Function.update_of_ne hc] at h
  · exact h

theorem not_mem_leftCpu (hk : CpuKept s cl) (hbin : s.isBinPackingSet = true) :
    t ∉ leftCpu s cl t (s.task t).cpuNo := by
  rw [leftCpu, if_pos hbin, Function.update_self]
  exact List.Nodup.not_mem_erase (hk.nodup _)

/-- In bin-packing mode the task is where `cpu_no` says, or that list is empty. -/
def LeaveOk (s : KState) (cl : ℕ → List Tid) (t : Tid) : Prop :=
  s.isBinPackingSet = true → t ∈ cl (s.task t).cpuNo ∨ cl (s.task t).cpuNo = []

theorem leaveCpu_kept (h : CpuKept s cl) (hok : LeaveOk s cl t) :
    Sat (fun s' => s'.registry = s.registry ∧ CpuKept s' (leftCpu s cl t)) (fun _ => True)
      (leaveCpu e t s) := by
  refine sat_ite (fun hbin => ?_) fun hbin => ⟨rfl, ?_⟩
  · have hdel : ∃ s', delTaskCpu t (s.task t).cpuNo s = .ok s' ∧ s'.registry = s.registry ∧
        CpuKept s' (leftCpu s cl t) := by
      rw [leftCpu, if_pos hbin]
      rcases hok hbin with ht | hnil
      · obtain ⟨s', hdel, hk, _, _, rfl⟩ := delTaskCpu_kept h ht
        exact ⟨_, hdel, rfl, hk⟩
      · refine ⟨s, delTaskCpu_of_empty (by rw [h.size, hnil]; rfl), rfl, ?_⟩
        rw [hnil, List.erase_nil, ← hnil, Function.update_eq_self]
        exact h
    obtain ⟨s₁, hdel, hreg, hk⟩ := hdel
    rw [hdel, ok_bind]
    refine Sat.bind ((setRtPrioritiesPerCpu_update e.fuel _ s₁).mono (fun _ h => h)
      fun _ _ => trivial) fun x hx => ?_
    have hq := hx.quiet_of_prio
    exact ⟨hq.registry.trans hreg, hk.of_registry hq.cpuRegistry⟩
  · rw [leftCpu, if_neg hbin]
    exact h

/-! ### One call -/

/-- What a removal leaves. -/
structure Left (list : List Tid) (cl : ℕ → List Tid) (t : Tid) (s s' : KState) : Prop where
  kept : Kept s' (list.erase t)
  cpuKept : CpuKept s' (leftCpu s cl t)
  same : ExitSame s s'

/-- What a removal leaves, with the CPU numbers. -/
structure Removed (list : List Tid) (cl : ℕ → List Tid) (t : Tid) (s s' : KState) : Prop extends
    Left list cl t s s' where
  cpuNo : ∀ u, (s'.task u).cpuNo = (s.task u).cpuNo

theorem Removed.of_quiet (h : Removed list cl t s s') (hq : Quiet s' s'') :
    Removed list cl t s s'' :=
  ⟨⟨h.kept.of_quiet hq, h.cpuKept.of_registry hq.cpuRegistry,
    h.same.trans (exitSame_of_registry hq.registry)⟩,
    fun u => (congrArg TaskReg.cpuNo (registry_task hq.registry u)).trans (h.cpuNo u)⟩

/-- Leaving the CPU after the global list. -/
theorem leaveCpu_removed {s₀ : KState} (hk : Kept s₀ (list.erase t)) (hc : CpuKept s cl)
    (hok : LeaveOk s cl t) (hstep : ListStep s s₀) (hsame : ExitSame s s₀)
    (hno : ∀ u, (s₀.task u).cpuNo = (s.task u).cpuNo) :
    Sat (Removed list cl t s) (fun _ => True) (leaveCpu e t s₀) := by
  have hleft : leftCpu s₀ cl t = leftCpu s cl t := by rw [leftCpu, leftCpu, hstep.bin, hno]
  have hok₀ : LeaveOk s₀ cl t := by
    intro hbin
    rw [hno]
    exact hok (hstep.bin.symm.trans hbin)
  refine (leaveCpu_kept (hc.of_registry hstep.cpuRegistry) hok₀).mono ?_ fun _ _ => trivial
  rintro s' ⟨hreg, hk'⟩
  rw [hleft] at hk'
  exact ⟨⟨hk.of_registry hreg, hk', hsame.trans (exitSame_of_registry hreg)⟩,
    fun u => (congrArg TaskReg.cpuNo (registry_task hreg u)).trans (hno u)⟩

theorem cancelReservation_removed (hk : Kept s list) (hc : CpuKept s cl)
    (hmem : t ∈ list ∨ list = []) (hok : LeaveOk s cl t) :
    Sat (Removed list cl t s) (fun _ => True) (cancelReservation e t s) := by
  obtain ⟨s₀, hdel, hk₀, hu⟩ := unreserve_sat hk hmem
  rw [cancelReservation, hdel, ok_bind]
  refine (leaveCpu_removed hk₀ hc hok hu.step hu.exitSame
    fun v => congrArg TaskReg.cpuNo (hu.reg v)).bind fun s₁ hs₁ => ?_
  have hwake : Quiet s₁ (s₁.eachThread t wakeUpProcess) :=
    (taskUpdate_eachThread ClockOnly.refl wakeUpProcess_clockOnly).quiet_of_clock
  have hs₂ := hs₁.of_quiet hwake
  refine sat_ite (fun _ => hs₂) fun _ => (retuneAfterCancel_sat hs₂.kept).mono ?_ fun _ _ => trivial
  exact fun s' hs' => hs₂.of_quiet hs'.1.quiet_of_numbered

theorem exitReservation_removed (hk : Kept s list) (hc : CpuKept s cl)
    (hmem : t ∈ list ∨ list = []) (hok : LeaveOk s cl t) (hlead : t = (s.task t).tgid) :
    Sat (Removed list cl t s) (fun _ => True) (exitReservation e t s) := by
  obtain ⟨s₀, hdel, hk₀, hd⟩ := drop_sat hk hmem
  rw [exitReservation, if_pos hlead, hdel, ok_bind]
  refine (leaveCpu_removed hk₀ hc hok hd.step hd.exitSame
    fun v => congrArg TaskReg.cpuNo (hd.reg v)).bind fun s₁ hs₁ => ?_
  refine sat_ite (fun _ => hs₁) fun _ => (retuneAfterExit_sat hs₁.kept).mono ?_ fun _ _ => trivial
  exact fun s' hs' => hs₁.of_quiet hs'.1.quiet_of_numbered

theorem setReservation_quiet (h : Kept s list) (hok : SetOk s list t) (budget : ℕ)
    (b p : Timespec) :
    Sat (fun s' => ∃ s₁, Kept s₁ (reservedList s t p list) ∧ Reserved t b p s s₁ ∧ Quiet s₁ s')
      (fun _ => True) (setReservation e t budget b p s) := by
  refine Sat.bind ((reserve_sat h hok b p).mono (fun _ h => h) fun _ _ => trivial) ?_
  rintro s₁ ⟨hk, hr⟩
  refine sat_ite (fun _ => ⟨s₁, hk, hr, Quiet.refl s₁⟩) fun _ => ?_
  exact (launchReservation_sat hk t budget).mono
    (fun s' hs' => ⟨s₁, hk, hr, hs'.update.quiet_of_numbered⟩) fun _ _ => trivial

/-! ### The invariant -/

/-- The task is on the list of the CPU. -/
def CpuHolds (s : KState) (cpu : ℕ) (t : Tid) : Prop := ∃ l, OnCpuList s cpu l ∧ t ∈ l

theorem OnCpuList.not_holds {c : ℕ} (h : OnCpuList s c []) : ¬ CpuHolds s c t := by
  rintro ⟨l, hl, ht⟩
  rw [hl.unique h] at ht
  cases ht

theorem CpuKept.mem_of_holds {c : ℕ} (h : CpuKept s cl) (ht : CpuHolds s c t) : t ∈ cl c := by
  obtain ⟨l, hl, ht⟩ := ht
  rwa [hl.unique (h.onCpuList c)] at ht

/-- The lists are well formed, and the leader of every task on one of them is alive. -/
structure AliveInv (s : KState) (list : List Tid) (cl : ℕ → List Tid) : Prop where
  kept : Kept s list
  cpuKept : CpuKept s cl
  alive : ∀ t ∈ list, LeaderAlive s t
  cpuAlive : ∀ c, ∀ t ∈ cl c, LeaderAlive s t

theorem aliveInv_booted (h : Booted s) : AliveInv s [] fun _ => [] :=
  ⟨kept_booted h, cpuKept_booted h, by simp, by simp⟩

theorem AliveInv.left (h : AliveInv s list cl) (hs : Left list cl t s s') :
    AliveInv s' (list.erase t) (leftCpu s cl t) :=
  ⟨hs.kept, hs.cpuKept, fun u hu => hs.same.leaderAlive (h.alive u (List.mem_of_mem_erase hu)),
    fun c u hu => hs.same.leaderAlive (h.cpuAlive c u (mem_leftCpu hu))⟩

/-- Calls that write neither a list nor an exit. -/
theorem AliveInv.same (h : AliveInv s list cl) (hk : Kept s' list)
    (hcpu : s'.cpuRegistry = s.cpuRegistry) (hsame : ExitSame s s') : AliveInv s' list cl :=
  ⟨hk, h.cpuKept.of_registry hcpu, fun u hu => hsame.leaderAlive (h.alive u hu),
    fun c u hu => hsame.leaderAlive (h.cpuAlive c u hu)⟩

theorem AliveInv.of_quiet (h : AliveInv s list cl) (hq : Quiet s s') : AliveInv s' list cl :=
  h.same (h.kept.of_quiet hq) hq.cpuRegistry (exitSame_of_registry hq.registry)

theorem AliveInv.reserved {b p : Timespec} {s₁ : KState} (h : AliveInv s list cl)
    (ht : LeaderAlive s t) (hk : Kept s₁ (reservedList s t p list)) (hr : Reserved t b p s s₁) :
    AliveInv s₁ (reservedList s t p list) cl := by
  refine ⟨hk, h.cpuKept.of_registry hr.step.cpuRegistry, fun u hu => ?_,
    fun c u hu => hr.exitSame.leaderAlive (h.cpuAlive c u hu)⟩
  rcases mem_reservedList.1 hu with rfl | hu
  · exact hr.exitSame.leaderAlive ht
  · exact hr.exitSame.leaderAlive (h.alive u (List.mem_of_mem_erase hu))

/-- A task of another group does not notice an exit. -/
theorem finishExit_leaderAlive (h : LeaderAlive s u) (hne : (s.task u).tgid ≠ t) (autoreap : Bool) :
    LeaderAlive (finishExit t autoreap s) u := by
  have htgid : ((finishExit t autoreap s).task u).tgid = (s.task u).tgid := by
    obtain ⟨_, _, hu⟩ := finishExit_task t u autoreap s
    rw [hu]
  rw [LeaderAlive] at h
  rw [LeaderAlive, htgid]
  cases autoreap <;> simpa [finishExit, hne] using h

/-- An exit is safe when no listed task has the dead one for its leader. -/
theorem AliveInv.finishExit (h : AliveInv s list cl) (hlist : ∀ u ∈ list, (s.task u).tgid ≠ t)
    (hcpu : ∀ c, ∀ u ∈ cl c, (s.task u).tgid ≠ t) (autoreap : Bool) :
    AliveInv (RtSched.finishExit t autoreap s) list cl := by
  have hreg : (RtSched.finishExit t autoreap s).cpuRegistry = s.cpuRegistry := by
    cases autoreap <;> rfl
  exact ⟨finishExit_kept h.kept t autoreap, h.cpuKept.of_registry hreg,
    fun u hu => finishExit_leaderAlive (h.alive u hu) (hlist u hu) autoreap,
    fun c u hu => finishExit_leaderAlive (h.cpuAlive c u hu) (hcpu c u hu) autoreap⟩

theorem clearCpuLists_alive (h : AliveInv s list cl) (fuel : ℕ) :
    Sat (fun s' => ∃ cl', AliveInv s' list cl') (fun _ => True) (clearCpuLists fuel s) := by
  refine (clearCpuLists_kept h.cpuKept fuel).mono ?_ fun _ _ => trivial
  rintro s' ⟨⟨cl', hk', hsub⟩, hreg⟩
  have hsame := exitSame_of_registry hreg
  exact ⟨cl', h.kept.of_registry hreg, hk', fun u hu => hsame.leaderAlive (h.alive u hu),
    fun c u hu => hsame.leaderAlive (h.cpuAlive c u (hsub c u hu))⟩

theorem stopScheduling_alive (h : AliveInv s list cl) :
    Sat (fun x => ∃ cl', AliveInv x.1 list cl') (fun _ => True) (stopScheduling e s) := by
  have h₁ : AliveInv { s with isBinPackingSet := true } list cl :=
    h.same ⟨h.kept.ring, h.kept.size, h.kept.sorted⟩ rfl fun _ => ⟨rfl, rfl⟩
  refine sat_ite (fun _ => ⟨cl, h₁⟩) fun _ => ?_
  refine Sat.bind ((h₁.kept.periodicTasks_sat e.fuel).mono (fun _ h => h) fun _ _ => trivial)
    fun l _ => ?_
  have h₂ := h₁.of_quiet (taskUpdate_foldl ClockOnly.refl ClockOnly.trans id stopTask_update l
    _).quiet_of_clock
  exact (clearCpuLists_alive h₂ e.fuel).bind fun s' hs' => hs'

/-- Packing puts listed tasks on the CPUs, and these are alive. -/
theorem setBinPacking_alive (h : AliveInv s list cl) (hout : ∀ t ∈ list, ∀ c, t ∉ cl c)
    (scheme : ℤ) :
    Sat (fun x => ∃ cl', AliveInv x.1 list cl') (fun _ => True) (setBinPacking e scheme s) := by
  have h₁ : AliveInv { s with binPackingScheme := scheme, powerScheme := .noPm } list cl :=
    h.same ⟨h.kept.ring, h.kept.size, h.kept.sorted⟩ rfl fun _ => ⟨rfl, rfl⟩
  refine sat_ite (fun _ => ⟨cl, h⟩) fun _ => ?_
  refine Sat.bind ((binPacking_kept h₁.kept h₁.cpuKept hout scheme.toNat).mono (fun _ h => h)
    fun _ _ => trivial) ?_
  rintro ⟨s₂, bins⟩ ⟨⟨cl', hk', hsub, -⟩, -, -, hreg⟩
  have hsame := exitSame_of_registry hreg
  have h₂ : AliveInv s₂ list cl' := by
    refine ⟨h₁.kept.of_registry hreg, hk', fun u hu => hsame.leaderAlive (h₁.alive u hu), ?_⟩
    intro c u hu
    rcases hsub c u hu with hu | hu
    · exact hsame.leaderAlive (h₁.cpuAlive c u hu)
    · exact hsame.leaderAlive (h₁.alive u hu)
  refine sat_ite (fun _ => ?_) fun _ => ⟨cl', h₂⟩
  exact (clearCpuLists_alive h₂ e.fuel).bind fun s' hs' => hs'

/-! ### Runs -/

/-- The task can be taken off the lists: it is where the code looks for it, or nothing is there. -/
def RemoveOk (s : KState) (t : Tid) : Prop :=
  (Holds s t ∨ OnList s []) ∧ (s.isBinPackingSet = true →
    CpuHolds s (s.task t).cpuNo t ∨ OnCpuList s (s.task t).cpuNo [])

/-- The calls that leave no dead task behind.  At an exit the only listed task of the group is the
leader itself, with the flag that makes `do_exit` take it off and on the CPU it looks at. -/
def RegisteredOk (s : KState) : Cmd → Prop
  | .setProcessBudget pid _ _ => ∀ t ∈ s.findTaskByVpid pid,
      LeaderAlive s t ∧ ∀ list, OnList s list → SetOk s list t
  | .cancelBudget pid => ∀ t ∈ s.findTaskByVpid pid, RemoveOk s t
  | .exit t _ => (s.task t).tgid = t ∧ ((s.task t).isBudgetSet = true → RemoveOk s t) ∧
      (∀ u, Holds s u → (s.task u).tgid = t → u = t ∧ (s.task t).isBudgetSet = true) ∧
      ∀ c u, CpuHolds s c u → (s.task u).tgid = t →
        u = t ∧ (s.task t).isBudgetSet = true ∧ s.isBinPackingSet = true ∧ (s.task t).cpuNo = c
  | .setBinPacking _ => ∀ t c, Holds s t → ¬ CpuHolds s c t
  | .stopScheduling | .startScheduling | .cancelBinPacking => True
  | .fork _ _ _ => False

theorem RemoveOk.of_kept (hok : RemoveOk s t) (hk : Kept s list) (hc : CpuKept s cl) :
    (t ∈ list ∨ list = []) ∧ LeaveOk s cl t := by
  refine ⟨hok.1.imp hk.mem_of_holds fun hnil => hk.onList.unique hnil, fun hbin => ?_⟩
  exact (hok.2 hbin).imp hc.mem_of_holds fun hnil => (hc.onCpuList _).unique hnil

/-- A reservation leaves the lists of the CPUs alone. -/
theorem setProcessBudget_alive (h : AliveInv s list cl) {pid : ℤ} {budget : ℕ} {p : Timespec}
    (hok : RegisteredOk s (.setProcessBudget pid budget p)) :
    Sat (fun x => ∃ list, AliveInv x.1 list cl) (fun _ => True)
      (exec e s (.setProcessBudget pid budget p)) := by
  refine setProcessBudget_rule (Q := fun s' => ∃ list, AliveInv s' list cl) h.kept ⟨list, h⟩
    fun t ht _ _ => ?_
  obtain ⟨halive, hset⟩ := hok t ht
  refine (setReservation_quiet h.kept (hset list h.kept.onList) budget _ p).mono ?_
    fun _ _ => trivial
  rintro s' ⟨s₁, hk, hr, hq⟩
  exact ⟨_, (h.reserved halive hk hr).of_quiet hq⟩

theorem exec_alive (h : ∃ list cl, AliveInv s list cl) {c : Cmd} (hok : RegisteredOk s c) :
    Sat (fun x => ∃ list cl, AliveInv x.1 list cl) (fun _ => True) (exec e s c) := by
  obtain ⟨list, cl, h⟩ := h
  cases c with
  | setProcessBudget pid budget p =>
    refine (setProcessBudget_alive h hok).mono ?_ fun _ h => h
    rintro x ⟨list', hx⟩
    exact ⟨list', cl, hx⟩
  | cancelBudget pid =>
    refine cancelBudget_rule (Q := fun s' => ∃ list cl, AliveInv s' list cl) ⟨list, cl, h⟩
      fun t ht => ?_
    obtain ⟨hmem, hleave⟩ := (hok t ht).of_kept h.kept h.cpuKept
    exact (cancelReservation_removed h.kept h.cpuKept hmem hleave).mono
      (fun s' hs' => ⟨_, _, h.left hs'.toLeft⟩) fun _ _ => trivial
  | exit t autoreap =>
    obtain ⟨hlead, hrem, hlist, hcpu⟩ := hok
    refine doExit_rule (Q := fun s' => ∃ list cl, AliveInv s' list cl) (fun hf => ?_) fun hf => ?_
    · obtain ⟨hmem, hleave⟩ := (hrem hf).of_kept h.kept h.cpuKept
      refine (exitReservation_removed h.kept h.cpuKept hmem hleave hlead.symm).mono ?_
        fun _ _ => trivial
      -- whoever is still listed was listed before; of the group that was the leader only
      intro s' hs'
      refine ⟨_, _, (h.left hs'.toLeft).finishExit (fun u hu => ?_) (fun c u hu => ?_) autoreap⟩
      · rw [(hs'.same u).1]
        intro htg
        exact h.kept.ne_of_mem_erase hu
          (hlist u ⟨list, h.kept.onList, List.mem_of_mem_erase hu⟩ htg).1
      · rw [(hs'.same u).1]
        intro htg
        obtain ⟨rfl, -, hbin, rfl⟩ := hcpu c u ⟨cl c, h.cpuKept.onCpuList c, mem_leftCpu hu⟩ htg
        exact not_mem_leftCpu h.cpuKept hbin hu
    · refine ⟨list, cl, h.finishExit (fun u hu htg => ?_) (fun c u hu htg => ?_) autoreap⟩
      · have hflag := (hlist u ⟨list, h.kept.onList, hu⟩ htg).2
        rw [hf] at hflag
        cases hflag
      · have hflag := (hcpu c u ⟨cl c, h.cpuKept.onCpuList c, hu⟩ htg).2.1
        rw [hf] at hflag
        cases hflag
  | stopScheduling => exact (stopScheduling_alive h).mono (fun _ hs => ⟨list, hs⟩) fun _ h => h
  | setBinPacking scheme =>
    refine (setBinPacking_alive h (fun t ht c htc => ?_) scheme).mono (fun _ hs => ⟨list, hs⟩)
      fun _ h => h
    exact hok t c ⟨list, h.kept.onList, ht⟩ ⟨cl c, h.cpuKept.onCpuList c, htc⟩
  | startScheduling =>
    refine (startScheduling_update h.kept).mono (fun x hu => ⟨list, cl, ?_⟩) fun _ _ => trivial
    exact h.same (h.kept.of_butFlag hu) hu.cpuRegistry hu.exitSame
  | cancelBinPacking =>
    exact ⟨list, cl, h.same ⟨h.kept.ring, h.kept.size, h.kept.sorted⟩ rfl fun _ => ⟨rfl, rfl⟩⟩
  | fork _ _ _ => exact hok.elim

/-- Every task on the global list and on every per-CPU list has a leader that is alive. -/
def NoDead (s : KState) : Prop :=
  (∃ list, OnList s list ∧ ∀ t ∈ list, LeaderAlive s t) ∧
    ∀ c, ∃ l, OnCpuList s c l ∧ ∀ t ∈ l, LeaderAlive s t

/-- **No dead task stays registered.**  In every run whose removals find the task where the code
looks for it, and in which no unflagged listed task exits, whoever is listed has a leader that is
alive. -/
theorem registered_alive (e : Env) {s : KState} (h : Reach Booted RegisteredOk (exec e) s) :
    NoDead s := by
  obtain ⟨list, cl, hinv⟩ := h.inv (I := fun s => ∃ list cl, AliveInv s list cl)
    (fun s hs => ⟨[], _, aliveInv_booted hs⟩) fun _ _ hs hok => exec_alive hs hok
  exact ⟨⟨list, hinv.kept.onList, hinv.alive⟩,
    fun c => ⟨cl c, hinv.cpuKept.onCpuList c, hinv.cpuAlive c⟩⟩

/-- Two tasks are reserved, and the first of them exits. -/
theorem registered_alive_reserved :
    ∃ s, Reach Booted RegisteredOk (exec twoSpeeds) s ∧ (s.task 1).exiting = true ∧ OnList s [2] ∧
      NoDead s := by
  have hboot := booted_bootState [1, 2] .noPm
  obtain ⟨x, hx, hlist₁, hflag, hfind, halive, htest⟩ : ∃ x,
      exec twoSpeeds (bootState [1, 2] .noPm) (.setProcessBudget 1 100000000 ⟨1, 0⟩) = .ok x ∧
      OnList x.1 [1] ∧ (x.1.task 2).isBudgetSet = false ∧ x.1.findTaskByVpid 2 = some 2 ∧
      LeaderAlive x.1 2 ∧
      (exec twoSpeeds x.1 (.setProcessBudget 2 200000000 ⟨2, 0⟩)).test (fun y => decide
        (OnList y.1 [1, 2] ∧ y.1.isBinPackingSet = false ∧ (y.1.task 1).isBudgetSet = true ∧
          (y.1.task 1).tgid = 1 ∧ (y.1.task 2).tgid = 2 ∧
          (exec twoSpeeds y.1 (.exit 1 false)).test (fun z => decide
            ((z.1.task 1).exiting = true ∧ OnList z.1 [2])) = true)) = true :=
    exists_ok_of_test (by decide)
  obtain ⟨y, hy, hlist₂, hoff, hset, hlead, hother, htest⟩ := exists_ok_of_test htest
  obtain ⟨z, hz, hdead, hlist₃⟩ := exists_ok_of_test htest
  have hok₁ : RegisteredOk (bootState [1, 2] .noPm) (.setProcessBudget 1 100000000 ⟨1, 0⟩) :=
    fun _ _ => ⟨hboot.alive _, fun _ hl => (kept_booted hboot).onList.setOk_nil hl⟩
  have hok₂ : RegisteredOk x.1 (.setProcessBudget 2 200000000 ⟨2, 0⟩) := by
    intro t ht
    obtain rfl : 2 = t := Option.some.inj (hfind.symm.trans ht)
    exact ⟨halive, fun _ hl => hlist₁.setOk_of_not_mem (by decide) hflag hl⟩
  -- no CPU has a list, since nothing was packed
  obtain ⟨_, hinv₁⟩ := sat_of_eq (setProcessBudget_alive (aliveInv_booted hboot) hok₁) hx
  obtain ⟨_, hinv₂⟩ := sat_of_eq (setProcessBudget_alive hinv₁ hok₂) hy
  have hok₃ : RegisteredOk y.1 (.exit 1 false) := by
    refine ⟨hlead, fun _ => ⟨Or.inl ⟨_, hlist₂, by decide⟩, fun hbin => ?_⟩, ?_, ?_⟩
    · rw [hoff] at hbin
      cases hbin
    · rintro u ⟨list, hl, hu⟩ htg
      rw [hl.unique hlist₂] at hu
      rcases List.mem_pair.1 hu with rfl | rfl
      · exact ⟨rfl, hset⟩
      · rw [hother] at htg
        cases htg
    · intro c u hu
      exact absurd hu (hinv₂.cpuKept.onCpuList c).not_holds
  have hreach := (((Reach.start hboot).step hok₁ hx).step hok₂ hy).step hok₃ hz
  exact ⟨z.1, hreach, hdead, hlist₃, registered_alive twoSpeeds hreach⟩

/-- The calls of the reservation system, with exits of group leaders only. -/
def RegisterCall (s : KState) : Cmd → Prop
  | .exit t _ => (s.task t).tgid = t
  | .fork _ _ _ => False
  | _ => True

instance (s : KState) : (c : Cmd) → Decidable (RegisterCall s c)
  | .exit t _ => inferInstanceAs (Decidable ((s.task t).tgid = t))
  | .fork _ _ _ => instDecidableFalse
  | .setProcessBudget _ _ _ | .cancelBudget _ | .stopScheduling | .setBinPacking _
  | .startScheduling | .cancelBinPacking => instDecidableTrue

/-- A task reserved in bin-packing mode exits before `sys_startScheduling` has raised its flag. -/
theorem registered_dead :
    ¬ ∀ e s, Reach Booted RegisterCall (exec e) s → NoDead s := by
  intro h
  obtain ⟨s, hs, hlist, hdead⟩ : ∃ s, follow RegisterCall (exec twoSpeeds)
      [.stopScheduling, .setProcessBudget 1 100000 ⟨1, 0⟩, .exit 1 false]
      (bootState [1] .noPm) = some s ∧ OnList s [1] ∧ ¬ LeaderAlive s 1 :=
    exists_some_of_test (by decide)
  have hreach := reach_of_follow (Reach.start (booted_bootState [1] .noPm)) hs
  obtain ⟨⟨list, hl, halive⟩, -⟩ := h twoSpeeds s hreach
  rw [hl.unique hlist] at halive
  exact hdead (halive 1 List.mem_cons_self)

end RtSched
