import RtSched.ExitRun
import RtSched.Placement

/-!
# The per-CPU lists over whole runs

Packing records the CPU of a task in `on_cpu`; the removals look for it on the list of `cpu_no`, which
nothing writes.  So the lists stay what they should be as long as all tasks fit on the CPU that
`cpu_no` names (`cpuLists_invariant`); the first packing that opens a second CPU ends it
(`cpuLists_broken`).
-/

namespace RtSched

open Call LinkRing

variable {e : Env} {s s' : KState} {list : List Tid} {cl : ℕ → List Tid} {t : Tid} {fuel : ℕ}

/-! ### A packing on one CPU -/

/-- The CPU with the tasks `bin` admits the remaining tasks one after the other. -/
def AllAdmitted (s : KState) : List Tid → List TaskCt → Prop
  | _, [] => True
  | bin, c :: rem => Admits s bin c ∧ AllAdmitted s (insertByPeriod s.periods c.task bin) rem

/-- Only the tasks matter. -/
theorem allAdmitted_congr (htask : s'.task = s.task) {bin : List Tid} {rem : List TaskCt} :
    AllAdmitted s' bin rem ↔ AllAdmitted s bin rem := by
  have hct : cpuCtOf s' = cpuCtOf s := by
    funext t
    rw [cpuCtOf, cpuCtOf, htask]
  have hper : s'.periods = s.periods := by
    funext t
    rw [KState.periods, KState.periods, htask]
  induction rem generalizing bin with
  | nil => exact Iff.rfl
  | cons c rem ih =>
    rw [AllAdmitted, AllAdmitted, Admits, Admits, hct, hper]
    exact and_congr_right fun _ => ih

theorem utilOrder_congr (htask : s'.task = s.task) (list : List Tid) :
    utilOrder s' list = utilOrder s list := by
  have hct : utilCt s' = utilCt s := by
    funext t
    simp only [utilCt, ctOf, htask]
  rw [utilOrder, utilOrder, hct]

section First

variable {scheme : ℕ} {c : TaskCt} {rem : List TaskCt} {k : Packing} {x : Packing × Bool}

/-- With one bin open there is one to choose. -/
theorem getUtilBin_one (bins : ℕ → ℤ) : getUtilBin bins 0 1 = some 0 := by
  simp [getUtilBin, bubbleSort, bubbleFrom, bubblePass]

/-- An attempt that succeeds. -/
theorem packByUtil_takes {index : ℕ → ℕ → ℕ} {n j cpu : ℕ}
    (h : packByUtil fuel index c n j k = .ok x)
    (hrank : getUtilBin k.st.cpuUtil (index k.currentBins j) k.currentBins = some cpu)
    (hadm : ∀ b, checkAdmissionPerCpu fuel c.budget c.period cpu k.st = .ok b → b = true) :
    ∃ k', place fuel c cpu k = .ok k' ∧ x = (k', true) := by
  cases n with
  | zero => cases h
  | succ n =>
    rw [packByUtil, hrank] at h
    obtain ⟨b, hb, h⟩ := bind_eq_ok.1 h
    obtain rfl := hadm b hb
    obtain ⟨k', hplace, h⟩ := bind_eq_ok.1 h
    exact ⟨k', hplace, (Except.ok.inj h).symm⟩

/-- While only CPU 0 is open and admits the task, every scheme that starts with one bin puts it
there. -/
theorem packOne_first (hscheme : scheme ≤ 3) (h1 : k.currentBins = 1) (h0 : k.prevBin = 0)
    (hadm : ∀ b, checkAdmissionPerCpu fuel c.budget c.period 0 k.st = .ok b → b = true)
    (h : packOne fuel scheme c k = .ok x) : ∃ k', place fuel c 0 k = .ok k' ∧ x = (k', true) := by
  match scheme, hscheme with
  | 0, _ =>
    cases fuel with
    | zero => cases h
    | succ n =>
      obtain ⟨r, hr, h⟩ := bind_eq_ok.1 h
      rw [h1] at hr
      obtain ⟨b, hb, hr⟩ := bind_eq_ok.1 hr
      obtain rfl := hadm b hb
      obtain rfl := Except.ok.inj hr
      obtain ⟨k', hplace, h⟩ := bind_eq_ok.1 h
      exact ⟨k', hplace, (Except.ok.inj h).symm⟩
  | 1, _ =>
    obtain ⟨y, hy, h⟩ := bind_eq_ok.1 h
    rw [h1] at hy
    obtain ⟨b, hb, hy⟩ := bind_eq_ok.1 hy
    rw [h0] at hb hy
    obtain rfl := hadm b hb
    obtain ⟨k', hplace, hy⟩ := bind_eq_ok.1 hy
    obtain rfl := Except.ok.inj hy
    exact ⟨k', hplace, (Except.ok.inj h).symm⟩
  | 2, _ =>
    refine packByUtil_takes h ?_ hadm
    rw [h1]
    exact getUtilBin_one _
  | 3, _ =>
    refine packByUtil_takes h ?_ hadm
    rw [h1]
    exact getUtilBin_one _

/-- All tasks end up on CPU 0. -/
theorem packAll_first (hscheme : scheme ≤ 3) (h1 : k.currentBins = 1) (h0 : k.prevBin = 0)
    (hk : CpuKept k.st cl) (hf : PackFrame s k.st) (hp : Pending s cl rem)
    (hadm : AllAdmitted s (cl 0) rem) (h : packAll fuel scheme rem k = .ok x) :
    ∃ cl', CpuKept x.1.st cl' ∧ PackFrame s x.1.st ∧
      ∀ d, ∀ u ∈ cl' d, u ∈ cl d ∨ d = 0 ∧ u ∈ rem.map TaskCt.task := by
  induction rem generalizing k cl with
  | nil =>
    obtain rfl := Except.ok.inj h
    exact ⟨cl, hk, hf, fun _ _ hu => Or.inl hu⟩
  | cons c rem ih =>
    obtain ⟨hc, hrest⟩ := hadm
    obtain ⟨y, hone, h⟩ := bind_eq_ok.1 h
    have hcheck : ∀ b, checkAdmissionPerCpu fuel c.budget c.period 0 k.st = .ok b → b = true :=
      fun b hb => (checkAdmissionPerCpu_iff hk hb).2 (hf.admits.2 hc)
    obtain ⟨k', hplace, rfl⟩ := packOne_first hscheme h1 h0 hcheck hone
    obtain ⟨hbins, hprev⟩ := place_bins hplace
    obtain ⟨hk', hf'⟩ := place_puts hk (hp.off c List.mem_cons_self) hplace
    rw [hf.put_eq] at hk'
    have hcl0 : put s cl c.task 0 0 = insertByPeriod s.periods c.task (cl 0) :=
      Function.update_self ..
    obtain ⟨cl', hk'', hf'', hsub⟩ := ih (hbins.trans h1) (hprev.trans h0) hk' (hf.trans hf')
      (hp.put 0) (by rw [hcl0]; exact hrest) h
    refine ⟨cl', hk'', hf'', fun d u hu => ?_⟩
    rw [List.map_cons, List.mem_cons]
    rcases hsub d u hu with hput | ⟨hd, hrem⟩
    · rcases mem_put.1 hput with ⟨hd, hnew⟩ | hold
      · exact Or.inr ⟨hd, Or.inl hnew⟩
      · exact Or.inl hold
    · exact Or.inr ⟨hd, Or.inr hrem⟩

end First

/-! ### The invariant -/

/-- The lists are well formed, and `cpu_no` says where a packed task is. -/
structure CpuInv (s : KState) (list : List Tid) (cl : ℕ → List Tid) : Prop where
  kept : Kept s list
  cpuKept : CpuKept s cl
  cpuNo : ∀ c, ∀ t ∈ cl c, (s.task t).cpuNo = c

theorem cpuInv_booted (h : Booted s) : CpuInv s [] fun _ => [] :=
  ⟨kept_booted h, cpuKept_booted h, by simp⟩

/-- Calls that leave the per-CPU lists and `cpu_no` alone. -/
theorem CpuInv.of_same (h : CpuInv s list cl) {list' : List Tid} (hk : Kept s' list')
    (hcpu : s'.cpuRegistry = s.cpuRegistry) (hno : ∀ u, (s'.task u).cpuNo = (s.task u).cpuNo) :
    CpuInv s' list' cl :=
  ⟨hk, h.cpuKept.of_registry hcpu, fun c u hu => (hno u).trans (h.cpuNo c u hu)⟩

theorem CpuInv.of_quiet (h : CpuInv s list cl) (hq : Quiet s s') : CpuInv s' list cl :=
  h.of_same (h.kept.of_quiet hq) hq.cpuRegistry
    fun u => congrArg TaskReg.cpuNo (registry_task hq.registry u)

theorem CpuInv.removed (h : CpuInv s list cl) (hs : Removed list cl t s s') :
    CpuInv s' (list.erase t) (leftCpu s cl t) :=
  ⟨hs.kept, hs.cpuKept, fun c u hu => (hs.cpuNo u).trans (h.cpuNo c u (mem_leftCpu hu))⟩

theorem CpuInv.finishExit (h : CpuInv s list cl) (t : Tid) (autoreap : Bool) :
    CpuInv (finishExit t autoreap s) list cl := by
  refine h.of_same (finishExit_kept h.kept t autoreap) ?_ fun u => ?_
  · cases autoreap <;> rfl
  · obtain ⟨_, _, hu⟩ := finishExit_task t u autoreap s
    rw [hu]

theorem clearCpuLists_cpuInv (h : CpuInv s list cl) (fuel : ℕ) :
    Sat (fun s' => ∃ cl', CpuInv s' list cl') (fun _ => True) (clearCpuLists fuel s) := by
  refine (clearCpuLists_kept h.cpuKept fuel).mono ?_ fun _ _ => trivial
  rintro s' ⟨⟨cl', hk', hsub⟩, hreg⟩
  refine ⟨cl', h.kept.of_registry hreg, hk', fun c u hu => ?_⟩
  exact (congrArg TaskReg.cpuNo (registry_task hreg u)).trans (h.cpuNo c u (hsub c u hu))

theorem stopScheduling_cpuInv (h : CpuInv s list cl) :
    Sat (fun x => ∃ cl', CpuInv x.1 list cl') (fun _ => True) (stopScheduling e s) := by
  have h₁ : CpuInv { s with isBinPackingSet := true } list cl :=
    h.of_same ⟨h.kept.ring, h.kept.size, h.kept.sorted⟩ rfl fun _ => rfl
  refine sat_ite (fun _ => ⟨cl, h₁⟩) fun _ => ?_
  refine Sat.bind ((h₁.kept.periodicTasks_sat e.fuel).mono (fun _ h => h) fun _ _ => trivial)
    fun l _ => ?_
  have h₂ := h₁.of_quiet (taskUpdate_foldl ClockOnly.refl ClockOnly.trans id stopTask_update l
    _).quiet_of_clock
  exact (clearCpuLists_cpuInv h₂ e.fuel).bind fun s' hs' => hs'

/-- The packing stays on CPU 0: it starts with one bin, all listed tasks have `cpu_no` 0 and are not
on the CPU yet, and in the order of packing it admits them all. -/
def PacksOnFirst (s : KState) (scheme : ℤ) : Prop :=
  scheme ≤ 3 ∧ ∀ list bin, OnList s list → OnCpuList s 0 bin →
    (∀ t ∈ list, (s.task t).cpuNo = 0 ∧ t ∉ bin) ∧ AllAdmitted s bin (utilOrder s list)

/-- Packing on CPU 0 keeps the invariant. -/
theorem binPacking_cpuInv (h : CpuInv s list cl) (hne : list ≠ []) {scheme : ℕ} (hscheme : scheme ≤ 3)
    (hno : ∀ t ∈ list, (s.task t).cpuNo = 0 ∧ t ∉ cl 0)
    (hadm : AllAdmitted s (cl 0) (utilOrder s list)) {y : KState × ℕ}
    (hy : binPacking fuel scheme s = .ok y) : ∃ cl', CpuInv y.1 list cl' := by
  obtain ⟨x, hx, rfl⟩ := binPacking_eq_ok h.kept hne hy
  have hstart := pending_start h.kept
  have hperm := utilOrder_tasks s list
  -- by the invariant a task with `cpu_no` 0 can be on no other CPU
  have hoff : ∀ d ∈ utilOrder s list, ∀ cpu, d.task ∉ cl cpu := by
    intro d hd cpu hmem
    obtain ⟨h0, hnot⟩ := hno _ (hperm.mem_iff.1 (List.mem_map_of_mem hd))
    obtain rfl := (h.cpuNo cpu _ hmem).symm.trans h0
    exact hnot hmem
  have hbins : (packStart scheme s).currentBins = 1 := if_neg (by omega)
  obtain ⟨cl', hk', hf, hsub⟩ := packAll_first hscheme hbins rfl h.cpuKept (PackFrame.refl s)
    ⟨hstart.entry, hoff, hstart.nodup⟩ hadm hx
  refine ⟨cl', h.kept.of_registry hf.registry, hk', fun d u hu => ?_⟩
  refine Eq.trans (congrArg TaskReg.cpuNo (registry_task hf.registry u)) ?_
  rcases hsub d u hu with hold | ⟨hd, hnew⟩
  · exact h.cpuNo d u hold
  · exact (hno u (hperm.mem_iff.1 hnew)).1.trans hd.symm

theorem setBinPacking_cpuInv (h : CpuInv s list cl) {scheme : ℤ}
    (hok : list = [] ∨ PacksOnFirst s scheme) :
    Sat (fun x => ∃ cl', CpuInv x.1 list cl') (fun _ => True) (setBinPacking e scheme s) := by
  refine sat_ite (fun _ => ⟨cl, h⟩) fun hrange => ?_
  set s₁ : KState := { s with binPackingScheme := scheme, powerScheme := .noPm } with hs₁
  have h₁ : CpuInv s₁ list cl :=
    h.of_same ⟨h.kept.ring, h.kept.size, h.kept.sorted⟩ rfl fun _ => rfl
  have hpack : Sat (fun y => ∃ cl', CpuInv y.1 list cl') (fun _ => True)
      (binPacking e.fuel scheme.toNat s₁) := by
    refine sat_of_forall_ok fun y hy => ?_
    by_cases hne : list = []
    · subst hne
      rw [binPacking_empty h₁.kept] at hy
      obtain rfl := Except.ok.inj hy
      exact ⟨cl, h₁⟩
    · obtain ⟨hle, hfirst⟩ := hok.resolve_left hne
      obtain ⟨hno, hadm⟩ := hfirst list (cl 0) h.kept.onList (h.cpuKept.onCpuList 0)
      have htask : s₁.task = s.task := rfl
      rw [← utilOrder_congr htask, ← allAdmitted_congr htask] at hadm
      exact binPacking_cpuInv h₁ hne (by omega) hno hadm hy
  refine hpack.bind fun y hy => ?_
  obtain ⟨cl', hy⟩ := hy
  refine sat_ite (fun _ => ?_) fun _ => ⟨cl', hy⟩
  exact (clearCpuLists_cpuInv hy e.fuel).bind fun s' hs' => hs'

/-! ### Runs -/

/-- The calls that keep `cpu_no` right: packings that stay on CPU 0, and removals that find the task
where they look for it. -/
def CpuListOk (s : KState) : Cmd → Prop
  | .setProcessBudget pid _ _ => ∀ t ∈ s.findTaskByVpid pid, ∀ list, OnList s list → SetOk s list t
  | .cancelBudget pid => ∀ t ∈ s.findTaskByVpid pid, RemoveOk s t
  | .exit t _ => (s.task t).tgid = t ∧ ((s.task t).isBudgetSet = true → RemoveOk s t)
  | .setBinPacking scheme => OnList s [] ∨ PacksOnFirst s scheme
  | .stopScheduling | .startScheduling | .cancelBinPacking => True
  | .fork _ _ _ => False

theorem exec_cpuInv (h : ∃ list cl, CpuInv s list cl) {c : Cmd} (hok : CpuListOk s c) :
    Sat (fun x => ∃ list cl, CpuInv x.1 list cl) (fun _ => True) (exec e s c) := by
  obtain ⟨list, cl, h⟩ := h
  cases c with
  | setProcessBudget pid budget p =>
    refine setProcessBudget_rule (Q := fun s' => ∃ list cl, CpuInv s' list cl) h.kept
      ⟨list, cl, h⟩ fun t ht _ _ => ?_
    refine (setReservation_quiet h.kept (hok t ht list h.kept.onList) budget _ p).mono ?_
      fun _ _ => trivial
    rintro s' ⟨s₁, hk, hr, hq⟩
    have h₁ := h.of_same hk hr.step.cpuRegistry fun u => congrArg TaskReg.cpuNo (hr.reg u)
    exact ⟨_, cl, h₁.of_quiet hq⟩
  | cancelBudget pid =>
    refine cancelBudget_rule (Q := fun s' => ∃ list cl, CpuInv s' list cl) ⟨list, cl, h⟩
      fun t ht => ?_
    obtain ⟨hmem, hleave⟩ := (hok t ht).of_kept h.kept h.cpuKept
    exact (cancelReservation_removed h.kept h.cpuKept hmem hleave).mono
      (fun s' hs' => ⟨_, _, h.removed hs'⟩) fun _ _ => trivial
  | exit t autoreap =>
    obtain ⟨hlead, hrem⟩ := hok
    refine doExit_rule (Q := fun s' => ∃ list cl, CpuInv s' list cl) (fun hf => ?_)
      fun _ => ⟨list, cl, h.finishExit t autoreap⟩
    obtain ⟨hmem, hleave⟩ := (hrem hf).of_kept h.kept h.cpuKept
    exact (exitReservation_removed h.kept h.cpuKept hmem hleave hlead.symm).mono
      (fun s' hs' => ⟨_, _, (h.removed hs').finishExit t autoreap⟩) fun _ _ => trivial
  | stopScheduling => exact (stopScheduling_cpuInv h).mono (fun _ hs => ⟨list, hs⟩) fun _ h => h
  | setBinPacking scheme =>
    have hfirst := hok.imp (fun hnil => h.kept.onList.unique hnil) id
    exact (setBinPacking_cpuInv h hfirst).mono (fun _ hs => ⟨list, hs⟩) fun _ h => h
  | startScheduling =>
    refine (startScheduling_update h.kept).mono (fun x hu => ⟨list, cl, ?_⟩) fun _ _ => trivial
    exact h.of_same (h.kept.of_butFlag hu) hu.cpuRegistry
      fun u => congrArg TaskReg.cpuNo (hu.task u)
  | cancelBinPacking =>
    exact ⟨list, cl, h.of_same ⟨h.kept.ring, h.kept.size, h.kept.sorted⟩ rfl fun _ => rfl⟩
  | fork _ _ _ => exact hok.elim

/-- The per-CPU lists are what they should be: the counters are right, no task is on two of them or
twice on one, and a task on the list of a CPU has its number in `cpu_no`. -/
def CpuListInv (s : KState) : Prop :=
  ∃ cl : ℕ → List Tid, (∀ c, OnCpuList s c (cl c) ∧ s.perCpuListSize c = (cl c).length ∧
    (cl c).Nodup ∧ ∀ t ∈ cl c, (s.task t).cpuNo = c) ∧ ∀ c d, c ≠ d → ∀ t ∈ cl c, t ∉ cl d

/-- **The per-CPU lists over a run** whose packings stay on CPU 0. -/
theorem cpuLists_invariant (e : Env) {s : KState} (h : Reach Booted CpuListOk (exec e) s) :
    CpuListInv s := by
  obtain ⟨list, cl, hinv⟩ := h.inv (I := fun s => ∃ list cl, CpuInv s list cl)
    (fun s hs => ⟨[], _, cpuInv_booted hs⟩) fun _ _ hs hok => exec_cpuInv hs hok
  exact ⟨cl, fun c => ⟨hinv.cpuKept.onCpuList c, hinv.cpuKept.size c, hinv.cpuKept.nodup c,
    hinv.cpuNo c⟩, hinv.cpuKept.disjoint⟩

/-- Tasks of 100 ms in 1 s and of 200 ms in 2 s are packed on CPU 0, and the first is cancelled. -/
theorem cpuLists_invariant_packed :
    ∃ s, Reach Booted CpuListOk (exec twoSpeeds) s ∧ OnCpuList s 0 [2] ∧ CpuListInv s := by
  have hboot := booted_bootState [1, 2] .noPm
  obtain ⟨v, hv, hlist₀, htest⟩ : ∃ v, exec twoSpeeds (bootState [1, 2] .noPm) .stopScheduling =
      .ok v ∧ OnList v.1 [] ∧
      (exec twoSpeeds v.1 (.setProcessBudget 1 100000000 ⟨1, 0⟩)).test (fun w => decide
        (OnList w.1 [1] ∧ (w.1.task 2).isBudgetSet = false ∧ w.1.findTaskByVpid 2 = some 2 ∧
        (exec twoSpeeds w.1 (.setProcessBudget 2 200000000 ⟨2, 0⟩)).test (fun x => decide
          (OnList x.1 [1, 2] ∧ OnCpuList x.1 0 [] ∧
          ((x.1.task 1).cpuNo = 0 ∧ (x.1.task 2).cpuNo = 0) ∧
          utilOrder x.1 [1, 2] = [⟨100000, 1000000, 100, 1⟩, ⟨200000, 2000000, 100, 2⟩] ∧
          cpuCtOf x.1 1 = ⟨100000, 1000000, 0, 0⟩ ∧
          (exec twoSpeeds x.1 (.setBinPacking 0)).test (fun y => decide
            (OnList y.1 [1, 2] ∧ OnCpuList y.1 0 [1, 2] ∧ (y.1.task 1).cpuNo = 0 ∧
            y.1.findTaskByVpid 1 = some 1 ∧
            (exec twoSpeeds y.1 (.cancelBudget 1)).test (fun z => decide (OnCpuList z.1 0 [2]))
              = true)) = true)) = true)) = true :=
    exists_ok_of_test (by decide +kernel)
  obtain ⟨w, hw, hlist₁, hflag, hfind, htest⟩ := exists_ok_of_test htest
  obtain ⟨x, hx, hlist₂, hcpu, ⟨hno₁, hno₂⟩, horder, hct, htest⟩ := exists_ok_of_test htest
  obtain ⟨y, hy, hlist₃, hpacked, hno, hfind', htest⟩ := exists_ok_of_test htest
  obtain ⟨z, hz, hleft⟩ := exists_ok_of_test htest
  have hok₁ : CpuListOk v.1 (.setProcessBudget 1 100000000 ⟨1, 0⟩) :=
    fun _ _ _ hl => hlist₀.setOk_nil hl
  have hok₂ : CpuListOk w.1 (.setProcessBudget 2 200000000 ⟨2, 0⟩) :=
    hlist₁.setOk_found hfind (by decide) hflag
  have hok₃ : CpuListOk x.1 (.setBinPacking 0) := by
    refine Or.inr ⟨by decide, fun list bin hl hb => ?_⟩
    obtain rfl := hl.unique hlist₂
    obtain rfl := hb.unique hcpu
    refine ⟨fun t ht => ?_, ?_⟩
    · rcases List.mem_pair.1 ht with rfl | rfl
      · exact ⟨hno₁, List.not_mem_nil⟩
      · exact ⟨hno₂, List.not_mem_nil⟩
    · -- the first task goes on an empty CPU, the second next to it
      have hpass : checkAdmissionList 20 (insertCt { budget := 200000, period := 2000000 }
          [⟨100000, 1000000, 0, 0⟩]) 2 = some true := by decide
      rw [horder]
      refine ⟨(if_pos rfl).mpr (by decide), ?_, trivial⟩
      have hbin : insertByPeriod x.1.periods 1 [] = [1] := by simp [insertByPeriod]
      rw [Admits, hbin, if_neg (by decide), List.map_singleton, hct]
      exact (checkAdmissionList_passes hpass).1 rfl
  have hok₄ : CpuListOk y.1 (.cancelBudget 1) := by
    intro t ht
    obtain rfl : 1 = t := Option.some.inj (hfind'.symm.trans ht)
    refine ⟨Or.inl ⟨_, hlist₃, by decide⟩, fun _ => Or.inl ⟨[1, 2], ?_, by decide⟩⟩
    rwa [hno]
  have hreach := (((((Reach.start hboot).step trivial hv).step hok₁ hw).step hok₂ hx).step hok₃
    hy).step hok₄ hz
  exact ⟨z.1, hreach, hleft, cpuLists_invariant twoSpeeds hreach⟩

/-- The calls of the run, with cancellations of reserved tasks and exits of reserved leaders. -/
def PackCall (s : KState) : Cmd → Prop
  | .cancelBudget pid => ∀ t ∈ s.findTaskByVpid pid, Holds s t
  | .exit t _ => (s.task t).tgid = t ∧ Holds s t
  | .cancelBinPacking | .fork _ _ _ => False
  | _ => True

/-- Two tasks of 600 ms in 1 s are packed on two CPUs; both have `cpu_no` 0. -/
theorem cpuLists_broken : ¬ ∀ e s, Reach Booted PackCall (exec e) s → CpuListInv s := by
  intro h
  obtain ⟨w, hw, htest⟩ : ∃ w, exec twoSpeeds (bootState [1, 2] .noPm) .stopScheduling = .ok w ∧
      (exec twoSpeeds w.1 (.setProcessBudget 1 600000000 ⟨1, 0⟩)).test (fun x => decide
        ((exec twoSpeeds x.1 (.setProcessBudget 2 600000000 ⟨1, 0⟩)).test (fun y => decide
          ((exec twoSpeeds y.1 (.setBinPacking 0)).test (fun z => decide
            (OnCpuList z.1 1 [2] ∧ (z.1.task 2).cpuNo = 0)) = true)) = true)) = true :=
    exists_ok_of_test (by decide)
  obtain ⟨x, hx, htest⟩ := exists_ok_of_test htest
  obtain ⟨y, hy, htest⟩ := exists_ok_of_test htest
  obtain ⟨z, hz, hcpu, hno⟩ := exists_ok_of_test htest
  have hreach : Reach Booted PackCall (exec twoSpeeds) z.1 := by
    refine Reach.step (Reach.step (Reach.step (Reach.step (.start
      (booted_bootState [1, 2] .noPm)) ?_ hw) ?_ hx) ?_ hy) ?_ hz
    all_goals exact trivial
  obtain ⟨cl, hcl, -⟩ := h twoSpeeds _ hreach
  obtain ⟨hon, -, -, hnum⟩ := hcl 1
  rw [hon.unique hcpu] at hnum
  have := hnum 2 List.mem_cons_self
  rw [hno] at this
  cases this

end RtSched
