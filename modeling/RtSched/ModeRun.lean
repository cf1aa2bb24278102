import RtSched.AdmissionExact
import RtSched.Packed

/-!
# Leaving bin-packing mode

`sys_cancelBinPacking` clears the flag of the mode and does nothing else.  What bin-packing mode
leaves on the lists is there afterwards: reservations that were accepted without the test of one
processor and never activated, and the per-CPU lists of the last packing.

* `ActiveInv`: the tasks on the global list are active and were tested together;
* `CpusInv`: the per-CPU lists are empty unless something is packed;
* `cancelBinPacking_clean`: so they are found when the mode is left, if reservations are made outside
  the mode only and `sys_stopScheduling` comes between a packing and the end of the mode.
-/

namespace RtSched

open Call

variable {e : Env} {s s' : KState} {list : List Tid} {cl : ℕ → List Tid} {t u : Tid}

/-! ### The global list -/

/-- The threads of listed tasks have the flag, and the list passes the test. -/
structure ActiveInv (s : KState) (list : List Tid) : Prop where
  kept : Kept s list
  active : ∀ t ∈ list, ∀ u ∈ s.threads t, (s.task u).isBudgetSet = true
  stored : ∀ t ∈ list, Stored (s.task t)
  feasible : FeasibleList s list

/-- Calls that write no reservation and clear no flag. -/
theorem ActiveInv.raised (h : ActiveInv s list) (hk : Kept s' list)
    (hpid : s'.pidHash = s.pidHash) (hraise : ∀ u, RaisesFlag (s.task u) (s'.task u)) :
    ActiveInv s' list := by
  have hper := fun u => congrArg TaskReg.timePeriod (hraise u).1
  have hmin := fun u => congrArg TaskReg.minBudgetTime (hraise u).1
  have htgid : ∀ u, (s'.task u).tgid = (s.task u).tgid :=
    fun u => congrArg TaskReg.tgid (hraise u).1
  refine ⟨hk, fun t ht u hu => ?_, fun t ht => (h.stored t ht).congr (hper t) (hmin t), ?_⟩
  · rw [threads_congr hpid htgid] at hu
    exact (hraise u).2 (h.active t ht u hu)
  · rw [FeasibleList, listCts_congr fun u _ => ⟨hper u, hmin u⟩]
    exact h.feasible

theorem ActiveInv.of_registry (h : ActiveInv s list) (hreg : s'.registry = s.registry) :
    ActiveInv s' list :=
  h.raised (h.kept.of_registry hreg) (registry_pidHash hreg) fun u =>
    (registry_task hreg u).raisesFlag

/-- An accepted reservation outside bin-packing mode is active at once. -/
theorem ActiveInv.reserved (h : ActiveInv s list) {b p : Timespec} (hoff : s.isBinPackingSet = false)
    (hk : Kept s' (reservedList s t p list)) (hr : Reserved t b p s s') (hp : p.Normalised)
    (hp1 : 1 ≤ convertToUsecs p) (hb : 0 ≤ convertToUsecs b)
    (hle : convertToUsecs b ≤ convertToUsecs p) (hadm : Admitted s list b p) :
    ActiveInv s' (reservedList s t p list) := by
  refine ⟨hk, fun v hv u hu => ?_, hr.stored h.kept h.stored hp1 hb hp,
    hr.feasible h.kept h.stored hp1 hb hle hadm⟩
  rw [threads_congr hr.step.pidHash hr.tgid] at hu
  rw [hr.flag hoff]
  rcases mem_reservedList.1 hv with rfl | hv
  · exact Or.inr hu
  · exact Or.inl (h.active v (List.mem_of_mem_erase hv) u hu)

/-! ### The lists of the CPUs -/

/-- The lists are well formed; only the four CPUs have one, and it is empty unless something is
packed. -/
structure CpusInv (packed : Bool) (s : KState) (cl : ℕ → List Tid) : Prop where
  kept : CpuKept s cl
  low : ∀ cpu, maxBins ≤ cpu → cl cpu = []
  cleared : packed = false → cl = fun _ => []

theorem cpusInv_empty (packed : Bool) (h : CpuKept s fun _ => []) :
    CpusInv packed s fun _ => [] :=
  ⟨h, fun _ _ => rfl, fun _ => rfl⟩

theorem CpusInv.of_registry {packed : Bool} (h : CpusInv packed s cl)
    (hreg : s'.cpuRegistry = s.cpuRegistry) : CpusInv packed s' cl :=
  ⟨h.kept.of_registry hreg, h.low, h.cleared⟩

/-- The loop of `clear_cpu_lists` over some of the CPUs. -/
theorem clearCpuLists_from (hk : CpuKept s cl) (fuel : ℕ) (cpus : List ℕ) :
    Sat (fun s' => CpuKept s' (fun cpu => if cpu ∈ cpus then [] else cl cpu) ∧
      s'.registry = s.registry) (fun _ => False) (cpus.foldlM (clearCpuList fuel) s) := by
  induction cpus generalizing s cl with
  | nil =>
    simp only [List.not_mem_nil, if_false]
    exact ⟨hk, rfl⟩
  | cons c cpus ih =>
    rw [List.foldlM_cons]
    refine (clearCpuList_kept hk fuel c).bind ?_
    rintro s₁ ⟨hk₁, hreg₁⟩
    refine (ih hk₁).mono ?_ fun _ h => h
    rintro s' ⟨hk', hreg'⟩
    refine ⟨?_, hreg'.trans hreg₁⟩
    convert hk' using 1
    funext cpu
    by_cases hcpu : cpu = c
    · simp [hcpu]
    · simp [hcpu]

/-- `clear_cpu_lists` leaves all lists empty. -/
theorem clearCpuLists_empties (hk : CpuKept s cl) (hlow : ∀ cpu, maxBins ≤ cpu → cl cpu = [])
    (fuel : ℕ) :
    Sat (fun s' => CpuKept s' (fun _ => []) ∧ s'.registry = s.registry) (fun _ => False)
      (clearCpuLists fuel s) := by
  refine (clearCpuLists_from hk fuel (List.range maxCpu)).mono ?_ fun _ h => h
  rintro s' ⟨hk', hreg⟩
  have hempty : (fun cpu => if cpu ∈ List.range maxCpu then [] else cl cpu) = fun _ => [] := by
    funext cpu
    split_ifs with hcpu
    · rfl
    · exact hlow cpu (not_lt.1 fun hlt => hcpu (List.mem_range.2 hlt))
  rw [hempty] at hk'
  exact ⟨hk', hreg⟩

/-- Packing fills the lists of the four CPUs only. -/
theorem binPacking_low {fuel scheme : ℕ} (hk : Kept s list) (hc : CpuKept s fun _ => [])
    (hne : list ≠ []) (hscheme : scheme ≤ 4) {y : KState × ℕ}
    (hy : binPacking fuel scheme s = .ok y) :
    ∃ cl, CpuKept y.1 cl ∧ (∀ cpu, maxBins ≤ cpu → cl cpu = []) ∧ y.1.registry = s.registry := by
  obtain ⟨x, hx, rfl⟩ := binPacking_eq_ok hk hne hy
  have hput : ∀ (cl : ℕ → List Tid) (t : Tid) (cpu : ℕ), (∀ d, maxBins ≤ d → cl d = []) →
      cpu < maxBins → ∀ d, maxBins ≤ d → put s cl t cpu d = [] := by
    intro cl t cpu hlow hcpu d hd
    rw [put, Function.update_of_ne (by omega)]
    exact hlow d hd
  obtain ⟨rem, cl, hkept, hframe, hlow, -⟩ := packAll_rule
    (J := fun _ cl => ∀ d, maxBins ≤ d → cl d = [])
    (fun c _ cl cpu _ hlow hcpu _ => hput cl c.task cpu hlow hcpu) (fun _ _ _ _ hlow _ => hlow)
    hscheme (filled_start hc scheme) (pending_start hk) (fun _ _ => rfl) hx
  exact ⟨cl, hkept, hlow, hframe.registry⟩

/-! ### Runs -/

/-- The state, and whether tasks have been packed since the last `sys_stopScheduling`. -/
structure ModeState where
  st : KState
  packed : Bool

/-- What a call that returned `r` leaves packed. -/
def ModeState.packedAfter (x : ModeState) (r : ℤ) : Cmd → Bool
  | .setBinPacking _ => x.packed || decide (0 < r)
  | .stopScheduling => false
  | _ => x.packed

/-- A call. -/
def ModeState.exec (e : Env) (x : ModeState) (c : Cmd) : Call ModeState (ModeState × ℤ) :=
  match RtSched.exec e x.st c with
  | .ok (s, r) => .ok (⟨s, x.packedAfter r c⟩, r)
  | .error (trap, s) => .error (trap, ⟨s, x.packed⟩)

theorem ModeState.exec_eq (x : ModeState) (c : Cmd) : x.exec e c =
    record (fun s r => ⟨s, x.packedAfter r c⟩) (fun s => ⟨s, x.packed⟩) (RtSched.exec e x.st c) := by
  unfold ModeState.exec
  cases RtSched.exec e x.st c <;> rfl

structure ModeBooted (x : ModeState) : Prop where
  booted : Booted x.st
  packed : x.packed = false

/-- Reservations outside bin-packing mode only, and no packing and no end of the mode while tasks are
packed. -/
def ModeOk (x : ModeState) : Cmd → Prop
  | .setProcessBudget pid budget p => x.st.isBinPackingSet = false ∧
      ListedOk x.st (.setProcessBudget pid budget p)
  | .setBinPacking _ | .cancelBinPacking => x.packed = false
  | .stopScheduling | .startScheduling => True
  | _ => False

/-- What the rest of the system assumes of the lists outside bin-packing mode. -/
structure Uniprocessor (s : KState) : Prop where
  off : s.isBinPackingSet = false
  cpus : ∀ cpu < maxCpu, OnCpuList s cpu [] ∧ s.perCpuListSize cpu = 0
  tasks : ∃ list, OnList s list ∧ (∀ t ∈ list, ∀ u ∈ s.threads t, (s.task u).isBudgetSet = true) ∧
    Passes (list.map (ctOf s))

/-- What holds between calls. -/
structure ModeInv (packed : Bool) (s : KState) (list : List Tid) : Prop extends ActiveInv s list where
  cpus : ∃ cl, CpusInv packed s cl
  listed : packed = true → list ≠ []

section Calls

variable {packed : Bool}

theorem setProcessBudget_mode (h : ModeInv packed s list) {pid : ℤ} {budget : ℕ} {p : Timespec}
    (hoff : s.isBinPackingSet = false) (hok : ListedOk s (.setProcessBudget pid budget p)) :
    Sat (fun x => ∃ list, ModeInv packed x.1 list) (fun _ => True)
      (setProcessBudget e pid budget p s) := by
  obtain ⟨hp, hp1, -, hset⟩ := hok
  have hk := h.kept
  refine setProcessBudget_rule (Q := fun s' => ∃ list, ModeInv packed s' list) hk ⟨list, h⟩
    fun t ht hlt hadm => ?_
  refine (setReservation_off hk (hset t ht list hk.onList) hoff budget _ p).mono ?_
    fun _ _ => trivial
  rintro s' ⟨s₁, hk₁, hr, hl⟩
  have hactive := h.toActiveInv.reserved hoff hk₁ hr hp hp1 (convertToUsecs_taskBudgetOf e budget)
    (taskBudgetOf_le hp hlt) (hadm hoff)
  have hq := hl.update.quiet_of_numbered
  obtain ⟨cl, hcpus⟩ := h.cpus
  refine ⟨_, hactive.of_registry hq.registry,
    ⟨cl, (hcpus.of_registry hr.step.cpuRegistry).of_registry hq.cpuRegistry⟩, fun _ hnil => ?_⟩
  have hmem : t ∈ reservedList s t p list := mem_reservedList.2 (Or.inl rfl)
  rw [hnil] at hmem
  cases hmem

/-- Stopping clears the lists of the CPUs; with no task on the global list there is nothing to
clear. -/
theorem stopScheduling_mode (h : ModeInv packed s list) :
    Sat (fun x => ∃ list, ModeInv false x.1 list) (fun _ => True) (stopScheduling e s) := by
  obtain ⟨cl, hcpus⟩ := h.cpus
  have h₁ : ActiveInv { s with isBinPackingSet := true } list :=
    h.toActiveInv.raised ⟨h.kept.ring, h.kept.size, h.kept.sorted⟩ rfl fun u => RaisesFlag.refl _
  have hcpus₁ : CpusInv packed { s with isBinPackingSet := true } cl := hcpus.of_registry rfl
  refine sat_ite (fun h0 => ?_) fun _ => ?_
  · have hnil : list = [] := h.kept.eq_nil h0
    have hpacked : packed = false := by
      cases hp : packed with
      | false => rfl
      | true => exact absurd hnil (h.listed hp)
    refine ⟨list, h₁, ⟨cl, hcpus₁.kept, hcpus₁.low, fun _ => hcpus₁.cleared hpacked⟩, ?_⟩
    exact fun hfalse => absurd hfalse Bool.false_ne_true
  · refine Sat.bind ((h₁.kept.periodicTasks_sat e.fuel).mono (fun _ h => h) fun _ _ => trivial)
      fun l _ => ?_
    have hq := (taskUpdate_foldl ClockOnly.refl ClockOnly.trans id stopTask_update l
      { s with isBinPackingSet := true }).quiet_of_clock
    have hcpus₂ := hcpus₁.of_registry hq.cpuRegistry
    refine Sat.bind ((clearCpuLists_empties hcpus₂.kept hcpus₂.low e.fuel).mono (fun _ h => h)
      fun _ _ => trivial) ?_
    rintro s' ⟨hk', hreg⟩
    refine ⟨list, (h₁.of_registry hq.registry).of_registry hreg, ⟨_, cpusInv_empty false hk'⟩, ?_⟩
    exact fun hfalse => absurd hfalse Bool.false_ne_true

/-- A packing from empty lists; one that fails leaves them empty. -/
theorem setBinPacking_mode (h : ModeInv false s list) (scheme : ℤ) :
    Sat (fun x => ∃ list, ModeInv (decide (0 < x.2)) x.1 list) (fun _ => True)
      (setBinPacking e scheme s) := by
  obtain ⟨cl, hcpus⟩ := h.cpus
  have hclean : CpuKept s fun _ => [] := hcpus.cleared rfl ▸ hcpus.kept
  have hneg : decide (0 < -einval) = false := by decide
  refine sat_ite (fun _ => ⟨list, ?_⟩) fun hrange => ?_
  · rw [hneg]
    exact h
  have h₁ : ActiveInv { s with binPackingScheme := scheme, powerScheme := .noPm } list :=
    h.toActiveInv.raised ⟨h.kept.ring, h.kept.size, h.kept.sorted⟩ rfl fun u => RaisesFlag.refl _
  have hclean₁ : CpuKept { s with binPackingScheme := scheme, powerScheme := .noPm } fun _ => [] :=
    hclean.of_registry rfl
  refine Sat.bind (Q := fun y => ∃ cl, CpuKept y.1 cl ∧ (∀ cpu, maxBins ≤ cpu → cl cpu = []) ∧
    ActiveInv y.1 list ∧ (y.2 ≠ 0 → list ≠ [])) (sat_of_forall_ok fun y hy => ?_) ?_
  · by_cases hne : list = []
    · subst hne
      rw [binPacking_empty h₁.kept] at hy
      obtain rfl := Except.ok.inj hy
      exact ⟨_, hclean₁, fun _ _ => rfl, h₁, fun h0 => absurd rfl h0⟩
    · obtain ⟨cl', hk', hlow, hreg⟩ := binPacking_low h₁.kept hclean₁ hne (by omega) hy
      exact ⟨cl', hk', hlow, h₁.of_registry hreg, fun _ => hne⟩
  · rintro ⟨s₂, bins⟩ ⟨cl', hk', hlow, h₂, hne⟩
    refine sat_ite (fun _ => ?_) fun hbins => ?_
    · refine Sat.bind ((clearCpuLists_empties hk' hlow e.fuel).mono (fun _ h => h)
        fun _ _ => trivial) ?_
      rintro s' ⟨hk'', hreg⟩
      refine ⟨list, ?_⟩
      rw [hneg]
      exact ⟨h₂.of_registry hreg, ⟨_, cpusInv_empty false hk''⟩,
        fun hfalse => absurd hfalse Bool.false_ne_true⟩
    · have hpos : decide (0 < (bins : ℤ)) = true :=
        decide_eq_true (Int.natCast_pos.2 (Nat.pos_of_ne_zero hbins))
      refine ⟨list, ?_⟩
      rw [hpos]
      exact ⟨h₂, ⟨cl', hk', hlow, fun hfalse => absurd hfalse.symm Bool.false_ne_true⟩,
        fun _ => hne hbins⟩

theorem startScheduling_mode (h : ModeInv packed s list) :
    Sat (fun x => ∃ list, ModeInv packed x.1 list) (fun _ => True) (startScheduling e s) := by
  obtain ⟨cl, hcpus⟩ := h.cpus
  refine (startScheduling_raises h.kept).mono (fun x hu => ?_) fun _ _ => trivial
  have hbut : TaskUpdate ButFlag s x.1 := hu.mono fun _ _ h => h.1
  exact ⟨list, h.toActiveInv.raised (h.kept.of_butFlag hbut) hu.pidHash hu.task,
    ⟨cl, hcpus.of_registry hu.cpuRegistry⟩, h.listed⟩

end Calls

/-- One call keeps the invariant. -/
theorem exec_modeInv {x : ModeState} (h : ∃ list, ModeInv x.packed x.st list) {c : Cmd}
    (hok : ModeOk x c) :
    Sat (fun y => ∃ list, ModeInv y.1.packed y.1.st list) (fun _ => True) (x.exec e c) := by
  obtain ⟨list, h⟩ := h
  have hexec : Sat (fun y => ∃ list, ModeInv (x.packedAfter y.2 c) y.1 list) (fun _ => True)
      (exec e x.st c) := by
    cases c with
    | setProcessBudget pid budget p => exact setProcessBudget_mode h hok.1 hok.2
    | stopScheduling => exact stopScheduling_mode h
    | setBinPacking scheme =>
      have hpacked : x.packed = false := hok
      simp only [ModeState.packedAfter, hpacked, Bool.false_or]
      rw [hpacked] at h
      exact setBinPacking_mode h scheme
    | startScheduling => exact startScheduling_mode h
    | cancelBinPacking =>
      obtain ⟨cl, hcpus⟩ := h.cpus
      exact ⟨list, h.toActiveInv.raised ⟨h.kept.ring, h.kept.size, h.kept.sorted⟩ rfl
        fun u => RaisesFlag.refl _, ⟨cl, hcpus.of_registry rfl⟩, h.listed⟩
    | _ => exact hok.elim
  rw [ModeState.exec_eq]
  exact sat_record (Q := fun y : ModeState × ℤ => ∃ list, ModeInv y.1.packed y.1.st list)
    (F := fun _ => True) hexec

theorem modeInv_booted {x : ModeState} (h : ModeBooted x) : ModeInv x.packed x.st [] := by
  have hadm := admInv_booted h.booted
  refine ⟨⟨hadm.inv.kept, by simp, by simp, hadm.feasible⟩,
    ⟨_, cpusInv_empty _ (cpuKept_booted h.booted)⟩, fun hpacked => ?_⟩
  rw [h.packed] at hpacked
  cases hpacked

/-- **Leaving bin-packing mode.**  If reservations are made outside the mode only, and
`sys_stopScheduling` comes between a packing and the next packing or the end of the mode, then
`sys_cancelBinPacking` leaves empty per-CPU lists and a global list of active tasks that pass the
test. -/
theorem cancelBinPacking_clean (e : Env) {x x' : ModeState} {r : ℤ}
    (h : Reach ModeBooted ModeOk (ModeState.exec e) x) (hok : ModeOk x .cancelBinPacking)
    (hx : x.exec e .cancelBinPacking = .ok (x', r)) : Uniprocessor x'.st := by
  obtain ⟨list, hinv⟩ := h.inv (I := fun x => ∃ list, ModeInv x.packed x.st list)
    (fun _ hs => ⟨[], modeInv_booted hs⟩) fun _ _ hs hok => exec_modeInv hs hok
  obtain ⟨cl, hcpus⟩ := hinv.cpus
  obtain rfl := hcpus.cleared hok
  obtain ⟨rfl, -⟩ := Prod.mk.inj (Except.ok.inj hx)
  refine ⟨rfl, fun cpu _ => ⟨hcpus.kept.onCpuList cpu, hcpus.kept.size cpu⟩, list, hinv.kept.onList,
    hinv.active, ?_⟩
  exact (passes_listCts hinv.kept.sorted hinv.stored).2 hinv.feasible

/-- A task is reserved, the mode entered, the task packed and started.  Stopping clears its CPU, and
the mode can be left. -/
theorem cancelBinPacking_clean_packed :
    ∃ x x' r, Reach ModeBooted ModeOk (ModeState.exec twoSpeeds) x ∧
      x.exec twoSpeeds .cancelBinPacking = .ok (x', r) ∧ x'.st.periodicTasksSize = 1 ∧
      Uniprocessor x'.st := by
  have hboot : ModeBooted ⟨bootState [1] .noPm, false⟩ := ⟨booted_bootState [1] .noPm, rfl⟩
  have hok : ModeOk ⟨bootState [1] .noPm, false⟩ (.setProcessBudget 1 100000000 ⟨1, 0⟩) :=
    ⟨rfl, listedOk_of_empty (kept_booted hboot.booted).onList (by decide) (by decide) (by decide)⟩
  obtain ⟨v, hv, htest⟩ : ∃ v, ModeState.exec twoSpeeds ⟨bootState [1] .noPm, false⟩
      (.setProcessBudget 1 100000000 ⟨1, 0⟩) = .ok v ∧
      (v.1.exec twoSpeeds .stopScheduling).test (fun w => decide
        (w.1.packed = false ∧ (w.1.exec twoSpeeds (.setBinPacking 0)).test (fun x => decide
          (x.1.packed = true ∧ (x.1.exec twoSpeeds .stopScheduling).test (fun y => decide
            (y.1.packed = false ∧ (y.1.exec twoSpeeds .cancelBinPacking).test (fun z => decide
              (z.1.st.periodicTasksSize = 1)) = true)) = true)) = true)) = true :=
    exists_ok_of_test (by decide +kernel)
  obtain ⟨w, hw, hpacked, htest⟩ := exists_ok_of_test htest
  obtain ⟨x, hx, -, htest⟩ := exists_ok_of_test htest
  obtain ⟨y, hy, hcleared, htest⟩ := exists_ok_of_test htest
  obtain ⟨z, hz, hsize⟩ := exists_ok_of_test htest
  have hstop : ModeOk v.1 .stopScheduling := trivial
  have hstop' : ModeOk x.1 .stopScheduling := trivial
  have hpack : ModeOk w.1 (.setBinPacking 0) := hpacked
  have hreach := ((((Reach.start hboot).step hok hv).step hstop hw).step hpack hx).step hstop' hy
  exact ⟨y.1, z.1, z.2, hreach, hz, hsize, cancelBinPacking_clean twoSpeeds hreach hcleared hz⟩

/-- The calls, reservations in bin-packing mode among them. -/
def ModeCall (s : KState) : Cmd → Prop
  | .setProcessBudget pid budget p => ListedOk s (.setProcessBudget pid budget p)
  | .stopScheduling | .setBinPacking _ | .startScheduling | .cancelBinPacking => True
  | _ => False

/-- Two tasks of 600 ms in 1 s are reserved in bin-packing mode and packed.  When the mode is left they
are still on the lists of CPUs 0 and 1, neither is active, and together they fail the test. -/
theorem cancelBinPacking_leftovers :
    ∃ s s' r, Reach Booted ModeCall (exec twoSpeeds) s ∧
      exec twoSpeeds s .cancelBinPacking = .ok (s', r) ∧ ¬ Uniprocessor s' ∧
      OnCpuList s' 0 [1] ∧ OnCpuList s' 1 [2] ∧ OnList s' [1, 2] ∧
      (s'.task 1).isBudgetSet = false ∧ (s'.task 2).isBudgetSet = false ∧
      ¬ Passes ([1, 2].map (ctOf s')) := by
  have hboot := booted_bootState [1, 2] .noPm
  obtain ⟨v, hv, hempty, htest⟩ : ∃ v, exec twoSpeeds (bootState [1, 2] .noPm) .stopScheduling =
      .ok v ∧ OnList v.1 [] ∧
      (exec twoSpeeds v.1 (.setProcessBudget 1 600000000 ⟨1, 0⟩)).test (fun w => decide
        (OnList w.1 [1] ∧ (w.1.task 2).isBudgetSet = false ∧ w.1.findTaskByVpid 2 = some 2 ∧
        (exec twoSpeeds w.1 (.setProcessBudget 2 600000000 ⟨1, 0⟩)).test (fun x => decide
          ((exec twoSpeeds x.1 (.setBinPacking 0)).test (fun y => decide
            ((exec twoSpeeds y.1 .cancelBinPacking).test (fun z => decide
              (OnCpuList z.1 0 [1] ∧ OnCpuList z.1 1 [2] ∧ OnList z.1 [1, 2] ∧
                (z.1.task 1).isBudgetSet = false ∧ (z.1.task 2).isBudgetSet = false ∧
                [1, 2].map (ctOf z.1) = [⟨600000, 1000000, 0, 0⟩, ⟨600000, 1000000, 0, 0⟩]))
              = true)) = true)) = true)) = true :=
    exists_ok_of_test (by decide +kernel)
  obtain ⟨w, hw, hlist, hflag, hfound, htest⟩ := exists_ok_of_test htest
  obtain ⟨x, hx, htest⟩ := exists_ok_of_test htest
  obtain ⟨y, hy, htest⟩ := exists_ok_of_test htest
  obtain ⟨z, hz, hcpu0, hcpu1, hlist', hflag1, hflag2, hcts⟩ := exists_ok_of_test htest
  have hok : ModeCall v.1 (.setProcessBudget 1 600000000 ⟨1, 0⟩) :=
    listedOk_of_empty hempty (by decide) (by decide) (by decide)
  have hok' : ModeCall w.1 (.setProcessBudget 2 600000000 ⟨1, 0⟩) :=
    listedOk_of_unlisted hlist hfound (by decide) hflag (by decide) (by decide) (by decide)
  have hstop : ModeCall (bootState [1, 2] .noPm) .stopScheduling := trivial
  have hpack : ModeCall x.1 (.setBinPacking 0) := trivial
  have hreach := ((((Reach.start hboot).step hstop hv).step hok hw).step hok' hx).step hpack hy
  have hfails : ¬ Passes ([1, 2].map (ctOf z.1)) := by
    have hrefused : checkAdmissionList 20 ([1, 2].map (ctOf z.1)) ([1, 2].map (ctOf z.1)).length =
        some false := by
      rw [hcts]
      decide
    exact fun hpass => Bool.false_ne_true ((checkAdmissionList_passes hrefused).2 hpass)
  refine ⟨y.1, z.1, z.2, hreach, hz, fun huni => ?_, hcpu0, hcpu1, hlist', hflag1, hflag2,
    hfails⟩
  obtain ⟨list, hl, -, hpass⟩ := huni.tasks
  rw [hl.unique hlist'] at hpass
  exact hfails hpass

end RtSched
