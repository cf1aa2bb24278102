import RtSched.AdmissionRun

/-!
# Packing task by task (`bin_packing`)

Five copies of one loop: the tasks, by decreasing utilisation, are tried on the open bins, and a bin
is opened when they refuse.

* `PackOutcome`: what one turn of any of the five can do (`packOne_outcome`): the task is put on a
  CPU that admits it or on a fresh one, or the call gives up, or the task is left out, which only
  next fit does;
* `packAll_rule`: an invariant of the contents of the per-CPU lists, over the whole loop;
  `packAll_util_rule`: one of the contents and of `cpu_util`;
* `binPacking_eq_ok`: a packing is the loop over the tasks by decreasing utilisation (`utilOrder`).
-/

namespace RtSched

open LinkRing TimeDemand Call

/-! ### The test of one CPU -/

/-- `check_admission_per_cpu` admits the task to a CPU that has the tasks `bin`.  An empty CPU is
judged by the truncated utilisation. -/
def Admits (s : KState) (bin : List Tid) (c : TaskCt) : Prop :=
  if bin = [] then (c.budget * scaleUpFactor).tdiv c.period ≤ 1000
  else Passes (insertCt { budget := c.budget, period := c.period } (bin.map (cpuCtOf s)))

section Verdict

variable {s : KState} {cl : ℕ → List Tid} {c : TaskCt} {fuel cpu : ℕ}

/-- What the code answers is what `Admits` says. -/
theorem checkAdmissionPerCpu_iff (hk : CpuKept s cl) {b : Bool}
    (hok : checkAdmissionPerCpu fuel c.budget c.period cpu s = .ok b) :
    b = true ↔ Admits s (cl cpu) c := by
  by_cases hnil : cl cpu = []
  · have hsize : s.perCpuListSize cpu = 0 := by rw [hk.size, hnil]; rfl
    simp only [checkAdmissionPerCpu, hsize, if_true] at hok
    rw [Admits, if_pos hnil, ← Except.ok.inj hok, decide_eq_true_iff]
  · have hsize : s.perCpuListSize cpu ≠ 0 := by
      rw [hk.size]
      exact fun h0 => hnil (List.eq_nil_of_length_eq_zero h0)
    simp only [checkAdmissionPerCpu, if_neg hsize,
      s.perCpuTasks_eq (hk.isRing hnil).traverses] at hok
    obtain ⟨tasks, htasks, hok⟩ := bind_eq_ok.1 hok
    split_ifs at htasks
    obtain rfl := Except.ok.inj htasks
    rw [ctArray, List.length_map, if_pos (hk.size cpu).symm] at hok
    have hlen : s.perCpuListSize cpu + 1 = (insertCt { budget := c.budget, period := c.period }
        ((cl cpu).map (cpuCtOf s))).length := by
      rw [insertCt, List.orderedInsert_length, List.length_map, hk.size]
    have hanswer := ofOption_eq_ok.1 hok
    rw [hlen] at hanswer
    rw [Admits, if_neg hnil]
    exact checkAdmissionList_passes hanswer

end Verdict

/-! ### One placement -/

/-- The second record differs from the first at most in what packing writes. -/
def PlaceOnly (p q : TaskStruct) : Prop :=
  { q with onCpu := p.onCpu, cpusAllowed := p.cpusAllowed } = p

/-- Only the per-CPU lists and what packing writes to the tasks have changed. -/
structure PackFrame (s s' : KState) : Prop where
  globals : { s' with
    task := s.task, perCpuListSize := s.perCpuListSize, cpuLinks := s.cpuLinks,
    cpuUtil := s.cpuUtil } = s
  task : ∀ t, PlaceOnly (s.task t) (s'.task t)

section Place

variable {s s' s'' : KState} {cl : ℕ → List Tid} {c : TaskCt} {fuel cpu : ℕ} {k k' : Packing}

theorem PackFrame.refl (s : KState) : PackFrame s s := ⟨rfl, fun _ => rfl⟩

theorem PackFrame.trans (h : PackFrame s s') (h' : PackFrame s' s'') : PackFrame s s'' := by
  refine ⟨?_, fun t => ?_⟩
  · rw [← h.globals, ← h'.globals]
  · have h1 := h.task t
    have h2 := h'.task t
    unfold PlaceOnly at *
    rw [← h1, ← h2]

theorem PackFrame.periods (h : PackFrame s s') : s'.periods = s.periods := by
  funext t
  show (s'.task t).timePeriod = (s.task t).timePeriod
  rw [← h.task t]

theorem PackFrame.registry (h : PackFrame s s') : s'.registry = s.registry := by
  have hreg : (fun t => (s'.task t).reg) = fun t => (s.task t).reg := by
    funext t
    rw [← h.task t]
    rfl
  simp only [KState.registry, hreg]
  rw [← h.globals]

theorem PackFrame.cpuCtOf_eq (h : PackFrame s s') : cpuCtOf s' = cpuCtOf s := by
  funext t
  rw [cpuCtOf, cpuCtOf, ← h.task t]

theorem PackFrame.admits (h : PackFrame s s') {bin : List Tid} :
    Admits s' bin c ↔ Admits s bin c := by
  rw [Admits, Admits, h.cpuCtOf_eq]

/-- A CPU with one task more. -/
def put (s : KState) (cl : ℕ → List Tid) (t : Tid) (cpu : ℕ) : ℕ → List Tid :=
  Function.update cl cpu (insertByPeriod s.periods t (cl cpu))

theorem mem_put {t u : Tid} {d : ℕ} : u ∈ put s cl t cpu d ↔ d = cpu ∧ u = t ∨ u ∈ cl d := by
  by_cases hd : d = cpu
  · subst hd
    simp [put]
  · simp [put, hd]

theorem PackFrame.put_eq (h : PackFrame s s') (t : Tid) (cpu : ℕ) :
    put s' cl t cpu = put s cl t cpu := by
  rw [put, put, h.periods]

/-- A placement puts the task on the list of its CPU. -/
theorem place_puts (hk : CpuKept k.st cl) (hnew : ∀ d, c.task ∉ cl d)
    (h : place fuel c cpu k = .ok k') :
    CpuKept k'.st (put k.st cl c.task cpu) ∧ PackFrame k.st k'.st := by
  obtain ⟨s', hadd, hk'⟩ := bind_eq_ok.1 h
  obtain rfl := Except.ok.inj hk'
  have hmask := placeMask_quiet c cpu k
  obtain ⟨hkept, hframe⟩ := sat_of_eq
    (addTaskToCpu_inserts (hk.of_registry hmask.cpuRegistry) hnew fuel cpu) hadd
  have hper : (k.st.modifyTask c.task fun p =>
      { p with onCpu := cpu, cpusAllowed := insert cpu k.mask }).periods = k.st.periods :=
    funext fun t => (registry_task hmask.registry t).timePeriod
  rw [hper] at hkept
  refine ⟨⟨hkept.ring, hkept.size, hkept.disjoint⟩, ?_, fun t => ?_⟩
  · exact congrArg (fun m : KState => { m with
      task := k.st.task, perCpuListSize := k.st.perCpuListSize, cpuLinks := k.st.cpuLinks,
      cpuUtil := k.st.cpuUtil }) hframe
  · have htask : s'.task t = (k.st.modifyTask c.task fun p =>
        { p with onCpu := cpu, cpusAllowed := insert cpu k.mask }).task t :=
      congrFun (congrArg KState.task hframe) t
    show PlaceOnly (k.st.task t) (s'.task t)
    rw [htask, KState.modifyTask_task]
    split_ifs <;> rfl

theorem place_bins (h : place fuel c cpu k = .ok k') :
    k'.currentBins = k.currentBins ∧ k'.prevBin = k.prevBin := by
  obtain ⟨s', -, hk'⟩ := bind_eq_ok.1 h
  obtain rfl := Except.ok.inj hk'
  exact ⟨rfl, rfl⟩

theorem place_util (h : place fuel c cpu k = .ok k') : k'.st.cpuUtil =
    Function.update k.st.cpuUtil cpu (k.st.cpuUtil cpu - c.util) := by
  obtain ⟨s', hadd, hk'⟩ := bind_eq_ok.1 h
  obtain rfl := Except.ok.inj hk'
  rw [addTaskToCpu_eq] at hadd
  obtain ⟨links, -, hs'⟩ := bind_eq_ok.1 hadd
  obtain rfl := Except.ok.inj hs'
  rfl

end Place

/-! ### One turn of the loop -/

/-- What one turn makes of a task. -/
inductive PackOutcome (fuel scheme : ℕ) (c : TaskCt) (k : Packing) : Packing × Bool → Prop
  /-- it is put on a CPU, which admits it or has been opened for it -/
  | placed {cpu : ℕ} {k₀ k₁ k' : Packing} (hk₀ : k₀.st = k.st)
      (hplace : place fuel c cpu k₀ = .ok k₁) (hk' : k'.st = k₁.st)
      (hprev : k'.prevBin < k'.currentBins) (hopen : k.currentBins ≤ k'.currentBins)
      (hmax : k'.currentBins ≤ maxBins) (hcpu : cpu < k'.currentBins)
      (hfits : checkAdmissionPerCpu fuel c.budget c.period cpu k.st = .ok true ∨
        k.currentBins ≤ cpu) : PackOutcome fuel scheme c k (k', true)
  /-- all four CPUs refuse it, and the loop goes on with the next task -/
  | leftOut {k' : Packing} (hscheme : scheme = 1) (hk' : k'.st = k.st)
      (hprev : k'.prevBin < k'.currentBins) (hbins : k'.currentBins = k.currentBins)
      (hrefuse : ∀ cpu < maxBins,
        checkAdmissionPerCpu fuel c.budget c.period cpu k.st = .ok false) :
      PackOutcome fuel scheme c k (k', true)
  /-- no bin is left -/
  | full {k' : Packing} (hk' : k'.st = k.st) : PackOutcome fuel scheme c k (k', false)

/-- The bins in use are those below `current_bins`. -/
structure Opened (k : Packing) : Prop where
  prev : k.prevBin < k.currentBins
  max : k.currentBins ≤ maxBins

section Outcome

variable {fuel scheme : ℕ} {c : TaskCt} {k k₀ : Packing} {x : Packing × Bool}

/-- Opening bins on the way is part of the turn. -/
theorem PackOutcome.of_opened (h : PackOutcome fuel scheme c k₀ x) (hst : k₀.st = k.st)
    (hbins : k.currentBins ≤ k₀.currentBins) (hscheme : scheme ≠ 1) :
    PackOutcome fuel scheme c k x := by
  cases h with
  | placed hk₀ hplace hk' hprev hopen hmax hcpu hfits =>
    refine .placed (hk₀.trans hst) hplace hk' hprev (hbins.trans hopen) hmax hcpu ?_
    rw [← hst]
    exact hfits.imp id hbins.trans
  | leftOut h1 => exact absurd h1 hscheme
  | full hk' => exact .full (hk'.trans hst)

/-- A placement on an open bin that admits the task. -/
theorem PackOutcome.of_place {cpu : ℕ} (hk : Opened k) (hcpu : cpu < k.currentBins)
    (hfits : checkAdmissionPerCpu fuel c.budget c.period cpu k.st = .ok true)
    (h : (place fuel c cpu k >>= fun k' => pure (k', true)) = .ok x) :
    PackOutcome fuel scheme c k x := by
  obtain ⟨k', hplace, hx⟩ := bind_eq_ok.1 h
  obtain rfl := Except.ok.inj hx
  obtain ⟨hbins, hprev⟩ := place_bins hplace
  refine .placed rfl hplace rfl ?_ hbins.ge (hbins ▸ hk.max) (hbins ▸ hcpu) (Or.inl hfits)
  rw [hbins, hprev]
  exact hk.prev

theorem firstFit_some {s : KState} {js : List ℕ} {j : ℕ} (h : firstFit fuel c s js = .ok (some j)) :
    j ∈ js ∧ checkAdmissionPerCpu fuel c.budget c.period j s = .ok true := by
  induction js with
  | nil => cases h
  | cons i js ih =>
    obtain ⟨b, hb, h⟩ := bind_eq_ok.1 h
    cases b with
    | false =>
      obtain ⟨hmem, hfits⟩ := ih h
      exact ⟨List.mem_cons_of_mem _ hmem, hfits⟩
    | true =>
      cases h
      exact ⟨List.mem_cons_self, hb⟩

theorem packFirstFit_outcome (hscheme : scheme ≠ 1) {n : ℕ} (hk : Opened k)
    (h : packFirstFit fuel c n k = .ok x) : PackOutcome fuel scheme c k x := by
  induction n generalizing k with
  | zero => cases h
  | succ n ih =>
    obtain ⟨r, hr, h⟩ := bind_eq_ok.1 h
    cases r with
    | some j =>
      obtain ⟨hmem, hfits⟩ := firstFit_some hr
      exact .of_place hk (List.mem_range.1 hmem) hfits h
    | none =>
      simp only at h
      split_ifs at h with hfull
      · obtain rfl := Except.ok.inj h
        exact .full rfl
      · have hk' : Opened { k with currentBins := k.currentBins + 1 } :=
          ⟨Nat.lt_succ_of_lt hk.prev, not_lt.1 hfull⟩
        exact (ih hk' h).of_opened rfl (Nat.le_succ _) hscheme

theorem getUtilBin_lt {bins : ℕ → ℤ} {nth currentBins bin : ℕ}
    (h : getUtilBin bins nth currentBins = some bin) : bin < currentBins :=
  List.mem_range.1 (List.mem_of_find?_eq_some h)

theorem packByUtil_outcome (hscheme : scheme ≠ 1) {index : ℕ → ℕ → ℕ} {n j : ℕ} (hk : Opened k)
    (h : packByUtil fuel index c n j k = .ok x) : PackOutcome fuel scheme c k x := by
  induction n generalizing j k with
  | zero => cases h
  | succ n ih =>
    rw [packByUtil] at h
    cases hbin : getUtilBin k.st.cpuUtil (index k.currentBins j) k.currentBins with
    | none =>
      rw [hbin] at h
      cases h
    | some bin =>
      rw [hbin] at h
      obtain ⟨b, hb, h⟩ := bind_eq_ok.1 h
      cases b with
      | true => exact .of_place hk (getUtilBin_lt hbin) hb h
      | false =>
        simp only [Bool.false_eq_true, if_false] at h
        split_ifs at h with hj hfull hfull
        · obtain rfl := Except.ok.inj h
          exact .full rfl
        · have hk' : Opened { k with currentBins := k.currentBins + 1 } :=
            ⟨Nat.lt_succ_of_lt hk.prev, not_lt.1 hfull⟩
          exact (ih hk' h).of_opened rfl (Nat.le_succ _) hscheme
        · exact absurd hk.max (not_le.2 hfull)
        · exact ih hk h

/-- The `l`-th CPU that next fit tries. -/
def Packing.scan (k : Packing) (l : ℕ) : ℕ := (k.prevBin + l) % k.currentBins

theorem Opened.scan_zero (hk : Opened k) : k.scan 0 = k.prevBin := Nat.mod_eq_of_lt hk.prev

theorem Opened.scan_lt (hk : Opened k) (l : ℕ) : k.scan l < k.currentBins :=
  Nat.mod_lt _ (Nat.zero_lt_of_lt hk.prev)

theorem scan_next (k : Packing) (l : ℕ) :
    { k with prevBin := (k.prevBin + 1) % k.currentBins }.scan l = k.scan (l + 1) := by
  show ((k.prevBin + 1) % k.currentBins + l) % k.currentBins = (k.prevBin + (l + 1)) % k.currentBins
  rw [Nat.mod_add_mod]
  congr 1
  omega

/-- With all bins tried once around, every open bin has been. -/
theorem Opened.exists_scan (hk : Opened k) {cpu : ℕ} (hcpu : cpu < k.currentBins) :
    ∃ l < k.currentBins, k.scan l = cpu := by
  have hprev := hk.prev
  by_cases hle : k.prevBin ≤ cpu
  · refine ⟨cpu - k.prevBin, by omega, ?_⟩
    show (k.prevBin + (cpu - k.prevBin)) % k.currentBins = cpu
    rw [Nat.add_sub_cancel' hle, Nat.mod_eq_of_lt hcpu]
  · refine ⟨cpu + k.currentBins - k.prevBin, by omega, ?_⟩
    show (k.prevBin + (cpu + k.currentBins - k.prevBin)) % k.currentBins = cpu
    rw [Nat.add_sub_cancel' (by omega), Nat.add_mod_right, Nat.mod_eq_of_lt hcpu]

/-- The search of next fit stops at the first bin that admits the task, or comes back to where it
started. -/
theorem nextFitFrom_cases {n : ℕ} (hk : Opened k) (h : nextFitFrom fuel c n k = .ok x) :
    (∃ i < n, (∀ l < i, checkAdmissionPerCpu fuel c.budget c.period (k.scan l) k.st = .ok false) ∧
      checkAdmissionPerCpu fuel c.budget c.period (k.scan i) k.st = .ok true ∧
      ∃ k', place fuel c (k.scan i) { k with prevBin := k.scan i } = .ok k' ∧ x = (k', true)) ∨
    (∀ l < n, checkAdmissionPerCpu fuel c.budget c.period (k.scan l) k.st = .ok false) ∧
      x = ({ k with prevBin := k.scan n }, false) := by
  induction n generalizing k with
  | zero =>
    obtain rfl := Except.ok.inj h
    refine Or.inr ⟨fun l hl => absurd hl (Nat.not_lt_zero l), ?_⟩
    rw [hk.scan_zero]
  | succ n ih =>
    obtain ⟨b, hb, h⟩ := bind_eq_ok.1 h
    rw [← hk.scan_zero] at hb
    cases b with
    | true =>
      obtain ⟨k', hplace, hx⟩ := bind_eq_ok.1 h
      refine Or.inl ⟨0, Nat.succ_pos n, fun l hl => absurd hl (Nat.not_lt_zero l), hb, k', ?_,
        (Except.ok.inj hx).symm⟩
      rw [hk.scan_zero]
      exact hplace
    | false =>
      have hk' : Opened { k with prevBin := (k.prevBin + 1) % k.currentBins } :=
        ⟨hk.scan_lt 1, hk.max⟩
      -- what the rest of the search finds, counted from here
      have hshift : ∀ m, (∀ l < m, checkAdmissionPerCpu fuel c.budget c.period
          (k.scan (l + 1)) k.st = .ok false) →
          ∀ l < m + 1, checkAdmissionPerCpu fuel c.budget c.period (k.scan l) k.st = .ok false := by
        intro m hm l hl
        cases l with
        | zero => exact hb
        | succ l => exact hm l (Nat.lt_of_succ_lt_succ hl)
      have hrest := ih hk' h
      simp only [scan_next] at hrest
      rcases hrest with ⟨i, hi, hrefuse, hfits, hplace⟩ | ⟨hrefuse, hx⟩
      · exact Or.inl ⟨i + 1, Nat.succ_lt_succ hi, hshift i hrefuse, hfits, hplace⟩
      · exact Or.inr ⟨hshift n hrefuse, hx⟩

/-- The three ways of next fit. -/
inductive NextFitTurn (fuel : ℕ) (c : TaskCt) (k : Packing) : Packing × Bool → Prop
  | fits {i : ℕ} {k' : Packing} (hi : i < k.currentBins)
      (hrefuse : ∀ l < i, checkAdmissionPerCpu fuel c.budget c.period (k.scan l) k.st = .ok false)
      (hfits : checkAdmissionPerCpu fuel c.budget c.period (k.scan i) k.st = .ok true)
      (hplace : place fuel c (k.scan i) { k with prevBin := k.scan i } = .ok k') :
      NextFitTurn fuel c k (k', true)
  | fresh {k' : Packing} (hrefuse : ∀ l < k.currentBins,
        checkAdmissionPerCpu fuel c.budget c.period (k.scan l) k.st = .ok false)
      (hroom : k.currentBins < maxBins)
      (hplace : place fuel c k.currentBins { k with
        prevBin := k.scan k.currentBins, currentBins := k.currentBins + 1 } = .ok k') :
      NextFitTurn fuel c k ({ k' with prevBin := k.currentBins }, true)
  | leftOut (hrefuse : ∀ l < k.currentBins,
        checkAdmissionPerCpu fuel c.budget c.period (k.scan l) k.st = .ok false)
      (hroom : ¬ k.currentBins < maxBins) :
      NextFitTurn fuel c k ({ k with prevBin := k.scan k.currentBins }, true)

theorem packNextFit_turn (hk : Opened k) (h : packNextFit fuel c k = .ok x) :
    NextFitTurn fuel c k x := by
  obtain ⟨y, hy, h⟩ := bind_eq_ok.1 h
  rcases nextFitFrom_cases hk hy with ⟨i, hi, hrefuse, hfits, k', hplace, rfl⟩ | ⟨hrefuse, rfl⟩
  · obtain rfl := Except.ok.inj h
    exact .fits hi hrefuse hfits hplace
  · simp only [Bool.false_eq_true, if_false] at h
    split_ifs at h with hroom
    · obtain ⟨k', hplace, h⟩ := bind_eq_ok.1 h
      obtain rfl := Except.ok.inj h
      have hlast : k'.currentBins - 1 = k.currentBins := by
        rw [(place_bins hplace).1]
        rfl
      rw [hlast]
      exact .fresh hrefuse hroom hplace
    · rw [decide_eq_true hk.max] at h
      obtain rfl := Except.ok.inj h
      exact .leftOut hrefuse hroom

theorem packNextFit_outcome (hk : Opened k) (h : packNextFit fuel c k = .ok x) :
    PackOutcome fuel 1 c k x := by
  cases packNextFit_turn hk h with
  | fits hi hrefuse hfits hplace =>
    obtain ⟨hbins, hprev⟩ := place_bins hplace
    refine .placed ?_ hplace rfl ?_ hbins.ge (hbins ▸ hk.max) ?_ (Or.inl hfits)
    · rfl
    · rw [hbins, hprev]
      exact hk.scan_lt _
    · rw [hbins]
      exact hk.scan_lt _
  | fresh hrefuse hroom hplace =>
    obtain ⟨hbins, hprev⟩ := place_bins hplace
    refine .placed ?_ hplace rfl ?_ ?_ ?_ ?_ (Or.inr le_rfl)
    · rfl
    all_goals simp only [hbins]; omega
  | leftOut hrefuse hroom =>
    refine .leftOut rfl rfl (hk.scan_lt _) rfl fun cpu hcpu => ?_
    have hmax := hk.max
    obtain ⟨l, hl, rfl⟩ := hk.exists_scan (show cpu < k.currentBins by omega)
    exact hrefuse l hl

/-- **One turn, for every scheme.** -/
theorem packOne_outcome (hscheme : scheme ≤ 4) (hk : Opened k)
    (h : packOne fuel scheme c k = .ok x) : PackOutcome fuel scheme c k x := by
  match scheme, hscheme with
  | 0, _ => exact packFirstFit_outcome (by decide) hk h
  | 1, _ => exact packNextFit_outcome hk h
  | 2, _ => exact packByUtil_outcome (by decide) hk h
  | 3, _ => exact packByUtil_outcome (by decide) hk h
  | 4, _ => exact packByUtil_outcome (by decide) hk h

end Outcome

/-! ### The whole loop -/

/-- The packing of the tasks of `s` has got as far as `k`, with `cl` on the CPUs. -/
structure Filled (s : KState) (k : Packing) (cl : ℕ → List Tid) : Prop where
  kept : CpuKept k.st cl
  frame : PackFrame s k.st
  opened : Opened k
  fresh : ∀ cpu, k.currentBins ≤ cpu → cl cpu = []

/-- An entry of the array of `sort_periodic_tasklist`. -/
def utilCt (s : KState) (t : Tid) : TaskCt :=
  let c := ctOf s t
  { c with util := c.budget * scaleUpFactor / c.period, task := t }

/-- The tasks still to be packed: reservations of `s`, each once, and on no CPU. -/
structure Pending (s : KState) (cl : ℕ → List Tid) (rem : List TaskCt) : Prop where
  entry : ∀ d ∈ rem, d = utilCt s d.task
  off : ∀ d ∈ rem, ∀ cpu, d.task ∉ cl cpu
  nodup : (rem.map TaskCt.task).Nodup

section All

variable {fuel scheme : ℕ} {s : KState} {c : TaskCt} {rem : List TaskCt} {k k' : Packing}
  {cl : ℕ → List Tid}

theorem Pending.tail (h : Pending s cl (c :: rem)) : Pending s cl rem :=
  ⟨fun d hd => h.entry d (List.mem_cons_of_mem _ hd),
    fun d hd => h.off d (List.mem_cons_of_mem _ hd), (List.nodup_cons.1 h.nodup).2⟩

theorem Pending.put (h : Pending s cl (c :: rem)) (cpu : ℕ) :
    Pending s (put s cl c.task cpu) rem := by
  refine ⟨h.tail.entry, fun d hd cpu' hmem => ?_, h.tail.nodup⟩
  rcases mem_put.1 hmem with ⟨-, heq⟩ | hmem
  · exact (List.nodup_cons.1 h.nodup).1 (heq ▸ List.mem_map_of_mem hd)
  · exact h.tail.off d hd cpu' hmem

/-- The code's answer on the way. -/
theorem Filled.check_iff (hf : Filled s k cl) {cpu : ℕ} {b : Bool}
    (h : checkAdmissionPerCpu fuel c.budget c.period cpu k.st = .ok b) :
    b = true ↔ Admits s (cl cpu) c := by
  rw [checkAdmissionPerCpu_iff hf.kept h, hf.frame.admits]

/-- A pending task gets onto a CPU. -/
theorem Filled.place {cpu : ℕ} {k₀ k₁ : Packing} (hf : Filled s k cl)
    (hp : Pending s cl (c :: rem)) (hplace : place fuel c cpu k₀ = .ok k₁)
    (hk₀ : k₀.st = k.st) (hk' : k'.st = k₁.st) (hopened : Opened k')
    (hmono : k.currentBins ≤ k'.currentBins) (hcpu : cpu < k'.currentBins) :
    Filled s k' (put s cl c.task cpu) := by
  have hoff := hp.off c List.mem_cons_self
  have hkept₀ : CpuKept k₀.st cl := by
    rw [hk₀]
    exact hf.kept
  obtain ⟨hkept, hframe⟩ := place_puts hkept₀ hoff hplace
  rw [← hk', hk₀] at hframe
  rw [← hk', hk₀, hf.frame.put_eq] at hkept
  refine ⟨hkept, hf.frame.trans hframe, hopened, fun d hd => ?_⟩
  have hne : d ≠ cpu := by omega
  show Function.update cl cpu _ d = []
  rw [Function.update_of_ne hne]
  exact hf.fresh d (hmono.trans hd)

/-- **The rule for packing.**  `J` relates `cpu_util` and the tasks still to be packed to the contents
of the lists; it has to survive a placement on a CPU that admits the task or is empty, and, under next
fit, a task that no CPU admits. -/
theorem packAll_util_rule {J : (ℕ → ℤ) → List TaskCt → (ℕ → List Tid) → Prop}
    (hput : ∀ util c rem cl cpu, Pending s cl (c :: rem) → J util (c :: rem) cl → cpu < maxBins →
      Admits s (cl cpu) c ∨ cl cpu = [] →
      J (Function.update util cpu (util cpu - c.util)) rem (put s cl c.task cpu))
    (hleft : scheme = 1 → ∀ util c rem cl, J util (c :: rem) cl →
      (∀ cpu < maxBins, ¬ Admits s (cl cpu) c) → J util rem cl)
    (hscheme : scheme ≤ 4) {list : List TaskCt} (hf : Filled s k cl) (hp : Pending s cl list)
    (hJ : J k.st.cpuUtil list cl) {x : Packing × Bool} (h : packAll fuel scheme list k = .ok x) :
    ∃ rem cl', CpuKept x.1.st cl' ∧ PackFrame s x.1.st ∧ J x.1.st.cpuUtil rem cl' ∧
      (x.2 = true → rem = []) := by
  induction list generalizing k cl with
  | nil =>
    obtain rfl := Except.ok.inj h
    exact ⟨[], cl, hf.kept, hf.frame, hJ, fun _ => rfl⟩
  | cons c rem ih =>
    obtain ⟨y, hone, h⟩ := bind_eq_ok.1 h
    cases packOne_outcome hscheme hf.opened hone with
    | @placed cpu k₀ k₁ k' hk₀ hplace hk' hprev hopen hmax hcpu hfits =>
      have hlt : cpu < maxBins := lt_of_lt_of_le hcpu hmax
      have hadm : Admits s (cl cpu) c ∨ cl cpu = [] :=
        hfits.imp (fun hcheck => (hf.check_iff hcheck).1 rfl) (hf.fresh cpu)
      refine ih (hf.place hp hplace hk₀ hk' ⟨hprev, hmax⟩ hopen hcpu) (hp.put cpu) ?_ h
      rw [hk', place_util hplace, hk₀]
      exact hput k.st.cpuUtil c rem cl cpu hp hJ hlt hadm
    | @leftOut k' hone' hk' hprev hbins hrefuse =>
      have hfilled : Filled s k' cl := by
        refine ⟨hk' ▸ hf.kept, hk' ▸ hf.frame, ⟨hprev, hbins ▸ hf.opened.max⟩, ?_⟩
        rw [hbins]
        exact hf.fresh
      refine ih hfilled hp.tail ?_ h
      rw [hk']
      refine hleft hone' k.st.cpuUtil c rem cl hJ fun cpu hcpu hadm => ?_
      exact Bool.false_ne_true ((hf.check_iff (hrefuse cpu hcpu)).2 hadm)
    | @full k' hk' =>
      obtain rfl := Except.ok.inj h
      refine ⟨c :: rem, cl, ?_, ?_, ?_, fun h => nomatch h⟩
      · show CpuKept k'.st cl
        rw [hk']
        exact hf.kept
      · show PackFrame s k'.st
        rw [hk']
        exact hf.frame
      · show J k'.st.cpuUtil (c :: rem) cl
        rw [hk']
        exact hJ

/-- The same for what does not depend on `cpu_util`. -/
theorem packAll_rule {J : List TaskCt → (ℕ → List Tid) → Prop}
    (hput : ∀ c rem cl cpu, Pending s cl (c :: rem) → J (c :: rem) cl → cpu < maxBins →
      Admits s (cl cpu) c ∨ cl cpu = [] → J rem (put s cl c.task cpu))
    (hleft : scheme = 1 → ∀ c rem cl, J (c :: rem) cl →
      (∀ cpu < maxBins, ¬ Admits s (cl cpu) c) → J rem cl)
    (hscheme : scheme ≤ 4) {list : List TaskCt} (hf : Filled s k cl) (hp : Pending s cl list)
    (hJ : J list cl) {x : Packing × Bool} (h : packAll fuel scheme list k = .ok x) :
    ∃ rem cl', CpuKept x.1.st cl' ∧ PackFrame s x.1.st ∧ J rem cl' ∧ (x.2 = true → rem = []) :=
  packAll_util_rule (J := fun _ => J) (fun _ => hput) (fun h1 _ => hleft h1) hscheme hf hp hJ h

/-- The tasks in the order in which they are packed. -/
def utilOrder (s : KState) (list : List Tid) : List TaskCt :=
  bubbleSort (fun a b => decide (b.util > a.util)) (list.map (utilCt s))

theorem sortPeriodicTasklist_eq {list : List Tid} (hk : Kept s list) {l : List TaskCt}
    (h : sortPeriodicTasklist fuel s = .ok l) : l = utilOrder s list := by
  obtain ⟨tasks, htasks, h⟩ := bind_eq_ok.1 h
  have hlist := sat_of_eq (hk.periodicTasks_sat fuel) htasks
  subst hlist
  rw [ctArray, List.length_map, if_pos hk.size.symm] at h
  exact (Except.ok.inj h).symm

theorem mem_utilOrder {list : List Tid} {d : TaskCt} :
    d ∈ utilOrder s list ↔ ∃ t ∈ list, utilCt s t = d := by
  rw [utilOrder, (bubbleSort_perm _ _).mem_iff, List.mem_map]

theorem utilOrder_tasks (s : KState) (list : List Tid) :
    ((utilOrder s list).map TaskCt.task).Perm list := by
  refine ((bubbleSort_perm _ _).map TaskCt.task).trans ?_
  rw [List.map_map]
  exact List.Perm.of_eq (List.map_id list)

/-- How `bin_packing` starts: one open bin, or four. -/
def packStart (scheme : ℕ) (s : KState) : Packing := ⟨s, if scheme = 4 then 4 else 1, 0, ∅⟩

theorem filled_start (hc : CpuKept s fun _ => []) (scheme : ℕ) :
    Filled s (packStart scheme s) fun _ => [] := by
  refine ⟨hc, PackFrame.refl s, ⟨?_, ?_⟩, fun _ _ => rfl⟩
  · show 0 < if scheme = 4 then 4 else 1
    split_ifs <;> decide
  · show (if scheme = 4 then 4 else 1) ≤ maxBins
    split_ifs <;> decide

theorem pending_start {list : List Tid} (hk : Kept s list) :
    Pending s (fun _ => []) (utilOrder s list) := by
  refine ⟨fun d hd => ?_, fun d _ _ hmem => (by cases hmem), ?_⟩
  · obtain ⟨t, -, rfl⟩ := mem_utilOrder.1 hd
    rfl
  · exact (utilOrder_tasks s list).nodup_iff.2 hk.nodup

/-- With no reservation held, `bin_packing` opens no bin and leaves the system alone. -/
theorem binPacking_empty (hk : Kept s []) : binPacking fuel scheme s = .ok (s, 0) := by
  have hsize : s.periodicTasksSize ≤ 0 := hk.size.le
  rw [binPacking, if_pos hsize]
  rfl

theorem binPacking_eq_ok {list : List Tid} (hk : Kept s list) (hne : list ≠ []) {y : KState × ℕ}
    (h : binPacking fuel scheme s = .ok y) :
    ∃ x, packAll fuel scheme (utilOrder s list) (packStart scheme s) = .ok x ∧
      y = (x.1.st, if x.2 then x.1.currentBins else 0) := by
  have hsize : ¬ s.periodicTasksSize ≤ 0 := by
    rw [hk.size]
    exact not_le.2 (List.length_pos_iff.2 hne)
  rw [binPacking, if_neg hsize] at h
  obtain ⟨l, hl, h⟩ := bind_eq_ok.1 h
  obtain rfl := sortPeriodicTasklist_eq hk hl
  obtain ⟨x, hx, h⟩ := bind_eq_ok.1 h
  exact ⟨x, hx, (Except.ok.inj h).symm⟩

end All

end RtSched
