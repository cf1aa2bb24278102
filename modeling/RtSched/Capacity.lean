import RtSched.Affinity
import RtSched.CpuListRun
import RtSched.ModeRun

/-!
# The capacity ledger (`cpu_util`)

`cpu_util[c]` says what is left of CPU `c`, in thousandths.  It starts at 1000, every placement debits
it, and `clear_cpu_lists` sets it back.  No removal credits it: `del_task_cpu` takes the task off the
list and leaves the number as it is.

* `LedgerInv`: every number is what the tasks on the list leave, and not negative;
* `utilLeft_insert_nonneg`: a task that is admitted does not overdraw its CPU;
* `ledger_invariant`: the ledger is right over every run in which no task with a share is taken off a
  CPU and no share of a packed task changes;
* `ledger_stale`: one cancellation is enough to make it wrong.
-/

namespace RtSched

open Call LinkRing TimeDemand

variable {e : Env} {s s' s'' : KState} {list : List Tid} {cl cl' : ℕ → List Tid} {t u : Tid}

/-! ### What the ledger depends on -/

theorem utilCt_congr (hper : (s'.task u).timePeriod = (s.task u).timePeriod)
    (hmin : (s'.task u).minBudgetTime = (s.task u).minBudgetTime) : utilCt s' u = utilCt s u := by
  simp only [utilCt, ctOf, hper, hmin]

theorem ButFlag.utilCt_eq (h : ButFlag (s.task u) (s'.task u)) : utilCt s' u = utilCt s u :=
  utilCt_congr h.timePeriod (congrArg TaskReg.minBudgetTime h)

theorem utilCt_of_registry (h : s'.registry = s.registry) (u : Tid) : utilCt s' u = utilCt s u :=
  (registry_task h u).butFlag.utilCt_eq

/-- `cpu_util` and the shares of all tasks but `t` are as before. -/
structure ButShare (t : Tid) (s s' : KState) : Prop where
  util : s'.cpuUtil = s.cpuUtil
  share : ∀ u, u ≠ t → utilCt s' u = utilCt s u

theorem ButShare.then_registry (h : ButShare t s s') (hreg : s''.registry = s'.registry)
    (hutil : s''.cpuUtil = s'.cpuUtil) : ButShare t s s'' :=
  ⟨hutil.trans h.util, fun u hu => (utilCt_of_registry hreg u).trans (h.share u hu)⟩

theorem ButShare.then_clock (h : ButShare t s s')
    (hu : TaskUpdate ClockOnly (numberTasks s' list) s'') : ButShare t s s'' :=
  h.then_registry hu.quiet_of_numbered.registry
    (hu.cpuUtil.trans (numberTasks_update s' list).cpuUtil)

theorem Reserved.butShare {b p : Timespec} (h : Reserved t b p s s') : ButShare t s s' := by
  refine ⟨h.step.cpuUtil, fun u hu => utilCt_congr ?_ ?_⟩
  · rw [h.timePeriod, if_neg hu]
  · rw [h.minBudgetTime, if_neg hu]

theorem Unreserved.butShare (h : Unreserved t s s') : ButShare t s s' := by
  refine ⟨h.step.cpuUtil, fun u hu => utilCt_congr ?_ ?_⟩
  · rw [h.timePeriod, if_neg hu]
  · exact h.minBudgetTime u

theorem Dropped.butShare (h : Dropped t s s') : ButShare t s s' := by
  refine ⟨h.step.cpuUtil, fun u _ => ?_⟩
  obtain ⟨hper, hmin⟩ := h.keeps u
  exact utilCt_congr hper hmin

/-! ### The calls -/

/-- The share of the task after the call is that of the request. -/
theorem setReservation_share (h : Kept s list) (hok : SetOk s list t) (budget : ℕ)
    (b p : Timespec) :
    Sat (fun s' => ButShare t s s' ∧
        (utilCt s' t).util = convertToUsecs b * scaleUpFactor / convertToUsecs p)
      (fun _ => True) (setReservation e t budget b p s) := by
  refine Sat.bind ((reserve_sat h hok b p).mono (fun _ h => h) fun _ _ => trivial) ?_
  rintro s₁ ⟨hk, hr⟩
  have hshare : (utilCt s₁ t).util = convertToUsecs b * scaleUpFactor / convertToUsecs p := by
    simp only [utilCt, ctOf, hr.timePeriod, hr.minBudgetTime, if_true]
  refine sat_ite (fun _ => ⟨hr.butShare, hshare⟩) fun _ => ?_
  refine (launchReservation_sat hk t budget).mono (fun s' hs' => ?_) fun _ _ => trivial
  refine ⟨hr.butShare.then_clock hs'.update, ?_⟩
  rw [utilCt_of_registry hs'.update.quiet_of_numbered.registry]
  exact hshare

theorem delTaskCpu_cpuUtil (t : Tid) (cpu : ℕ) (s : KState) :
    Sat (fun s' => s'.cpuUtil = s.cpuUtil) (fun _ => True) (delTaskCpu t cpu s) := by
  refine sat_ite (fun _ => ?_) fun _ => rfl
  exact Sat.bind (Q := fun _ => True) (sat_lift (fun _ _ => trivial) trivial) fun _ _ => rfl

/-- Leaving a CPU does not credit it. -/
theorem leaveCpu_cpuUtil (t : Tid) (s : KState) :
    Sat (fun s' => s'.cpuUtil = s.cpuUtil) (fun _ => True) (leaveCpu e t s) := by
  refine sat_ite (fun _ => ?_) fun _ => rfl
  refine (delTaskCpu_cpuUtil t _ s).bind fun s₁ hs₁ => ?_
  refine Sat.bind ((setRtPrioritiesPerCpu_update e.fuel _ s₁).mono (fun _ h => h)
    fun _ _ => trivial) fun x hx => ?_
  exact hx.cpuUtil.trans hs₁

theorem leaveCpu_butShare {s₀ : KState} (h : ButShare t s s₀) :
    Sat (fun s' => s'.registry = s₀.registry ∧ ButShare t s s') (fun _ => True)
      (leaveCpu e t s₀) :=
  ((leaveCpu_registry t s₀).and (leaveCpu_cpuUtil t s₀)).mono
    (fun _ hs' => ⟨hs'.1, h.then_registry hs'.1 hs'.2⟩) fun _ _ => trivial

theorem cancelReservation_butShare (hk : Kept s list) (hmem : t ∈ list ∨ list = []) :
    Sat (ButShare t s) (fun _ => True) (cancelReservation e t s) := by
  obtain ⟨s₀, hdel, hk₀, hu⟩ := unreserve_sat hk hmem
  rw [cancelReservation, hdel, ok_bind]
  refine (leaveCpu_butShare hu.butShare).bind ?_
  rintro s₁ ⟨hreg, hs₁⟩
  have hwake : TaskUpdate ClockOnly s₁ (s₁.eachThread t wakeUpProcess) :=
    taskUpdate_eachThread ClockOnly.refl wakeUpProcess_clockOnly
  have hs₂ := hs₁.then_registry hwake.quiet_of_clock.registry hwake.cpuUtil
  have hk₂ := (hk₀.of_registry hreg).of_quiet hwake.quiet_of_clock
  refine sat_ite (fun _ => hs₂) fun _ => (retuneAfterCancel_sat hk₂).mono ?_ fun _ _ => trivial
  exact fun s' hs' => hs₂.then_clock hs'.1

theorem exitReservation_butShare (hk : Kept s list) (hmem : t ∈ list ∨ list = [])
    (hlead : t = (s.task t).tgid) :
    Sat (ButShare t s) (fun _ => True) (exitReservation e t s) := by
  obtain ⟨s₀, hdel, hk₀, hd⟩ := drop_sat hk hmem
  rw [exitReservation, if_pos hlead, hdel, ok_bind]
  refine (leaveCpu_butShare hd.butShare).bind ?_
  rintro s₁ ⟨hreg, hs₁⟩
  refine sat_ite (fun _ => hs₁) fun _ =>
    (retuneAfterExit_sat (hk₀.of_registry hreg)).mono ?_ fun _ _ => trivial
  exact fun s' hs' => hs₁.then_clock hs'.1

/-! ### The invariant -/

/-- The per-CPU lists are well formed, only the four CPUs have one, and `cpu_util` is what their tasks
leave. -/
structure LedgerInv (s : KState) (cl : ℕ → List Tid) : Prop where
  kept : CpuKept s cl
  low : ∀ cpu, maxCpu ≤ cpu → cl cpu = []
  util : ∀ cpu < maxCpu, s.cpuUtil cpu = utilLeft s (cl cpu)
  nonneg : ∀ cpu < maxCpu, 0 ≤ utilLeft s (cl cpu)

theorem utilLeft_congr {bin : List Tid} (h : ∀ u ∈ bin, (utilCt s' u).util = (utilCt s u).util) :
    utilLeft s' bin = utilLeft s bin := by
  rw [utilLeft, utilLeft, List.map_congr_left h]

/-- Taking a task off gives back its share. -/
theorem utilLeft_erase {bin : List Tid} (ht : t ∈ bin) :
    utilLeft s (bin.erase t) = utilLeft s bin + (utilCt s t).util := by
  have hsum := ((List.perm_cons_erase ht).map fun u => (utilCt s u).util).sum_eq
  rw [List.map_cons, List.sum_cons] at hsum
  rw [utilLeft, utilLeft, hsum]
  omega

/-- Calls that leave the lists and the shares on them alone. -/
theorem LedgerInv.congr (h : LedgerInv s cl) (hcpu : s'.cpuRegistry = s.cpuRegistry)
    (hutil : s'.cpuUtil = s.cpuUtil)
    (hshare : ∀ cpu < maxCpu, ∀ u ∈ cl cpu, (utilCt s' u).util = (utilCt s u).util) :
    LedgerInv s' cl := by
  refine ⟨h.kept.of_registry hcpu, h.low, fun cpu hlt => ?_, fun cpu hlt => ?_⟩
  · rw [hutil, utilLeft_congr (hshare cpu hlt)]
    exact h.util cpu hlt
  · rw [utilLeft_congr (hshare cpu hlt)]
    exact h.nonneg cpu hlt

/-- The task is on no list; or it is where the removal looks for it, and has no share. -/
def NoShare (s : KState) (t : Tid) : Prop :=
  ∀ cpu < maxCpu, CpuHolds s cpu t →
    s.isBinPackingSet = true ∧ (s.task t).cpuNo = cpu ∧ (utilCt s t).util = 0

/-- A removal that gives back nothing. -/
theorem LedgerInv.left (h : LedgerInv s cl) (hk : CpuKept s' (leftCpu s cl t))
    (hb : ButShare t s s') (hno : NoShare s t) : LedgerInv s' (leftCpu s cl t) := by
  have hleft : ∀ cpu < maxCpu, utilLeft s' (leftCpu s cl t cpu) = utilLeft s (cl cpu) := by
    intro cpu hlt
    by_cases ht : t ∈ cl cpu
    · obtain ⟨hbin, rfl, hzero⟩ := hno cpu hlt ⟨cl cpu, h.kept.onCpuList cpu, ht⟩
      have herase : leftCpu s cl t (s.task t).cpuNo = (cl (s.task t).cpuNo).erase t := by
        rw [leftCpu, if_pos hbin, Function.update_self]
      have hshare : utilLeft s' ((cl (s.task t).cpuNo).erase t) =
          utilLeft s ((cl (s.task t).cpuNo).erase t) := by
        refine utilLeft_congr fun u hu => congrArg TaskCt.util (hb.share u ?_)
        rintro rfl
        exact (h.kept.nodup _).not_mem_erase hu
      rw [herase, hshare, utilLeft_erase ht, hzero, add_zero]
    · have hsame : leftCpu s cl t cpu = cl cpu := by
        rw [leftCpu]
        split_ifs with hbin
        · by_cases hcpu : cpu = (s.task t).cpuNo
          · rw [← hcpu, Function.update_self, List.erase_of_not_mem ht]
          · rw [Function.update_of_ne hcpu]
        · rfl
      rw [hsame]
      refine utilLeft_congr fun u hu => congrArg TaskCt.util (hb.share u ?_)
      rintro rfl
      exact ht hu
  refine ⟨hk, fun cpu hcpu => ?_, fun cpu hlt => ?_, fun cpu hlt => ?_⟩
  · refine List.eq_nil_iff_forall_not_mem.2 fun u hu => ?_
    have hmem := mem_leftCpu hu
    rw [h.low cpu hcpu] at hmem
    cases hmem
  · rw [hb.util, hleft cpu hlt]
    exact h.util cpu hlt
  · rw [hleft cpu hlt]
    exact h.nonneg cpu hlt

theorem LedgerInv.finishExit (h : LedgerInv s cl) (t : Tid) (autoreap : Bool) :
    LedgerInv (finishExit t autoreap s) cl := by
  refine h.congr ?_ ?_ fun _ _ u _ => ?_
  · cases autoreap <;> rfl
  · cases autoreap <;> rfl
  · obtain ⟨_, _, hu⟩ := finishExit_task t u autoreap s
    refine congrArg TaskCt.util (utilCt_congr ?_ ?_)
    · rw [hu]
    · rw [hu]

/-! ### Clearing -/

/-- The loop of `clear_cpu_lists` over some of the CPUs, whatever state the lists are in. -/
theorem clearCpuLists_resets_from (fuel : ℕ) (cpus : List ℕ) (s : KState) :
    Sat (fun s' => (∀ cpu ∈ cpus, s'.perCpuListSize cpu = 0 ∧ s'.cpuUtil cpu = 1000) ∧
      ∀ cpu ∉ cpus, s'.perCpuListSize cpu = s.perCpuListSize cpu ∧ s'.cpuUtil cpu = s.cpuUtil cpu)
      (fun _ => True) (cpus.foldlM (clearCpuList fuel) s) := by
  induction cpus generalizing s with
  | nil => exact ⟨by simp, fun _ _ => ⟨rfl, rfl⟩⟩
  | cons c cpus ih =>
    rw [List.foldlM_cons]
    have hone : Sat (fun s' => s'.perCpuListSize = Function.update s.perCpuListSize c 0 ∧
        s'.cpuUtil = Function.update s.cpuUtil c 1000) (fun _ => True) (clearCpuList fuel s c) := by
      refine sat_ite (fun _ => ?_) fun _ => ⟨rfl, rfl⟩
      exact Sat.bind (Q := fun _ => True) (sat_lift (fun _ _ => trivial) trivial)
        fun _ _ => ⟨rfl, rfl⟩
    refine hone.bind fun s₁ hs₁ => (ih s₁).mono ?_ fun _ h => h
    rintro s' ⟨hin, hout⟩
    obtain ⟨hsize, hutil⟩ := hs₁
    refine ⟨fun cpu hcpu => ?_, fun cpu hcpu => ?_⟩
    · by_cases hmem : cpu ∈ cpus
      · exact hin cpu hmem
      · obtain rfl := (List.mem_cons.1 hcpu).resolve_right hmem
        rw [(hout cpu hmem).1, (hout cpu hmem).2, hsize, hutil, Function.update_self,
          Function.update_self]
        exact ⟨rfl, rfl⟩
    · obtain ⟨hne, hmem⟩ := not_or.1 (List.mem_cons.not.1 hcpu)
      rw [(hout cpu hmem).1, (hout cpu hmem).2, hsize, hutil, Function.update_of_ne hne,
        Function.update_of_ne hne]
      exact ⟨rfl, rfl⟩

theorem clearCpuLists_resets (fuel : ℕ) (s : KState) :
    Sat (fun s' => ∀ cpu < maxCpu, s'.perCpuListSize cpu = 0 ∧ s'.cpuUtil cpu = 1000)
      (fun _ => True) (clearCpuLists fuel s) :=
  (clearCpuLists_resets_from fuel (List.range maxCpu) s).mono
    (fun _ hs' cpu hcpu => hs'.1 cpu (List.mem_range.2 hcpu)) fun _ h => h

/-- `clear_cpu_lists` leaves empty lists and free CPUs. -/
theorem clearCpuLists_cleared (hk : CpuKept s cl) (hlow : ∀ cpu, maxCpu ≤ cpu → cl cpu = [])
    (fuel : ℕ) :
    Sat (fun s' => Cleared s' ∧ s'.registry = s.registry) (fun _ => True)
      (clearCpuLists fuel s) := by
  refine ((clearCpuLists_empties hk hlow fuel).and (clearCpuLists_resets fuel s)).mono ?_
    fun _ _ => trivial
  rintro s' ⟨⟨hk', hreg⟩, hreset⟩
  exact ⟨⟨hk', fun cpu hcpu => (hreset cpu hcpu).2⟩, hreg⟩

theorem Cleared.ledgerInv (h : Cleared s) : LedgerInv s fun _ => [] :=
  ⟨h.lists, fun _ _ => rfl, h.util, fun _ _ => by simp [utilLeft]⟩

/-! ### Packing -/

/-- A reservation within its period, with a budget that covers what it was admitted for. -/
structure Covered (s : KState) (t : Tid) : Prop extends Reservable s t where
  scaled : (utilCt s t).budget ≤ (cpuCtOf s t).budget

instance (s : KState) (t : Tid) : Decidable (Covered s t) :=
  decidable_of_iff (Reservable s t ∧ (utilCt s t).budget ≤ (cpuCtOf s t).budget)
    ⟨fun h => ⟨h.1, h.2⟩, fun h => ⟨h.toReservable, h.scaled⟩⟩

section Packing

variable {bin : List Tid}

theorem Covered.util_le (h : Covered s t) :
    (utilCt s t).util ≤ (cpuCtOf s t).budget * 1000 / (cpuCtOf s t).period := by
  have hp : 0 < (cpuCtOf s t).period := Int.lt_of_lt_of_le Int.zero_lt_one h.period
  exact Int.ediv_le_ediv hp (Int.mul_le_mul_of_nonneg_right h.scaled (by decide))

theorem Reservable.util_le (h : Reservable s t) : (utilCt s t).util ≤ 1000 := by
  have hp := h.period
  have hle := h.le
  exact Int.ediv_le_of_le_mul (show 0 < (utilCt s t).period by omega)
    (show (utilCt s t).budget * 1000 ≤ 1000 * (utilCt s t).period by omega)

/-- The shares of tasks that pass the test together sum to at most 1000. -/
theorem sum_util_le (ht : Reservable s t) (hbin : ∀ u ∈ bin, Covered s u)
    (hpass : Passes (insertCt { budget := (utilCt s t).budget, period := (utilCt s t).period }
      (bin.map (cpuCtOf s)))) :
    (utilCt s t).util + (bin.map fun u => (utilCt s u).util).sum ≤ 1000 := by
  set c : TaskCt := { budget := (utilCt s t).budget, period := (utilCt s t).period } with hc
  have hperm : (insertCt c (bin.map (cpuCtOf s))).Perm (c :: bin.map (cpuCtOf s)) := insertCt_perm
  have hw : WfCts (insertCt c (bin.map (cpuCtOf s))) := by
    refine wfCts_insertCt ⟨ht.nonneg, ht.period⟩ fun d hd => ?_
    obtain ⟨u, hu, rfl⟩ := List.mem_map.1 hd
    exact ⟨(hbin u hu).nonneg.trans (hbin u hu).scaled, (hbin u hu).period⟩
  have hcut := sum_ediv_le (m := 1000) hw.period (by decide) (hpass.utilisation_le hw)
  rw [Multiset.coe_eq_coe.2 hperm, Multiset.map_coe, Multiset.sum_coe, List.map_cons,
    List.sum_cons, List.map_map] at hcut
  have hmono : (bin.map fun u => (utilCt s u).util).sum ≤ (bin.map
      ((fun d : TaskCt => d.budget * 1000 / d.period) ∘ cpuCtOf s)).sum :=
    List.sum_le_sum fun u hu => (hbin u hu).util_le
  have hfirst : (utilCt s t).util = c.budget * 1000 / c.period := rfl
  omega

/-- A task that is admitted, or put on an empty CPU, does not overdraw it. -/
theorem utilLeft_insert_nonneg (ht : Reservable s t) (hbin : ∀ u ∈ bin, Covered s u)
    (hadm : Admits s bin (utilCt s t) ∨ bin = []) :
    0 ≤ utilLeft s (insertByPeriod s.periods t bin) := by
  rw [utilLeft_insert, utilLeft]
  by_cases hnil : bin = []
  · have hle := ht.util_le
    rw [hnil, List.map_nil, List.sum_nil]
    omega
  · have hpass := hadm.resolve_right hnil
    rw [Admits, if_neg hnil] at hpass
    have hsum := sum_util_le ht hbin hpass
    omega

/-- On the way through a packing of `list`: `util` is debited for what is on the CPUs. -/
structure Debited (s : KState) (list : List Tid) (util : ℕ → ℤ) (rem : List TaskCt)
    (cl : ℕ → List Tid) : Prop where
  util : ∀ cpu < maxCpu, util cpu = utilLeft s (cl cpu)
  nonneg : ∀ cpu < maxCpu, 0 ≤ utilLeft s (cl cpu)
  low : ∀ cpu, maxCpu ≤ cpu → cl cpu = []
  listed : ∀ cpu, ∀ u ∈ cl cpu, u ∈ list
  ahead : ∀ d ∈ rem, d.task ∈ list

theorem debited_start (hc : Cleared s) :
    Debited s list s.cpuUtil (utilOrder s list) fun _ => [] where
  util := hc.util
  nonneg := hc.ledgerInv.nonneg
  low := fun _ _ => rfl
  listed := by simp
  ahead := fun _ hd => (utilOrder_tasks s list).mem_iff.1 (List.mem_map_of_mem hd)

/-- A placement debits the CPU by the share of the task. -/
theorem Debited.put {util : ℕ → ℤ} {c : TaskCt} {rem : List TaskCt} {cpu : ℕ}
    (h : Debited s list util (c :: rem) cl) (hcov : ∀ t ∈ list, Covered s t)
    (hentry : c = utilCt s c.task) (hcpu : cpu < maxCpu)
    (hadm : Admits s (cl cpu) c ∨ cl cpu = []) :
    Debited s list (Function.update util cpu (util cpu - c.util)) rem (put s cl c.task cpu) := by
  have hct := h.ahead c List.mem_cons_self
  have hput : ∀ d, d ≠ cpu → RtSched.put s cl c.task cpu d = cl d :=
    fun d hd => Function.update_of_ne hd _ _
  have hself : RtSched.put s cl c.task cpu cpu = insertByPeriod s.periods c.task (cl cpu) :=
    Function.update_self ..
  refine ⟨fun d hd => ?_, fun d hd => ?_, fun d hd => ?_, fun d u hu => ?_, fun d hd => ?_⟩
  · by_cases hdc : d = cpu
    · subst hdc
      rw [Function.update_self, hself, utilLeft_insert, h.util d hd, ← hentry]
    · rw [Function.update_of_ne hdc, hput d hdc]
      exact h.util d hd
  · by_cases hdc : d = cpu
    · subst hdc
      rw [hentry] at hadm
      rw [hself]
      exact utilLeft_insert_nonneg (hcov _ hct).toReservable
        (fun u hu => hcov u (h.listed d u hu)) hadm
    · rw [hput d hdc]
      exact h.nonneg d hd
  · rw [hput d (by omega)]
    exact h.low d hd
  · rcases mem_put.1 hu with ⟨-, rfl⟩ | hu
    · exact hct
    · exact h.listed d u hu
  · exact h.ahead d (List.mem_cons_of_mem _ hd)

/-- Packing onto empty CPUs keeps the ledger. -/
theorem binPacking_ledger {fuel scheme : ℕ} (hk : Kept s list) (hc : Cleared s) (hne : list ≠ [])
    (hscheme : scheme ≤ 4) (hcov : ∀ t ∈ list, Covered s t) {y : KState × ℕ}
    (hy : binPacking fuel scheme s = .ok y) :
    ∃ cl', LedgerInv y.1 cl' ∧ y.1.registry = s.registry := by
  obtain ⟨x, hx, rfl⟩ := binPacking_eq_ok hk hne hy
  obtain ⟨rem, cl', hkept, hframe, hdeb, -⟩ := packAll_util_rule (J := Debited s list)
    (fun util c rem cl cpu hp hJ hcpu hadm =>
      hJ.put hcov (hp.entry c List.mem_cons_self) hcpu hadm)
    (fun _ util c rem cl hJ _ => ⟨hJ.util, hJ.nonneg, hJ.low, hJ.listed,
      fun d hd => hJ.ahead d (List.mem_cons_of_mem _ hd)⟩)
    hscheme (filled_start hc.lists scheme) (pending_start hk) (debited_start hc) hx
  have hleft : ∀ bin, utilLeft x.1.st bin = utilLeft s bin := fun bin => utilLeft_congr
    fun u _ => congrArg TaskCt.util (utilCt_of_registry hframe.registry u)
  refine ⟨cl', ⟨hkept, hdeb.low, fun cpu hlt => ?_, fun cpu hlt => ?_⟩, hframe.registry⟩
  · rw [hleft]
    exact hdeb.util cpu hlt
  · rw [hleft]
    exact hdeb.nonneg cpu hlt

end Packing

/-! ### The calls of bin-packing mode -/

/-- Stopping clears the CPUs; with no task on the global list it leaves them as they are. -/
theorem stopScheduling_ledger (hk : Kept s list) (h : LedgerInv s cl) :
    Sat (fun x => Kept x.1 list ∧ ∃ cl', LedgerInv x.1 cl') (fun _ => True)
      (stopScheduling e s) := by
  have hk₁ : Kept { s with isBinPackingSet := true } list := ⟨hk.ring, hk.size, hk.sorted⟩
  have h₁ : LedgerInv { s with isBinPackingSet := true } cl := h.congr rfl rfl fun _ _ _ _ => rfl
  refine sat_ite (fun _ => ⟨hk₁, cl, h₁⟩) fun _ => ?_
  refine Sat.bind ((hk₁.periodicTasks_sat e.fuel).mono (fun _ h => h) fun _ _ => trivial)
    fun l _ => ?_
  have hq := (taskUpdate_foldl ClockOnly.refl ClockOnly.trans id stopTask_update l
    { s with isBinPackingSet := true }).quiet_of_clock
  refine (clearCpuLists_cleared (h₁.kept.of_registry hq.cpuRegistry) h₁.low e.fuel).bind ?_
  rintro s' ⟨hc, hreg⟩
  exact ⟨(hk₁.of_quiet hq).of_registry hreg, _, hc.ledgerInv⟩

/-- The call is refused, or there is nothing to pack, or the tasks are packed onto empty CPUs. -/
def PacksCovered (s : KState) (scheme : ℤ) (list : List Tid) (cl : ℕ → List Tid) : Prop :=
  scheme < 0 ∨ scheme > 4 ∨ list = [] ∨
    (∀ cpu < maxCpu, cl cpu = []) ∧ ∀ t ∈ list, Covered s t

theorem setBinPacking_ledger (hk : Kept s list) (h : LedgerInv s cl) {scheme : ℤ}
    (hok : PacksCovered s scheme list cl) :
    Sat (fun x => Kept x.1 list ∧ ∃ cl', LedgerInv x.1 cl') (fun _ => True)
      (setBinPacking e scheme s) := by
  refine sat_ite (fun _ => ⟨hk, cl, h⟩) fun hrange => ?_
  set s₁ : KState := { s with binPackingScheme := scheme, powerScheme := .noPm } with hs₁
  have hk₁ : Kept s₁ list := ⟨hk.ring, hk.size, hk.sorted⟩
  have h₁ : LedgerInv s₁ cl := h.congr rfl rfl fun _ _ _ _ => rfl
  have hpack : Sat (fun y => Kept y.1 list ∧ ∃ cl', LedgerInv y.1 cl') (fun _ => True)
      (binPacking e.fuel scheme.toNat s₁) := by
    refine sat_of_forall_ok fun y hy => ?_
    by_cases hne : list = []
    · subst hne
      rw [binPacking_empty hk₁] at hy
      obtain rfl := Except.ok.inj hy
      exact ⟨hk₁, cl, h₁⟩
    · obtain ⟨hnil, hcov⟩ : (∀ cpu < maxCpu, cl cpu = []) ∧ ∀ t ∈ list, Covered s t := by
        rcases hok with hlow | hhigh | hnil | hok
        · exact absurd (Or.inl hlow) hrange
        · exact absurd (Or.inr hhigh) hrange
        · exact absurd hnil hne
        · exact hok
      have hcl : cl = fun _ => [] := by
        funext cpu
        rcases lt_or_ge cpu maxCpu with hlt | hge
        · exact hnil cpu hlt
        · exact h.low cpu hge
      subst hcl
      have hclear : Cleared s₁ := ⟨h₁.kept, fun cpu hlt => by simpa [utilLeft] using h₁.util cpu hlt⟩
      obtain ⟨cl', hinv, hreg⟩ := binPacking_ledger hk₁ hclear hne (by omega)
        (fun t ht => ⟨⟨(hcov t ht).nonneg, (hcov t ht).period, (hcov t ht).le⟩,
          (hcov t ht).scaled⟩) hy
      exact ⟨hk₁.of_registry hreg, cl', hinv⟩
  refine hpack.bind ?_
  rintro ⟨s₂, bins⟩ ⟨hk₂, cl', h₂⟩
  refine sat_ite (fun _ => ?_) fun _ => ⟨hk₂, cl', h₂⟩
  refine (clearCpuLists_cleared h₂.kept h₂.low e.fuel).bind ?_
  rintro s' ⟨hc, hreg⟩
  exact ⟨hk₂.of_registry hreg, _, hc.ledgerInv⟩

/-! ### Runs -/

/-- The calls that keep the ledger: no share of a packed task changes, none is taken off a CPU, and
tasks are packed onto empty CPUs. -/
def LedgerOk (e : Env) (s : KState) : Cmd → Prop
  | .setProcessBudget pid budget p => ∀ t ∈ s.findTaskByVpid pid,
      (∀ list, OnList s list → SetOk s list t) ∧ ∀ cpu < maxCpu, CpuHolds s cpu t →
        convertToUsecs (taskBudgetOf e budget) * scaleUpFactor / convertToUsecs p =
          (utilCt s t).util
  | .cancelBudget pid => ∀ t ∈ s.findTaskByVpid pid, RemoveOk s t ∧ NoShare s t
  | .exit t _ => (s.task t).tgid = t ∧
      ((s.task t).isBudgetSet = true → RemoveOk s t ∧ NoShare s t)
  | .setBinPacking scheme => scheme < 0 ∨ scheme > 4 ∨ OnList s [] ∨
      (∀ cpu < maxCpu, OnCpuList s cpu []) ∧ ∀ t, Holds s t → Covered s t
  | .stopScheduling | .startScheduling | .cancelBinPacking => True
  | .fork _ _ _ => False

theorem exec_ledger (h : ∃ list cl, Kept s list ∧ LedgerInv s cl) {c : Cmd} (hok : LedgerOk e s c) :
    Sat (fun x => ∃ list cl, Kept x.1 list ∧ LedgerInv x.1 cl) (fun _ => True) (exec e s c) := by
  obtain ⟨list, cl, hk, h⟩ := h
  cases c with
  | setProcessBudget pid budget p =>
    refine setProcessBudget_rule (Q := fun s' => ∃ list cl, Kept s' list ∧ LedgerInv s' cl) hk
      ⟨list, cl, hk, h⟩ fun t ht _ _ => ?_
    obtain ⟨hset, hshare⟩ := hok t ht
    have hsetok := hset list hk.onList
    refine ((setReservation_quiet hk hsetok budget _ p).and
      (setReservation_share hk hsetok budget _ p)).mono ?_ fun _ _ => trivial
    rintro s' ⟨⟨s₁, hk₁, hr, hq⟩, hb, hnew⟩
    refine ⟨_, cl, hk₁.of_quiet hq, h.congr (hq.cpuRegistry.trans hr.step.cpuRegistry) hb.util ?_⟩
    intro cpu hlt u hu
    by_cases hut : u = t
    · rw [hut, hnew]
      exact hshare cpu hlt ⟨cl cpu, h.kept.onCpuList cpu, hut ▸ hu⟩
    · exact congrArg TaskCt.util (hb.share u hut)
  | cancelBudget pid =>
    refine cancelBudget_rule (Q := fun s' => ∃ list cl, Kept s' list ∧ LedgerInv s' cl)
      ⟨list, cl, hk, h⟩ fun t ht => ?_
    obtain ⟨hrem, hno⟩ := hok t ht
    obtain ⟨hmem, hleave⟩ := hrem.of_kept hk h.kept
    refine ((cancelReservation_removed hk h.kept hmem hleave).and
      (cancelReservation_butShare hk hmem)).mono ?_ fun _ _ => trivial
    exact fun s' hs' => ⟨_, _, hs'.1.kept, h.left hs'.1.cpuKept hs'.2 hno⟩
  | exit t autoreap =>
    obtain ⟨hlead, hflag⟩ := hok
    refine doExit_rule (Q := fun s' => ∃ list cl, Kept s' list ∧ LedgerInv s' cl) (fun hf => ?_)
      fun _ => ⟨list, cl, finishExit_kept hk t autoreap, h.finishExit t autoreap⟩
    obtain ⟨hrem, hno⟩ := hflag hf
    obtain ⟨hmem, hleave⟩ := hrem.of_kept hk h.kept
    refine ((exitReservation_removed hk h.kept hmem hleave hlead.symm).and
      (exitReservation_butShare hk hmem hlead.symm)).mono ?_ fun _ _ => trivial
    exact fun s' hs' => ⟨_, _, finishExit_kept hs'.1.kept t autoreap,
      (h.left hs'.1.cpuKept hs'.2 hno).finishExit t autoreap⟩
  | stopScheduling =>
    exact (stopScheduling_ledger hk h).mono (fun _ hs => ⟨list, hs.2.imp fun _ hinv =>
      ⟨hs.1, hinv⟩⟩) fun _ h => h
  | setBinPacking scheme =>
    have hcov : PacksCovered s scheme list cl := by
      rcases hok with hlow | hhigh | hnil | ⟨hempty, hcov⟩
      · exact Or.inl hlow
      · exact Or.inr (Or.inl hhigh)
      · exact Or.inr (Or.inr (Or.inl (hk.onList.unique hnil)))
      · refine Or.inr (Or.inr (Or.inr ⟨fun cpu hlt => ?_, fun t ht => ?_⟩))
        · exact (h.kept.onCpuList cpu).unique (hempty cpu hlt)
        · exact hcov t ⟨list, hk.onList, ht⟩
    exact (setBinPacking_ledger hk h hcov).mono (fun _ hs => ⟨list, hs.2.imp fun _ hinv =>
      ⟨hs.1, hinv⟩⟩) fun _ h => h
  | startScheduling =>
    refine (startScheduling_update hk).mono (fun x hu => ⟨list, cl, hk.of_butFlag hu, ?_⟩)
      fun _ _ => trivial
    exact h.congr hu.cpuRegistry hu.cpuUtil fun _ _ u _ =>
      congrArg TaskCt.util (ButFlag.utilCt_eq (hu.task u))
  | cancelBinPacking =>
    exact ⟨list, cl, ⟨hk.ring, hk.size, hk.sorted⟩, h.congr rfl rfl fun _ _ _ _ => rfl⟩
  | fork _ _ _ => exact hok.elim

/-- "All CPU's are fully free in the beginning." -/
structure LedgerBooted (s : KState) : Prop extends Booted s where
  free : ∀ cpu < maxCpu, s.cpuUtil cpu = 1000

/-- What is left of every CPU is 1000 minus the shares of the tasks on its list, and not negative. -/
def CapacityLedger (s : KState) : Prop :=
  ∀ cpu < maxCpu, ∃ bin, OnCpuList s cpu bin ∧ s.cpuUtil cpu = utilLeft s bin ∧ 0 ≤ s.cpuUtil cpu

theorem reach_ledger (h : Reach LedgerBooted (LedgerOk e) (exec e) s) :
    ∃ list cl, Kept s list ∧ LedgerInv s cl :=
  h.inv (I := fun s => ∃ list cl, Kept s list ∧ LedgerInv s cl)
    (fun _ hs => ⟨[], _, kept_booted hs.toBooted,
      Cleared.ledgerInv ⟨cpuKept_booted hs.toBooted, hs.free⟩⟩)
    fun _ _ hs hok => exec_ledger hs hok

/-- **The ledger over a run** that keeps the shares of packed tasks. -/
theorem ledger_invariant (e : Env) {s : KState} (h : Reach LedgerBooted (LedgerOk e) (exec e) s) :
    CapacityLedger s := by
  obtain ⟨list, cl, -, hinv⟩ := reach_ledger h
  intro cpu hlt
  refine ⟨cl cpu, hinv.kept.onCpuList cpu, hinv.util cpu hlt, ?_⟩
  rw [hinv.util cpu hlt]
  exact hinv.nonneg cpu hlt

/-- A task of 100 ms in 1 s, packed. -/
theorem ledger_invariant_packed :
    ∃ s, Reach LedgerBooted (LedgerOk twoSpeeds) (exec twoSpeeds) s ∧ OnCpuList s 0 [1] ∧
      s.cpuUtil 0 = 900 ∧ CapacityLedger s := by
  have hboot : LedgerBooted (bootState [1] .noPm) := ⟨booted_bootState [1] .noPm, fun _ _ => rfl⟩
  obtain ⟨x, hx, hlist, hcpus, htest⟩ : ∃ x, exec twoSpeeds (bootState [1] .noPm) .stopScheduling =
      .ok x ∧ OnList x.1 [] ∧ (∀ cpu < maxCpu, OnCpuList x.1 cpu []) ∧
      (exec twoSpeeds x.1 (.setProcessBudget 1 100000000 ⟨1, 0⟩)).test (fun y => decide
        (OnList y.1 [1] ∧ (∀ cpu < maxCpu, OnCpuList y.1 cpu []) ∧ Covered y.1 1 ∧
          (exec twoSpeeds y.1 (.setBinPacking 0)).test
            (fun z => decide (OnCpuList z.1 0 [1] ∧ z.1.cpuUtil 0 = 900)) = true)) = true :=
    exists_ok_of_test (by decide)
  obtain ⟨y, hy, hlist', hcpus', hcov, htest⟩ := exists_ok_of_test htest
  obtain ⟨z, hz, hpacked, hutil⟩ := exists_ok_of_test htest
  have hok : LedgerOk twoSpeeds x.1 (.setProcessBudget 1 100000000 ⟨1, 0⟩) := by
    exact fun _ _ => ⟨fun _ hl => hlist.setOk_nil hl,
      fun cpu hlt h => absurd h (hcpus cpu hlt).not_holds⟩
  have hok' : LedgerOk twoSpeeds y.1 (.setBinPacking 0) := by
    refine Or.inr (Or.inr (Or.inr ⟨hcpus', fun t ht => ?_⟩))
    obtain ⟨list, hl, ht⟩ := ht
    rw [hl.unique hlist', List.mem_singleton] at ht
    rw [ht]
    exact hcov
  have hreach := (((Reach.start hboot).step trivial hx).step hok hy).step hok' hz
  exact ⟨z.1, hreach, hpacked, hutil, ledger_invariant twoSpeeds hreach⟩

/-! ### A removal -/

/-- The state, and whether `sys_stopScheduling` has been called since the last packing. -/
structure StopState where
  st : KState
  stopped : Bool

def StopState.stoppedAfter (x : StopState) : Cmd → Bool
  | .stopScheduling => true
  | .setBinPacking _ => false
  | _ => x.stopped

def StopState.exec (e : Env) (x : StopState) (c : Cmd) : Call StopState (StopState × ℤ) :=
  record (fun s _ => ⟨s, x.stoppedAfter c⟩) (fun s => ⟨s, x.stopped⟩) (RtSched.exec e x.st c)

theorem StopState.exec_ok {x : StopState} {c : Cmd} {y : KState × ℤ}
    (h : RtSched.exec e x.st c = .ok y) : x.exec e c = .ok (⟨y.1, x.stoppedAfter c⟩, y.2) := by
  rw [StopState.exec, h]
  rfl

/-- Every packing after a stop, cancellations of reserved tasks and exits of reserved leaders. -/
def LedgerCall (x : StopState) : Cmd → Prop
  | .setBinPacking _ => x.stopped = true
  | .cancelBudget pid => ∀ t ∈ x.st.findTaskByVpid pid, Holds x.st t
  | .exit t _ => (x.st.task t).tgid = t ∧ Holds x.st t
  | .cancelBinPacking | .fork _ _ _ => False
  | .setProcessBudget _ _ _ | .stopScheduling | .startScheduling => True

/-- A task of 100 ms in 1 s is packed, started and cancelled: CPU 0 has no task, and 900 left. -/
theorem ledger_stale : ¬ ∀ e x, Reach (fun x => LedgerBooted x.st ∧ x.stopped = false) LedgerCall
    (StopState.exec e) x → CapacityLedger x.st := by
  intro hall
  have hboot : LedgerBooted (bootState [1] .noPm) := ⟨booted_bootState [1] .noPm, fun _ _ => rfl⟩
  obtain ⟨v, hv, htest⟩ : ∃ v, exec twoSpeeds (bootState [1] .noPm) .stopScheduling = .ok v ∧
      (exec twoSpeeds v.1 (.setProcessBudget 1 100000000 ⟨1, 0⟩)).test (fun w => decide
        ((exec twoSpeeds w.1 (.setBinPacking 0)).test (fun x => decide
          ((exec twoSpeeds x.1 .startScheduling).test (fun y => decide
            (OnList y.1 [1] ∧ y.1.findTaskByVpid 1 = some 1 ∧
              (exec twoSpeeds y.1 (.cancelBudget 1)).test (fun z => decide
                (OnCpuList z.1 0 [] ∧ z.1.cpuUtil 0 = 900)) = true)) = true)) = true)) = true :=
    exists_ok_of_test (by decide +kernel)
  obtain ⟨w, hw, htest⟩ := exists_ok_of_test htest
  obtain ⟨x, hx, htest⟩ := exists_ok_of_test htest
  obtain ⟨y, hy, hlist, hfound, htest⟩ := exists_ok_of_test htest
  obtain ⟨z, hz, hcpu, hutil⟩ := exists_ok_of_test htest
  have hcancel : LedgerCall ⟨y.1, false⟩ (.cancelBudget 1) := by
    intro t ht
    obtain rfl := Option.some.inj (hfound.symm.trans ht)
    exact ⟨[1], hlist, List.mem_singleton_self 1⟩
  have hreach : Reach (fun x => LedgerBooted x.st ∧ x.stopped = false) LedgerCall
      (StopState.exec twoSpeeds) ⟨z.1, false⟩ := by
    have h₀ : Reach (fun x => LedgerBooted x.st ∧ x.stopped = false) LedgerCall
        (StopState.exec twoSpeeds) ⟨bootState [1] .noPm, false⟩ := .start ⟨hboot, rfl⟩
    have h₁ := h₀.step (a := Cmd.stopScheduling) trivial (StopState.exec_ok hv)
    have h₂ := h₁.step (a := Cmd.setProcessBudget 1 100000000 ⟨1, 0⟩) trivial (StopState.exec_ok hw)
    have h₃ := h₂.step (a := Cmd.setBinPacking 0) rfl (StopState.exec_ok hx)
    have h₄ := h₃.step (a := Cmd.startScheduling) trivial (StopState.exec_ok hy)
    exact h₄.step (a := Cmd.cancelBudget 1) hcancel (StopState.exec_ok hz)
  obtain ⟨bin, hbin, hleft, -⟩ := hall twoSpeeds _ hreach 0 (by decide)
  obtain rfl := hbin.unique hcpu
  have h900 : z.1.cpuUtil 0 = 1000 := hleft
  omega

end RtSched
