import RtSched.Placement

/-!
# What packing guarantees

* `binPacking_partition_iff`: a packing that reports success has put every task on exactly one CPU,
  except that next fit may have left tasks out, which it does exactly when it meets a task that all
  four CPUs refuse;
* `binPacking_safe`: at every point of a packing, each per-CPU list is in the order of the periods
  and passes `__check_admission`, as long as the periods are normalised; `binPacking_unsafe` is what
  happens to one that is not.
-/

namespace RtSched

open LinkRing TimeDemand Call

/-! ### No task is lost -/

/-- Every task of `list` is on one per-CPU list, once, and the sizes add up. -/
structure Partitioned (s : KState) (list : List Tid) : Prop where
  once : ∃ cl : ℕ → List Tid, (∀ cpu < maxCpu, OnCpuList s cpu (cl cpu)) ∧
    ∀ t ∈ list, ∃ cpu < maxCpu, (cl cpu).count t = 1 ∧ ∀ d < maxCpu, d ≠ cpu → t ∉ cl d
  sizes : ((List.range maxCpu).map s.perCpuListSize).sum = s.periodicTasksSize

/-- Next fit over the remaining tasks, from `prev` with `bins` CPUs open and `cl` on them, never
meets a task that four open CPUs refuse. -/
def NextFits (s : KState) : (ℕ → List Tid) → ℕ → ℕ → List TaskCt → Prop
  | _, _, _, [] => True
  | cl, bins, prev, c :: rem =>
      (∃ i < bins, (∀ l < i, ¬ Admits s (cl ((prev + l) % bins)) c) ∧
        Admits s (cl ((prev + i) % bins)) c ∧
        NextFits s (put s cl c.task ((prev + i) % bins)) bins ((prev + i) % bins) rem) ∨
      (∀ l < bins, ¬ Admits s (cl ((prev + l) % bins)) c) ∧ bins < maxBins ∧
        NextFits s (put s cl c.task bins) (bins + 1) bins rem

section Partition

variable {fuel scheme : ℕ} {s s' : KState} {c : TaskCt} {rem : List TaskCt} {k : Packing}
  {cl : ℕ → List Tid} {list : List Tid} {bins prev : ℕ}

theorem nextFits_fit {i : ℕ} (hi : i < bins)
    (hrefuse : ∀ l < i, ¬ Admits s (cl ((prev + l) % bins)) c)
    (hadm : Admits s (cl ((prev + i) % bins)) c) :
    NextFits s cl bins prev (c :: rem) ↔
      NextFits s (put s cl c.task ((prev + i) % bins)) bins ((prev + i) % bins) rem := by
  constructor
  · rintro (⟨j, hj, hrefuse', hadm', h⟩ | ⟨hrefuse', -, -⟩)
    · rcases lt_trichotomy i j with hij | rfl | hij
      · exact absurd hadm (hrefuse' i hij)
      · exact h
      · exact absurd hadm' (hrefuse j hij)
    · exact absurd hadm (hrefuse' i hi)
  · exact fun h => Or.inl ⟨i, hi, hrefuse, hadm, h⟩

theorem nextFits_refused (hrefuse : ∀ l < bins, ¬ Admits s (cl ((prev + l) % bins)) c) :
    NextFits s cl bins prev (c :: rem) ↔
      bins < maxBins ∧ NextFits s (put s cl c.task bins) (bins + 1) bins rem := by
  constructor
  · rintro (⟨j, hj, -, hadm, -⟩ | ⟨-, h⟩)
    · exact absurd hadm (hrefuse j hj)
    · exact h
  · exact fun h => Or.inr ⟨hrefuse, h⟩

/-- What next fit does, against the lists alone: it never gives up, it takes nothing off, and it
places all tasks exactly when `NextFits` holds. -/
structure NextFitRun (s : KState) (cl : ℕ → List Tid) (bins prev : ℕ) (rem : List TaskCt)
    (x : Packing × Bool) (cl' : ℕ → List Tid) : Prop where
  kept : CpuKept x.1.st cl'
  frame : PackFrame s x.1.st
  mono : ∀ cpu, ∀ t ∈ cl cpu, t ∈ cl' cpu
  only : ∀ cpu, ∀ t ∈ cl' cpu, t ∈ cl cpu ∨ t ∈ rem.map TaskCt.task
  low : ∀ cpu, maxBins ≤ cpu → cl' cpu = []
  all_iff : (∀ d ∈ rem, ∃ cpu, d.task ∈ cl' cpu) ↔ NextFits s cl bins prev rem

/-- A turn that places its task. -/
theorem NextFitRun.put {cpu bins' prev' : ℕ} {x : Packing × Bool} {cl' : ℕ → List Tid}
    (h : NextFitRun s (put s cl c.task cpu) bins' prev' rem x cl')
    (hiff : NextFits s cl bins prev (c :: rem) ↔
      NextFits s (RtSched.put s cl c.task cpu) bins' prev' rem) :
    NextFitRun s cl bins prev (c :: rem) x cl' := by
  refine ⟨h.kept, h.frame, fun d t ht => h.mono d t (mem_put.2 (Or.inr ht)), fun d t ht => ?_, h.low,
    ?_⟩
  · rw [List.map_cons, List.mem_cons]
    rcases h.only d t ht with ht | ht
    · rcases mem_put.1 ht with ⟨-, rfl⟩ | ht
      · exact Or.inr (Or.inl rfl)
      · exact Or.inl ht
    · exact Or.inr (Or.inr ht)
  · have hc : ∃ cpu, c.task ∈ cl' cpu := ⟨cpu, h.mono _ _ (mem_put.2 (Or.inl ⟨rfl, rfl⟩))⟩
    rw [hiff, ← h.all_iff, List.forall_mem_cons]
    exact and_iff_right hc

theorem packAll_nextFit (hf : Filled s k cl) (hp : Pending s cl rem) {x : Packing × Bool}
    (h : packAll fuel 1 rem k = .ok x) :
    ∃ cl', NextFitRun s cl k.currentBins k.prevBin rem x cl' := by
  induction rem generalizing k cl with
  | nil =>
    obtain rfl := Except.ok.inj h
    refine ⟨cl, hf.kept, hf.frame, fun _ _ ht => ht, fun _ _ ht => Or.inl ht, fun cpu hcpu => ?_, ?_⟩
    · exact hf.fresh cpu (hf.opened.max.trans hcpu)
    · simp [NextFits]
  | cons c rem ih =>
    obtain ⟨y, hone, h⟩ := bind_eq_ok.1 h
    have hno : ∀ {cpu}, checkAdmissionPerCpu fuel c.budget c.period cpu k.st = .ok false →
        ¬ Admits s (cl cpu) c := fun hcheck hadm =>
      Bool.false_ne_true ((hf.check_iff hcheck).2 hadm)
    cases packNextFit_turn hf.opened hone with
    | @fits i k' hi hrefuse hfits hplace =>
      obtain ⟨hbins, hprev⟩ := place_bins hplace
      have hlt := hf.opened.scan_lt i
      have hopened : Opened k' := ⟨by rw [hbins, hprev]; exact hlt, hbins ▸ hf.opened.max⟩
      have hf' := hf.place hp hplace rfl rfl hopened hbins.ge (hbins ▸ hlt)
      obtain ⟨cl', hrun⟩ := ih hf' (hp.put _) h
      rw [hbins, hprev] at hrun
      refine ⟨cl', hrun.put (nextFits_fit hi (fun l hl => hno (hrefuse l hl)) ?_)⟩
      exact (hf.check_iff hfits).1 rfl
    | @fresh k' hrefuse hroom hplace =>
      obtain ⟨hbins, -⟩ := place_bins hplace
      have hopened : Opened { k' with prevBin := k.currentBins } := by
        refine ⟨?_, ?_⟩
        all_goals simp only [hbins]; omega
      have hf' : Filled s { k' with prevBin := k.currentBins } (put s cl c.task k.currentBins) :=
        hf.place hp hplace rfl rfl hopened (by simp [hbins]) (by simp [hbins])
      obtain ⟨cl', hrun⟩ := ih hf' (hp.put _) h
      simp only [hbins] at hrun
      refine ⟨cl', hrun.put ?_⟩
      rw [nextFits_refused fun l hl => hno (hrefuse l hl)]
      exact and_iff_right hroom
    | leftOut hrefuse hroom =>
      have hf' : Filled s { k with prevBin := k.scan k.currentBins } cl :=
        ⟨hf.kept, hf.frame, ⟨hf.opened.scan_lt _, hf.opened.max⟩, hf.fresh⟩
      obtain ⟨cl', hrun⟩ := ih hf' hp.tail h
      refine ⟨cl', hrun.kept, hrun.frame, hrun.mono, fun d t ht => ?_, hrun.low, ?_⟩
      · rw [List.map_cons, List.mem_cons]
        exact (hrun.only d t ht).imp id Or.inr
      · -- the task is on no CPU, before and after
        rw [nextFits_refused fun l hl => hno (hrefuse l hl), List.forall_mem_cons]
        refine iff_of_false (fun hall => ?_) fun hfits => hroom hfits.1
        obtain ⟨cpu, hmem⟩ := hall.1
        rcases hrun.only cpu _ hmem with hmem | hmem
        · exact hp.off c List.mem_cons_self cpu hmem
        · exact (List.nodup_cons.1 hp.nodup).1 hmem

/-- Lists that hold the tasks of `list`, and only those, partition it. -/
theorem partitioned_of_all (hk : CpuKept s' cl) (hsize : s'.periodicTasksSize = list.length)
    (hnodup : list.Nodup) (honly : ∀ cpu, ∀ t ∈ cl cpu, t ∈ list)
    (hlow : ∀ cpu, maxBins ≤ cpu → cl cpu = []) (hall : ∀ t ∈ list, ∃ cpu, t ∈ cl cpu) :
    Partitioned s' list := by
  have hlt : ∀ {cpu t}, t ∈ cl cpu → cpu < maxCpu := by
    intro cpu t ht
    by_contra hle
    rw [hlow cpu (not_lt.1 hle)] at ht
    cases ht
  refine ⟨⟨cl, fun cpu _ => hk.onCpuList cpu, fun t ht => ?_⟩, ?_⟩
  · obtain ⟨cpu, hmem⟩ := hall t ht
    exact ⟨cpu, hlt hmem, List.count_eq_one_of_mem (hk.nodup cpu) hmem,
      fun d _ hd => hk.disjoint cpu d hd.symm t hmem⟩
  · -- the lists of the four CPUs, one after the other, are a permutation of the global one
    have hperm : ((List.range maxCpu).flatMap cl).Perm list := by
      refine (List.perm_ext_iff_of_nodup ?_ hnodup).2 fun t => ?_
      · refine List.nodup_flatMap.2 ⟨fun cpu _ => hk.nodup cpu, ?_⟩
        refine List.Pairwise.imp (fun {a b} hab t hta htb => ?_) (List.nodup_range (n := maxCpu))
        exact hk.disjoint a b hab t hta htb
      · rw [List.mem_flatMap]
        constructor
        · rintro ⟨cpu, -, hmem⟩
          exact honly cpu t hmem
        · intro ht
          obtain ⟨cpu, hmem⟩ := hall t ht
          exact ⟨cpu, List.mem_range.2 (hlt hmem), hmem⟩
    rw [hsize, ← hperm.length_eq, List.length_flatMap, funext hk.size]

/-- Every task is still to be packed or on one of the four CPUs, which have no others. -/
structure Spread (list : List Tid) (rem : List TaskCt) (cl : ℕ → List Tid) : Prop where
  all : ∀ t ∈ list, t ∈ rem.map TaskCt.task ∨ ∃ cpu, t ∈ cl cpu
  pending : ∀ d ∈ rem, d.task ∈ list
  only : ∀ cpu, ∀ t ∈ cl cpu, t ∈ list
  low : ∀ cpu, maxBins ≤ cpu → cl cpu = []

theorem spread_start (s : KState) (list : List Tid) :
    Spread list (utilOrder s list) fun _ => [] := by
  have hperm := utilOrder_tasks s list
  refine ⟨fun t ht => Or.inl (hperm.mem_iff.2 ht), fun d hd => ?_, fun _ _ ht => (by cases ht),
    fun _ _ => rfl⟩
  exact hperm.mem_iff.1 (List.mem_map_of_mem hd)

theorem Spread.put (h : Spread list (c :: rem) cl) {cpu : ℕ} (hcpu : cpu < maxBins) :
    Spread list rem (put s cl c.task cpu) := by
  refine ⟨fun t ht => ?_, fun d hd => h.pending d (List.mem_cons_of_mem _ hd), fun d t ht => ?_,
    fun d hd => ?_⟩
  · rcases h.all t ht with hmem | ⟨d, hmem⟩
    · rcases List.mem_cons.1 hmem with rfl | hmem
      · exact Or.inr ⟨cpu, mem_put.2 (Or.inl ⟨rfl, rfl⟩)⟩
      · exact Or.inl hmem
    · exact Or.inr ⟨d, mem_put.2 (Or.inr hmem)⟩
  · rcases mem_put.1 ht with ⟨-, rfl⟩ | ht
    · exact h.pending c List.mem_cons_self
    · exact h.only d t ht
  · show Function.update cl cpu _ d = []
    rw [Function.update_of_ne (by omega)]
    exact h.low d hd

/-- A successful packing under any scheme but next fit has placed all tasks. -/
theorem packAll_places (hscheme : scheme ≤ 4) (hne : scheme ≠ 1) (hk : Kept s list)
    (hc : CpuKept s fun _ => []) {x : Packing × Bool}
    (h : packAll fuel scheme (utilOrder s list) (packStart scheme s) = .ok x) (hx : x.2 = true) :
    ∃ cl, CpuKept x.1.st cl ∧ PackFrame s x.1.st ∧ Spread list [] cl := by
  obtain ⟨rem, cl, hkept, hframe, hspread, hrem⟩ := packAll_rule (J := Spread list)
    (fun _ _ _ _ _ hJ hcpu _ => hJ.put hcpu) (fun h1 => absurd h1 hne) hscheme
    (filled_start hc scheme) (pending_start hk) (spread_start s list) h
  rw [hrem hx] at hspread
  exact ⟨cl, hkept, hframe, hspread⟩

end Partition

/-- A reservation made without frequency scaling, with a budget below its period.  The microseconds are
unbounded here; they are those of the target for periods below `2 ^ 31` microseconds. -/
structure Unscaled (p : TaskStruct) : Prop where
  budget : p.budgetTime = p.minBudgetTime
  pos : 0 < convertToUsecs p.minBudgetTime
  lt : convertToUsecs p.minBudgetTime < convertToUsecs p.timePeriod

instance (p : TaskStruct) : Decidable (Unscaled p) :=
  decidable_of_iff (p.budgetTime = p.minBudgetTime ∧ 0 < convertToUsecs p.minBudgetTime ∧
      convertToUsecs p.minBudgetTime < convertToUsecs p.timePeriod)
    ⟨fun ⟨h1, h2, h3⟩ => ⟨h1, h2, h3⟩, fun ⟨h1, h2, h3⟩ => ⟨h1, h2, h3⟩⟩

/-- Tasks `1, …, n` on the list, reserved in bin-packing mode. -/
def listed (n : ℕ) (budget period : Tid → Timespec) : KState :=
  { bootState ((List.range n).map Nat.succ) .noPm with
    task := fun t => { newTask t with
      timePeriod := period t, minBudgetTime := budget t, budgetTime := budget t }
    periodicTasksSize := n
    links := fun
      | .head => ⟨.node (.entry 1), .node (.entry n)⟩
      | .entry t => ⟨.node (if t < n then .entry (t + 1) else .head),
          .node (if t = 1 then .head else .entry (t - 1))⟩
    isBinPackingSet := true }

theorem cpuKept_listed (n : ℕ) (budget period : Tid → Timespec) :
    CpuKept (listed n budget period) fun _ => [] :=
  ⟨fun _ => Or.inr ⟨rfl, rfl⟩, fun _ => rfl, fun _ _ _ _ ht => nomatch ht⟩

/-- A state that `bin_packing` goes through: some of the tasks have been dealt with. -/
def PackingState (fuel scheme : ℕ) (s s' : KState) : Prop :=
  ∃ arr n x, sortPeriodicTasklist fuel s = .ok arr ∧
    packAll fuel scheme (arr.take n) (packStart scheme s) = .ok x ∧ x.1.st = s'

/-- Every per-CPU list is in the order of the periods and passes `__check_admission` in it. -/
def SafeCpus (s : KState) : Prop :=
  ∀ cpu, ∃ l, OnCpuList s cpu l ∧ ByPeriod s.periods l ∧ Passes (l.map (cpuCtOf s))

/-- A reservation made in bin-packing mode whose period is what the target takes it for: a valid
`struct timespec` (`timespec_valid`) of less than `2 ^ 31` microseconds. -/
structure Reservation (p : TaskStruct) : Prop extends Unscaled p where
  valid : p.timePeriod.Normalised
  small : convertToUsecs p.timePeriod < 2 ^ 31

/-- What the tasks of each CPU have. -/
structure SafeBins (s : KState) (rem : List TaskCt) (cl : ℕ → List Tid) : Prop where
  pending : ∀ d ∈ rem, Reservation (s.task d.task)
  reserved : ∀ cpu, ∀ t ∈ cl cpu, Reservation (s.task t)
  sorted : ∀ cpu, ByPeriod s.periods (cl cpu)
  feasible : ∀ cpu, FeasibleList s (cl cpu)

section Safe

variable {fuel scheme : ℕ} {s s' : KState} {c : TaskCt} {rem : List TaskCt} {cl : ℕ → List Tid}
  {list : List Tid}

theorem Reservation.stored {p : TaskStruct} (h : Reservation p) : Stored p := by
  have hpos := h.pos
  have hlt := h.lt
  exact ⟨h.valid, by omega, hpos.le⟩

theorem map_cpuCtOf (h : ∀ t ∈ list, Reservation (s.task t)) :
    list.map (cpuCtOf s) = listCts s list := by
  refine List.map_congr_left fun t ht => ?_
  rw [cpuCtOf, ctOf, (h t ht).budget]

theorem SafeBins.stored (h : SafeBins s rem cl) (cpu : ℕ) : ∀ t ∈ cl cpu, Stored (s.task t) :=
  fun t ht => (h.reserved cpu t ht).stored

/-- A CPU with an admitted task more is feasible; a single task always is. -/
theorem SafeBins.feasible_put (h : SafeBins s (c :: rem) cl) (hentry : c = utilCt s c.task) {cpu : ℕ}
    (hadm : Admits s (cl cpu) c ∨ cl cpu = []) :
    FeasibleList s (insertByPeriod s.periods c.task (cl cpu)) := by
  have hc := h.pending c List.mem_cons_self
  have hst := hc.stored
  have hperm : (listCts s (insertByPeriod s.periods c.task (cl cpu))).Perm
      (ctOf s c.task :: listCts s (cl cpu)) := insertByPeriod_perm.map (ctOf s)
  rw [FeasibleList, Multiset.coe_eq_coe.2 hperm, ← Multiset.cons_coe]
  by_cases hnil : cl cpu = []
  · rw [hnil]
    exact feasible_singleton hst.period hc.lt.le
  · have hpass : Passes (insertCt (ctOf s c.task) (listCts s (cl cpu))) := by
      have := hadm.resolve_right hnil
      rw [Admits, if_neg hnil, map_cpuCtOf (h.reserved cpu), hentry] at this
      exact this
    exact (passes_insertCt ⟨hst.budget, hst.period⟩ (wfCts_listCts (h.stored cpu))
      (listCts_sorted (h.sorted cpu) (h.stored cpu))).1 hpass

theorem SafeBins.put (h : SafeBins s (c :: rem) cl) (hentry : c = utilCt s c.task) {cpu : ℕ}
    (hadm : Admits s (cl cpu) c ∨ cl cpu = []) : SafeBins s rem (put s cl c.task cpu) := by
  have hupd : ∀ {P : List Tid → Prop}, (∀ d, P (cl d)) →
      P (insertByPeriod s.periods c.task (cl cpu)) → ∀ d, P (RtSched.put s cl c.task cpu d) := by
    intro P hold hnew d
    by_cases hd : d = cpu
    · rw [RtSched.put, hd, Function.update_self]
      exact hnew
    · rw [RtSched.put, Function.update_of_ne hd]
      exact hold d
  refine ⟨fun d hd => h.pending d (List.mem_cons_of_mem _ hd), fun d t ht => ?_,
    hupd h.sorted (byPeriod_insert (h.sorted cpu)), hupd h.feasible (h.feasible_put hentry hadm)⟩
  rcases mem_put.1 ht with ⟨-, rfl⟩ | ht
  · exact h.pending c List.mem_cons_self
  · exact h.reserved d t ht

theorem Pending.take (hp : Pending s cl rem) (n : ℕ) : Pending s cl (rem.take n) :=
  ⟨fun d hd => hp.entry d (List.mem_of_mem_take hd),
    fun d hd => hp.off d (List.mem_of_mem_take hd),
    hp.nodup.sublist ((List.take_sublist n rem).map _)⟩

/-- The lists after any number of tasks. -/
theorem packAll_safe (hk : Kept s list) (hc : CpuKept s fun _ => [])
    (hres : ∀ t ∈ list, Reservation (s.task t)) (hscheme : scheme ≤ 4) {n : ℕ} {x : Packing × Bool}
    (h : packAll fuel scheme ((utilOrder s list).take n) (packStart scheme s) = .ok x) :
    SafeCpus x.1.st := by
  have hstart : SafeBins s ((utilOrder s list).take n) fun _ => [] := by
    refine ⟨fun d hd => ?_, by simp, fun _ => List.Pairwise.nil, fun _ a ha => ?_⟩
    · obtain ⟨t, ht, rfl⟩ := mem_utilOrder.1 (List.mem_of_mem_take hd)
      exact hres t ht
    · exact absurd ha (Multiset.notMem_zero a)
  obtain ⟨rem, cl, hkept, hframe, hsafe, -⟩ := packAll_rule (J := SafeBins s)
    (fun c _ _ _ hp hJ _ hadm => hJ.put (hp.entry c List.mem_cons_self) hadm)
    (fun _ _ _ _ hJ _ => ⟨fun d hd => hJ.pending d (List.mem_cons_of_mem _ hd), hJ.reserved,
      hJ.sorted, hJ.feasible⟩)
    hscheme (filled_start hc scheme) ((pending_start hk).take n) hstart h
  intro cpu
  refine ⟨cl cpu, hkept.onCpuList cpu, ?_, ?_⟩
  · rw [hframe.periods]
    exact hsafe.sorted cpu
  · rw [hframe.cpuCtOf_eq, map_cpuCtOf (hsafe.reserved cpu),
      passes_listCts (hsafe.sorted cpu) (hsafe.stored cpu)]
    exact hsafe.feasible cpu

/-- **Every CPU stays feasible.**  At every point of a packing, and after it, each per-CPU list is
sorted by period and passes the test. -/
theorem binPacking_safe {fuel scheme : ℕ} {s s' : KState} {list : List Tid} (hk : Kept s list)
    (hc : CpuKept s fun _ => []) (hres : ∀ t ∈ list, Reservation (s.task t)) (hscheme : scheme ≤ 4)
    (h : PackingState fuel scheme s s' ∨ ∃ bins, binPacking fuel scheme s = .ok (s', bins)) :
    SafeCpus s' := by
  have hempty : packAll fuel scheme ((utilOrder s list).take 0) (packStart scheme s) =
      .ok (packStart scheme s, true) := rfl
  rcases h with ⟨arr, n, x, hsort, hx, rfl⟩ | ⟨bins, h⟩
  · rw [sortPeriodicTasklist_eq hk hsort] at hx
    exact packAll_safe hk hc hres hscheme hx
  · by_cases hne : list = []
    · subst hne
      rw [binPacking_empty hk] at h
      obtain ⟨rfl, -⟩ := Prod.mk.inj (Except.ok.inj h)
      exact packAll_safe hk hc hres hscheme hempty
    · obtain ⟨x, hx, hy⟩ := binPacking_eq_ok hk hne h
      obtain ⟨rfl, -⟩ := Prod.mk.inj hy
      rw [← List.take_length (l := utilOrder s list)] at hx
      exact packAll_safe hk hc hres hscheme hx

/-- Three tasks of 300 ms in 1 s, by worst fit over four CPUs. -/
theorem binPacking_safe_three :
    ∃ s' bins, binPacking 20 4 (listed 3 (fun _ => ⟨0, 300000000⟩) fun _ => ⟨1, 0⟩) =
      .ok (s', bins) ∧ SafeCpus s' := by
  obtain ⟨⟨s', bins⟩, h, -⟩ : ∃ y,
      binPacking 20 4 (listed 3 (fun _ => ⟨0, 300000000⟩) fun _ => ⟨1, 0⟩) = .ok y ∧ True :=
    exists_ok_of_test (by decide)
  have hk : Kept (listed 3 (fun _ => ⟨0, 300000000⟩) fun _ => ⟨1, 0⟩) [1, 2, 3] := by decide
  have hres : ∀ t ∈ [1, 2, 3], Unscaled
      ((listed 3 (fun _ => ⟨0, 300000000⟩) fun _ => ⟨1, 0⟩).task t) := by decide
  have hvalid : (⟨1, 0⟩ : Timespec).Normalised := by decide
  have hsmall : convertToUsecs ⟨1, 0⟩ < 2 ^ 31 := by decide
  exact ⟨s', bins, h, binPacking_safe hk (cpuKept_listed _ _ _)
    (fun t ht => ⟨hres t ht, hvalid, hsmall⟩) (by decide) (Or.inr ⟨bins, h⟩)⟩

/-- 900 ms in `{0 s, 2000000000 ns}`, which `sys_setProcessBudget` accepts, and 500 ms in 1 s.  By
their seconds the longer period comes first; the test of the CPU had them the other way round. -/
theorem binPacking_unsafe :
    ¬ ∀ (fuel scheme : ℕ) (s s' : KState) (list : List Tid) (bins : ℕ), Kept s list →
      CpuKept s (fun _ => []) →
      (∀ t ∈ list, Unscaled (s.task t) ∧ (s.task t).timePeriod.isSet = true ∧
        timespecCompare (s.task t).minBudgetTime (s.task t).timePeriod < 0 ∧
        convertToUsecs (s.task t).timePeriod < 2 ^ 31) → scheme ≤ 4 →
      binPacking fuel scheme s = .ok (s', bins) → SafeCpus s' := by
  intro hall
  let mixed : KState := listed 2 (fun t => if t = 1 then ⟨0, 900000000⟩ else ⟨0, 500000000⟩)
    fun t => if t = 1 then ⟨0, 2000000000⟩ else ⟨1, 0⟩
  obtain ⟨⟨s', bins⟩, h, hlist, hcts⟩ : ∃ y, binPacking 20 0 mixed = .ok y ∧
      OnCpuList y.1 0 [1, 2] ∧
      [1, 2].map (cpuCtOf y.1) = [⟨900000, 2000000, 0, 0⟩, ⟨500000, 1000000, 0, 0⟩] :=
    exists_ok_of_test (by decide)
  have hk : Kept mixed [1, 2] := by decide
  obtain ⟨l, hl, -, hpass⟩ :=
    hall 20 0 mixed s' [1, 2] bins hk (cpuKept_listed _ _ _) (by decide) (by decide) h 0
  have hrefused : checkAdmissionList 20 [⟨900000, 2000000, 0, 0⟩, ⟨500000, 1000000, 0, 0⟩] 2 =
      some false := by decide
  rw [hl.unique hlist, hcts] at hpass
  exact Bool.noConfusion ((checkAdmissionList_passes hrefused).2 hpass)

end Safe

end RtSched
