import RtSched.Leader

/-!
# Admitted sets over whole runs

The set that `check_admission` tests is not the list that is stored afterwards: the new task stands
before equal periods in the array and behind them on the list, the array is ordered by microseconds,
and a replaced reservation is still counted.  All of this is invisible to the feasibility of the set
as a multiset (`passes_iff_feasible`), and removals only help (`Feasible.mono`); so the stored list
passes the test after every call (`admission_invariant`).
-/

namespace RtSched

open Call TimeDemand

variable {e : Env} {s s' : KState} {list : List Tid} {t u : Tid}

/-- A stored reservation: a normalised period of at least a microsecond, and a budget. -/
structure Stored (p : TaskStruct) : Prop where
  normalised : p.timePeriod.Normalised
  period : 1 ≤ convertToUsecs p.timePeriod
  budget : 0 ≤ convertToUsecs p.minBudgetTime

theorem Stored.congr {p q : TaskStruct} (h : Stored p) (hper : q.timePeriod = p.timePeriod)
    (hmin : q.minBudgetTime = p.minBudgetTime) : Stored q :=
  ⟨hper ▸ h.normalised, hper ▸ h.period, hmin ▸ h.budget⟩

/-- The array of the listed tasks. -/
def listCts (s : KState) (list : List Tid) : List TaskCt := list.map (ctOf s)

/-- The reservations of `list` are feasible together. -/
def FeasibleList (s : KState) (list : List Tid) : Prop :=
  Feasible TaskCt.budget TaskCt.period (↑(listCts s list) : Multiset TaskCt)

theorem wfCts_listCts (h : ∀ t ∈ list, Stored (s.task t)) : WfCts (listCts s list) := by
  intro c hc
  obtain ⟨t, ht, rfl⟩ := List.mem_map.1 hc
  exact ⟨(h t ht).budget, (h t ht).period⟩

/-- The order of the list is that of the microseconds. -/
theorem listCts_sorted (hs : ByPeriod s.periods list) (h : ∀ t ∈ list, Stored (s.task t)) :
    (listCts s list).Pairwise fun a b => a.period ≤ b.period := by
  rw [listCts, List.pairwise_map]
  refine List.Pairwise.imp_of_mem (fun {a b} ha hb hab => ?_) hs
  exact convertToUsecs_mono (h a ha).normalised (h b hb).normalised hab

theorem passes_listCts (hs : ByPeriod s.periods list) (h : ∀ t ∈ list, Stored (s.task t)) :
    Passes (listCts s list) ↔ FeasibleList s list :=
  passes_iff_feasible (wfCts_listCts h) (listCts_sorted hs h)

theorem insertCt_sorted {c : TaskCt} {cts : List TaskCt}
    (h : cts.Pairwise fun a b => a.period ≤ b.period) :
    (insertCt c cts).Pairwise fun a b => a.period ≤ b.period := by
  have : Std.Total fun a b : TaskCt => a.period ≤ b.period := ⟨fun a b => le_total _ _⟩
  have : IsTrans TaskCt fun a b => a.period ≤ b.period := ⟨fun a b c => le_trans⟩
  exact List.Pairwise.orderedInsert c cts h

theorem insertCt_perm {c : TaskCt} {cts : List TaskCt} : (insertCt c cts).Perm (c :: cts) :=
  List.perm_orderedInsert _ _ _

theorem wfCts_insertCt {c : TaskCt} {cts : List TaskCt} (hc : 0 ≤ c.budget ∧ 1 ≤ c.period)
    (hw : WfCts cts) : WfCts (insertCt c cts) := by
  intro d hd
  rcases List.mem_cons.1 (insertCt_perm.mem_iff.1 hd) with rfl | hd
  · exact hc
  · exact hw d hd

/-- The test with a new task is the feasibility of both together. -/
theorem passes_insertCt {c : TaskCt} {cts : List TaskCt} (hc : 0 ≤ c.budget ∧ 1 ≤ c.period)
    (hw : WfCts cts) (hs : cts.Pairwise fun a b => a.period ≤ b.period) :
    Passes (insertCt c cts) ↔
      Feasible TaskCt.budget TaskCt.period (c ::ₘ (↑cts : Multiset TaskCt)) := by
  rw [passes_iff_feasible (wfCts_insertCt hc hw) (insertCt_sorted hs), Multiset.cons_coe,
    Multiset.coe_eq_coe.2 insertCt_perm]

/-- A single reservation below its period is feasible. -/
theorem feasible_singleton {c : TaskCt} (hp : 1 ≤ c.period) (hle : c.budget ≤ c.period) :
    Feasible TaskCt.budget TaskCt.period {c} := by
  intro a ha
  obtain rfl := Multiset.mem_singleton.1 ha
  refine ⟨a.period, by omega, le_rfl, ?_⟩
  rw [Multiset.filter_singleton, if_pos le_rfl, ← Multiset.cons_zero, demand_cons, demand_zero,
    ceil_eq_one (by omega) le_rfl]
  omega

/-- What `check_admission` accepts is feasible together with the list it was tested against. -/
theorem feasible_of_admitted {b p : Timespec} (hk : Kept s list)
    (h : ∀ t ∈ list, Stored (s.task t)) (hb : 0 ≤ convertToUsecs b) (hp : 1 ≤ convertToUsecs p)
    (hle : convertToUsecs b ≤ convertToUsecs p) (hadm : Admitted s list b p) :
    Feasible TaskCt.budget TaskCt.period
      ({ budget := convertToUsecs b, period := convertToUsecs p } ::ₘ
        (↑(listCts s list) : Multiset TaskCt)) := by
  rcases hadm with rfl | hpass
  · exact feasible_singleton hp hle
  · exact (passes_insertCt ⟨hb, hp⟩ (wfCts_listCts h) (listCts_sorted hk.sorted h)).1 hpass

/-- What the test accepts, the rest of the list and the new reservation bear as well. -/
theorem feasible_erase {c : TaskCt} (hc : 0 ≤ c.budget ∧ 1 ≤ c.period)
    (h : ∀ t ∈ list, Stored (s.task t))
    (hfeas : Feasible TaskCt.budget TaskCt.period (c ::ₘ (↑(listCts s list) : Multiset TaskCt))) :
    Feasible TaskCt.budget TaskCt.period
      (c ::ₘ (↑(listCts s (list.erase t)) : Multiset TaskCt)) := by
  have hw := wfCts_listCts h
  refine hfeas.mono (Multiset.cons_le_cons _ ?_) (fun d hd => ?_) fun d hd => ?_
  · exact Multiset.coe_le.2 (List.Sublist.subperm (List.erase_sublist.map _))
  · rcases Multiset.mem_cons.1 hd with rfl | hd
    · exact hc.1
    · exact hw.cost d hd
  · rcases Multiset.mem_cons.1 hd with rfl | hd
    · exact hc.2
    · exact hw.period d hd

section Written

variable {b p : Timespec} (hk : Kept s list)
  (hper : ∀ u, (s'.task u).timePeriod = if u = t then p else (s.task u).timePeriod)
  (hmin : ∀ u, (s'.task u).minBudgetTime = if u = t then b else (s.task u).minBudgetTime)

include hk hper hmin

/-- With the new reservation written, everything on the list is stored. -/
theorem stored_reserved (h : ∀ t ∈ list, Stored (s.task t)) (hp : p.Normalised)
    (hp1 : 1 ≤ convertToUsecs p) (hb : 0 ≤ convertToUsecs b) :
    ∀ u ∈ reservedList s t p list, Stored (s'.task u) := by
  intro u hu
  rcases mem_reservedList.1 hu with rfl | hu
  · refine ⟨?_, ?_, ?_⟩ <;> simp only [hper, hmin, if_true] <;> assumption
  · have hne := hk.ne_of_mem_erase hu
    refine (h u (List.mem_of_mem_erase hu)).congr ?_ ?_
    · rw [hper, if_neg hne]
    · rw [hmin, if_neg hne]

/-- The array of the new list: the new reservation and the rest of the old list. -/
theorem listCts_reserved : (listCts s' (reservedList s t p list)).Perm
    ({ budget := convertToUsecs b, period := convertToUsecs p } :: listCts s (list.erase t)) := by
  have hnew : ctOf s' t = { budget := convertToUsecs b, period := convertToUsecs p } := by
    simp [ctOf, hper, hmin]
  have hold : listCts s' (list.erase t) = listCts s (list.erase t) :=
    List.map_congr_left fun u hu => by
      rw [ctOf, ctOf, hper, hmin, if_neg (hk.ne_of_mem_erase hu), if_neg (hk.ne_of_mem_erase hu)]
  rw [← hold, ← hnew]
  exact insertByPeriod_perm.map (ctOf s')

end Written

section Accepted

variable {b p : Timespec} (hk : Kept s list) (h : ∀ t ∈ list, Stored (s.task t))
  (hr : Reserved t b p s s') (hp1 : 1 ≤ convertToUsecs p) (hb : 0 ≤ convertToUsecs b)

include hk h hr hp1 hb

theorem Reserved.stored (hp : p.Normalised) : ∀ u ∈ reservedList s t p list, Stored (s'.task u) :=
  stored_reserved hk hr.timePeriod hr.minBudgetTime h hp hp1 hb

/-- An accepted reservation keeps the list feasible. -/
theorem Reserved.feasible (hle : convertToUsecs b ≤ convertToUsecs p) (hadm : Admitted s list b p) :
    FeasibleList s' (reservedList s t p list) := by
  have hcts := listCts_reserved hk hr.timePeriod hr.minBudgetTime
  -- the test was passed with the whole old list, of which the new one has at most as much
  have hfeas := feasible_of_admitted hk h hb hp1 hle hadm
  rw [FeasibleList, Multiset.coe_eq_coe.2 hcts, ← Multiset.cons_coe]
  exact feasible_erase ⟨hb, hp1⟩ h hfeas

end Accepted

/-! ### The invariant -/

/-- What holds of the list after every call. -/
structure AdmInv (s : KState) (list : List Tid) : Prop where
  inv : LeaderInv s list
  stored : ∀ t ∈ list, Stored (s.task t)
  feasible : FeasibleList s list

/-- The array of a list depends on the periods and budgets of its tasks only. -/
theorem listCts_congr (h : ∀ t ∈ list, (s'.task t).timePeriod = (s.task t).timePeriod ∧
    (s'.task t).minBudgetTime = (s.task t).minBudgetTime) : listCts s' list = listCts s list := by
  refine List.map_congr_left fun t ht => ?_
  rw [ctOf, ctOf, (h t ht).1, (h t ht).2]

/-- A part of a feasible list is feasible. -/
theorem FeasibleList.sublist (h : FeasibleList s list) (hst : ∀ t ∈ list, Stored (s.task t))
    {list' : List Tid} (hsub : list'.Sublist list) (hsame : ∀ u ∈ list', (s'.task u).timePeriod =
      (s.task u).timePeriod ∧ (s'.task u).minBudgetTime = (s.task u).minBudgetTime) :
    FeasibleList s' list' := by
  have hw := wfCts_listCts hst
  rw [FeasibleList, listCts_congr hsame]
  refine Feasible.mono h ?_ hw.cost hw.period
  exact Multiset.coe_le.2 (List.Sublist.subperm (hsub.map _))

/-- Removals, and whatever leaves the periods and budgets alone, keep the list feasible. -/
theorem AdmInv.sublist (h : AdmInv s list) {list' : List Tid} (hsub : list'.Sublist list)
    (hinv : LeaderInv s' list') (hsame : ∀ u ∈ list', (s'.task u).timePeriod =
      (s.task u).timePeriod ∧ (s'.task u).minBudgetTime = (s.task u).minBudgetTime) :
    AdmInv s' list' := by
  refine ⟨hinv, fun u hu => ?_, h.feasible.sublist h.stored hsub hsame⟩
  obtain ⟨hper, hmin⟩ := hsame u hu
  exact (h.stored u (hsub.subset hu)).congr hper hmin

theorem AdmInv.of_quiet (h : AdmInv s list) (hq : Quiet s s') : AdmInv s' list :=
  h.sublist (List.Sublist.refl list) (h.inv.of_quiet hq) fun t _ =>
    have hreg := registry_task hq.registry t
    ⟨hreg.timePeriod, congrArg TaskReg.minBudgetTime hreg⟩

theorem AdmInv.finishExit (h : AdmInv s list) (t : Tid) (autoreap : Bool) :
    AdmInv (finishExit t autoreap s) list := by
  have he := ended_finishExit t autoreap s
  exact h.sublist (List.Sublist.refl list) (h.inv.finishExit t autoreap) fun u _ =>
    ⟨he.timePeriod u, he.minBudgetTime u⟩

theorem AdmInv.reserved (h : AdmInv s list) {b p : Timespec}
    (hinv : LeaderInv s' (reservedList s t p list)) (hr : Reserved t b p s s') (hp : p.Normalised)
    (hp1 : 1 ≤ convertToUsecs p) (hb : 0 ≤ convertToUsecs b)
    (hle : convertToUsecs b ≤ convertToUsecs p) (hadm : Admitted s list b p) :
    AdmInv s' (reservedList s t p list) :=
  ⟨hinv, hr.stored h.inv.kept h.stored hp1 hb hp,
    hr.feasible h.inv.kept h.stored hp1 hb hle hadm⟩

/-! ### Runs -/

/-- Reservations of processes with normalised periods of at least a microsecond, cancellations of
reserved processes, and exits of reserved leaders. -/
def AdmissionOk (s : KState) : Cmd → Prop
  | .setProcessBudget pid _ p => p.Normalised ∧ 1 ≤ convertToUsecs p ∧
      ∀ t ∈ s.findTaskByVpid pid, (s.task t).tgid = t
  | .cancelBudget pid => ∀ t ∈ s.findTaskByVpid pid, Holds s t
  | .exit t _ => (s.task t).tgid = t ∧ Holds s t
  | _ => False

theorem usecs_taskBudgetOf (e : Env) (budget : ℕ) :
    convertToUsecs (taskBudgetOf e budget) = (budget / e.maxFrequency : ℕ) := by
  rw [taskBudgetOf, convertToUsecs_eq (nsToTimespec_normalised (by positivity)),
    timespecToNs_nsToTimespec, Nat.cast_mul]
  exact Int.mul_ediv_cancel _ (by norm_num)

theorem convertToUsecs_taskBudgetOf (e : Env) (budget : ℕ) :
    0 ≤ convertToUsecs (taskBudgetOf e budget) := by
  rw [usecs_taskBudgetOf]
  positivity

/-- What passes the check of the arguments is below the period in microseconds as well. -/
theorem taskBudgetOf_le {budget : ℕ} {p : Timespec} (hp : p.Normalised)
    (hlt : timespecCompare (taskBudgetOf e budget) p < 0) :
    convertToUsecs (taskBudgetOf e budget) ≤ convertToUsecs p :=
  convertToUsecs_mono (nsToTimespec_normalised (by positivity)) hp hlt.le

/-- One call keeps the list feasible. -/
theorem exec_admInv (h : ∃ list, AdmInv s list) {c : Cmd} (hok : AdmissionOk s c) :
    Sat (fun x => ∃ list, AdmInv x.1 list) (fun _ => True) (exec e s c) := by
  obtain ⟨list, h⟩ := h
  have hk := h.inv.kept
  cases c with
  | setProcessBudget pid budget p =>
    obtain ⟨hp, hp1, hlead⟩ := hok
    refine setProcessBudget_leader (Q := fun s' => ∃ list, AdmInv s' list) h.inv hlead ⟨list, h⟩ ?_
    intro t ht hlt hadm s₁ s' hinv hr hl
    have h₁ := h.reserved hinv hr hp hp1 (convertToUsecs_taskBudgetOf e budget)
      (taskBudgetOf_le hp hlt) hadm
    exact ⟨_, h₁.of_quiet hl.update.quiet_of_numbered⟩
  | cancelBudget pid =>
    refine cancelBudget_leader (Q := fun s' => ∃ list, AdmInv s' list) h.inv
      (fun t ht => Or.inl (hk.mem_of_holds (hok t ht))) ⟨list, h⟩ ?_
    intro t ht s₁ s' hinv hu hup _ _
    have h₁ := h.sublist List.erase_sublist hinv (hu.keeps hk)
    exact ⟨_, h₁.of_quiet hup.quiet_of_numbered⟩
  | exit t autoreap =>
    obtain ⟨hlead, -⟩ := hok
    refine doExit_leader (Q := fun s' => ∃ list, AdmInv s' list) h.inv
      (fun _ => ⟨list, h.finishExit t autoreap⟩) (fun hne => absurd hlead.symm hne) ?_
    intro hmem s₁ s' hinv hd hup _ _
    have h₁ := h.sublist List.erase_sublist hinv fun u _ => hd.keeps u
    exact ⟨_, (h₁.of_quiet hup.quiet_of_numbered).finishExit t autoreap⟩
  | _ => exact hok.elim

theorem admInv_booted (h : Booted s) : AdmInv s [] :=
  ⟨leaderInv_booted h, by simp, by intro a ha; exact absurd ha (Multiset.notMem_zero a)⟩

/-- **What is stored passes the test.**  After any sequence of reservations, cancellations and exits
the list, read in its own order, passes `__check_admission` or is empty. -/
theorem admission_invariant (e : Env) {s : KState} (h : Reach Booted AdmissionOk (exec e) s) :
    ∃ list, OnList s list ∧ (list = [] ∨ Passes (list.map (ctOf s))) := by
  obtain ⟨list, hinv⟩ := h.inv (I := fun s => ∃ list, AdmInv s list)
    (fun _ hs => ⟨[], admInv_booted hs⟩) fun _ _ hs hok => exec_admInv hs hok
  have hk := hinv.inv.kept
  exact ⟨list, hk.onList, Or.inr ((passes_listCts hk.sorted hinv.stored).2 hinv.feasible)⟩

/-- Two processes with 100 ms in 1 s and 900 ms in 2 s. -/
theorem admission_invariant_pair :
    ∃ s, Reach Booted AdmissionOk (exec twoSpeeds) s ∧ s.periodicTasksSize = 2 ∧
      ∃ list, OnList s list ∧ (list = [] ∨ Passes (list.map (ctOf s))) := by
  have hboot := booted_bootState [1, 2] .sysClock
  have hok : AdmissionOk (bootState [1, 2] .sysClock) (.setProcessBudget 1 100000000 ⟨1, 0⟩) :=
    ⟨by decide, by decide, by decide⟩
  obtain ⟨x, hx, hlead, htest⟩ : ∃ x, exec twoSpeeds (bootState [1, 2] .sysClock)
      (.setProcessBudget 1 100000000 ⟨1, 0⟩) = .ok x ∧
      (∀ t ∈ x.1.findTaskByVpid 2, (x.1.task t).tgid = t) ∧
      (exec twoSpeeds x.1 (.setProcessBudget 2 900000000 ⟨2, 0⟩)).test
        (fun y => decide (y.1.periodicTasksSize = 2)) = true :=
    exists_ok_of_test (by decide)
  obtain ⟨y, hy, hsize⟩ := exists_ok_of_test htest
  have hok' : AdmissionOk x.1 (.setProcessBudget 2 900000000 ⟨2, 0⟩) :=
    ⟨by decide, by decide, hlead⟩
  have hreach := ((Reach.start hboot).step hok hx).step hok' hy
  exact ⟨y.1, hreach, hsize, admission_invariant twoSpeeds hreach⟩

end RtSched
