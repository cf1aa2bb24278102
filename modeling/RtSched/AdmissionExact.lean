import RtSched.AdmissionRun
import RtSched.ListInvariant

/-!
# What `check_admission` decides

`sys_setProcessBudget` runs `check_admission` before it takes the task's old reservation off the list.
So the set that is tested is the whole old list with the new reservation, not the list that results
(`resultingCts`).  On a list of stored reservations the test always comes to a verdict
(`checkAdmission_answers`); `StoredInv` is what the states have in which a call makes it.
-/

namespace RtSched

open Call TimeDemand

variable {s s' : KState} {list : List Tid} {t u : Tid} {b p : Timespec}

/-- The new reservation, as the test sees it. -/
def newCt (b p : Timespec) : TaskCt := { budget := convertToUsecs b, period := convertToUsecs p }

/-- The list that results, read in its own order. -/
def resultingCts (s : KState) (t : Tid) (b p : Timespec) (list : List Tid) : List TaskCt :=
  (reservedList s t p list).map (ctOf (writeReservation t b p s))

/-- A period of a microsecond passes the first check. -/
theorem isSet_of_usecs (hp : p.Normalised) (hp1 : 1 ≤ convertToUsecs p) : p.isSet = true := by
  rw [Timespec.isSet, decide_eq_true_iff]
  by_contra hnot
  rw [not_or, not_lt, not_lt] at hnot
  obtain ⟨hsec, hnsec⟩ := hnot
  rw [convertToUsecs_eq hp, timespecToNs] at hp1
  omega

/-- The verdict of `check_admission`, which always comes. -/
theorem checkAdmission_answers (hk : Kept s list) (hst : ∀ t ∈ list, Stored (s.task t))
    (hb : 0 ≤ convertToUsecs b) (hp : 1 ≤ convertToUsecs p)
    (hle : convertToUsecs b ≤ convertToUsecs p) :
    ∃ n v, (∀ fuel, n ≤ fuel → checkAdmission fuel b p s = .ok v) ∧
      (v = true ↔ Feasible TaskCt.budget TaskCt.period
        (newCt b p ::ₘ (↑(listCts s list) : Multiset TaskCt))) := by
  by_cases hnil : list = []
  · -- an empty list is judged by the utilisation, which is below one
    refine ⟨0, true, fun fuel _ => ?_, iff_of_true rfl ?_⟩
    · have hsize : s.periodicTasksSize = 0 := by
        rw [hk.size, hnil]
        rfl
      have hutil : (convertToUsecs b * scaleUpFactor).tdiv (convertToUsecs p) ≤ 1000 := by
        rw [Int.tdiv_eq_ediv_of_nonneg (by rw [scaleUpFactor]; omega), scaleUpFactor]
        exact Int.ediv_le_of_le_mul (by omega) (by omega)
      simp only [checkAdmission, hsize, if_true, decide_eq_true hutil]
      rfl
    · rw [hnil]
      exact feasible_singleton hp hle
  · have hw := wfCts_insertCt (c := newCt b p) ⟨hb, hp⟩ (wfCts_listCts hst)
    obtain ⟨n, hn⟩ := checkAdmissionList_exact _ hw _ le_rfl
    obtain ⟨v, hv, -⟩ := (hn n le_rfl).2
    refine ⟨max n (list.length + 1), v, fun fuel hf => ?_, ?_⟩
    · obtain ⟨v', hv', -⟩ := (hn fuel (le_of_max_le_left hf)).2
      obtain rfl := checkFrom_unique hv hv'
      have hsize : s.periodicTasksSize ≠ 0 := by
        rw [hk.size]
        exact fun h0 => hnil (List.eq_nil_of_length_eq_zero h0)
      have hlen : s.periodicTasksSize + 1 = (insertCt (newCt b p) (listCts s list)).length := by
        rw [insertCt, List.orderedInsert_length, listCts, List.length_map, hk.size]
      have hwalk : s.periodicTasks fuel = .ok list := by
        have hfuel : list.length < fuel := le_of_max_le_right hf
        rw [s.periodicTasks_eq (hk.isRing hnil).traverses, if_pos hfuel]
      simp only [checkAdmission, if_neg hsize, hwalk, ok_bind, ctArray, List.length_map]
      rw [if_pos hk.size.symm]
      show ofOption s (checkAdmissionList fuel (insertCt (newCt b p) (listCts s list))
        (s.periodicTasksSize + 1)) = .ok v
      rw [hlen, hv']
      rfl
    · rw [checkAdmissionList_passes hv,
        passes_insertCt ⟨hb, hp⟩ (wfCts_listCts hst) (listCts_sorted hk.sorted hst)]

/-- The resulting list passes if the rest of the old list is feasible with the new reservation. -/
theorem passes_resulting (hk : Kept s list) (hst : ∀ t ∈ list, Stored (s.task t))
    (hb : 0 ≤ convertToUsecs b) (hp : p.Normalised) (hp1 : 1 ≤ convertToUsecs p) :
    Passes (resultingCts s t b p list) ↔ Feasible TaskCt.budget TaskCt.period
      (newCt b p ::ₘ (↑(listCts s (list.erase t)) : Multiset TaskCt)) := by
  have hper : ∀ u, ((writeReservation t b p s).task u).timePeriod =
      if u = t then p else (s.task u).timePeriod :=
    fun u => congrArg TaskReg.timePeriod (writeReservation_task t u b p s).1
  have hmin : ∀ u, ((writeReservation t b p s).task u).minBudgetTime =
      if u = t then b else (s.task u).minBudgetTime :=
    fun u => congrArg TaskReg.minBudgetTime (writeReservation_task t u b p s).1
  have hsorted : ByPeriod (writeReservation t b p s).periods (reservedList s t p list) := by
    rw [reservedList, ← writeReservation_periods t b p s]
    refine byPeriod_insert (hk.sorted.erase.congr fun u hu => ?_)
    show ((writeReservation t b p s).task u).timePeriod = (s.task u).timePeriod
    rw [hper, if_neg (hk.ne_of_mem_erase hu)]
  rw [Multiset.cons_coe, newCt, ← Multiset.coe_eq_coe.2 (listCts_reserved hk hper hmin)]
  exact passes_listCts hsorted (stored_reserved hk hper hmin hst hp hp1 hb)

/-! ### The states the call is made in -/

/-- Outside bin-packing mode, with a list of stored reservations. -/
structure StoredInv (s : KState) (list : List Tid) : Prop where
  kept : Kept s list
  binOff : s.isBinPackingSet = false
  stored : ∀ t ∈ list, Stored (s.task t)

theorem StoredInv.next {list' : List Tid} {s₁ : KState} (h : StoredInv s list)
    (hk : Kept s₁ list') (hstep : ListStep s s₁)
    (hup : TaskUpdate ClockOnly (numberTasks s₁ list') s')
    (hst : ∀ u ∈ list', Stored (s₁.task u)) : StoredInv s' list' := by
  have hq := hup.quiet_of_numbered
  refine ⟨hk.of_quiet hq, ((registry_bin hq.registry).trans hstep.bin).trans h.binOff,
    fun u hu => ?_⟩
  have hreg := registry_task hq.registry u
  exact (hst u hu).congr hreg.timePeriod (congrArg TaskReg.minBudgetTime hreg)

theorem StoredInv.ended (h : StoredInv s list) (he : Ended s s') : StoredInv s' list :=
  ⟨he.kept h.kept, he.bin.trans h.binOff,
    fun u hu => (h.stored u hu).congr (he.timePeriod u) (he.minBudgetTime u)⟩

/-- Reservations with normalised periods that the target converts without loss, of at least one and
less than `2 ^ 31` microseconds; and cancellations and exits that find the task on the list when the
flag says so. -/
def ListedOk (s : KState) : Cmd → Prop
  | .setProcessBudget pid budget p => p.Normalised ∧ 1 ≤ convertToUsecs p ∧
      convertToUsecs p < 2 ^ 31 ∧ GlobalOk s (.setProcessBudget pid budget p)
  | .cancelBudget pid => GlobalOk s (.cancelBudget pid)
  | .exit t autoreap => GlobalOk s (.exit t autoreap)
  | _ => False

/-- With nothing on the list any task may ask for a reservation. -/
theorem listedOk_of_empty (hlist : OnList s []) {pid : ℤ} {budget : ℕ} {p : Timespec}
    (hp : p.Normalised) (hp1 : 1 ≤ convertToUsecs p) (hsmall : convertToUsecs p < 2 ^ 31) :
    ListedOk s (.setProcessBudget pid budget p) :=
  ⟨hp, hp1, hsmall, fun _ _ _ hl => hlist.setOk_nil hl⟩

/-- So may a task that is neither listed nor flagged. -/
theorem listedOk_of_unlisted (hlist : OnList s list) {pid : ℤ} {budget : ℕ} {p : Timespec}
    (hfind : s.findTaskByVpid pid = some t) (hnot : t ∉ list)
    (hflag : (s.task t).isBudgetSet = false) (hp : p.Normalised) (hp1 : 1 ≤ convertToUsecs p)
    (hsmall : convertToUsecs p < 2 ^ 31) : ListedOk s (.setProcessBudget pid budget p) :=
  ⟨hp, hp1, hsmall, hlist.setOk_found hfind hnot hflag⟩

end RtSched
