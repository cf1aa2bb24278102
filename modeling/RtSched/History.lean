import RtSched.Base.Order
import RtSched.ListInvariant
import RtSched.PriorityRun
import RtSched.SysClock

/-!
# What depends on the order of the calls

Under SysClock every call computes the frequency, the budgets and the priorities from the list as it
then is.  The list is sorted by period; tasks of the same period stand in the order in which they
were last reserved (`Ordered`), and that is all that a list keeps of its history.

* `sysclock` reads the budgets and the periods, in the order of the list (`sysclockSpeeds_congr`);
* the numbers of `set_rt_priorities` depend on the order of equal periods only from the hundredth
  period on (`numberTasks_top`);
* `history_independent`: two runs that end with the same reservations end with the same results, if
  equal periods with different budgets were reserved in the same order.  `sysclock` adds the tasks
  one by one, so the order of these matters (`history_dependent`).
-/

namespace RtSched

open Call Loop ListOrder
open scoped List

/-! ### What `sysclock` reads -/

section Shape

/-- Budget and period. -/
def TaskCt.shape (c : TaskCt) : ℤ × ℤ := (c.budget, c.period)

variable {cts cts' : List TaskCt}

theorem releasedUpTo_shape (cts : List TaskCt) (i : ℕ) (c : ℤ) : releasedUpTo cts i c =
    (((cts.map TaskCt.shape).take (i + 1)).map fun d => (c / d.2 + 1) * d.1).sum := by
  rw [← List.map_take, List.map_map]
  rfl

theorem idleDuration_shape (cts : List TaskCt) (i : ℕ) (period c : ℤ) :
    idleDuration cts i period c =
      let idle := ((cts.map TaskCt.shape).take (i + 1)).foldl (fun idle d =>
        let temp := ceiling c d.2 * d.2 - c
        if temp < idle then temp else idle) 234567
      if period - c < idle then period - c else idle := by
  rw [← List.map_take, List.foldl_map]
  rfl

theorem getD_shape (cts : List TaskCt) (i : ℕ) :
    (cts.getD i default).shape = (cts.map TaskCt.shape).getD i (TaskCt.shape default) :=
  (List.getD_map _ _ TaskCt.shape).symm

section Congr

variable (h : cts.map TaskCt.shape = cts'.map TaskCt.shape)

include h

theorem releasedUpTo_congr (i : ℕ) : releasedUpTo cts i = releasedUpTo cts' i := by
  funext c
  rw [releasedUpTo_shape, releasedUpTo_shape, h]

theorem idleDuration_congr (i : ℕ) : idleDuration cts i = idleDuration cts' i := by
  funext period c
  rw [idleDuration_shape, idleDuration_shape, h]

theorem getD_congr (i : ℕ) : (cts.getD i default).shape = (cts'.getD i default).shape := by
  rw [getD_shape, getD_shape, h]

theorem walkTurn_congr (fuel i : ℕ) : walkTurn fuel cts i = walkTurn fuel cts' i := by
  have hperiod : (cts.getD i default).period = (cts'.getD i default).period :=
    congrArg Prod.snd (getD_congr h i)
  have hbusy : busyTurn cts i = busyTurn cts' i := by
    funext slack period x
    rw [busyTurn, busyTurn, releasedUpTo_congr h]
  funext w
  simp only [walkTurn, hperiod, hbusy, idleDuration_congr h]

theorem alphaOf_congr (fuel i : ℕ) (inBzp : Bool) :
    alphaOf fuel cts i inBzp = alphaOf fuel cts' i inBzp := by
  have hbudget : (cts.getD i default).budget = (cts'.getD i default).budget :=
    congrArg Prod.fst (getD_congr h i)
  rw [alphaOf, alphaOf, walkTurn_congr h, hbudget]

theorem alphasFrom_congr (fuel n i : ℕ) (inBzp : Bool) :
    alphasFrom fuel cts n i inBzp = alphasFrom fuel cts' n i inBzp := by
  induction n generalizing i inBzp with
  | zero => rfl
  | succ n ih => simp only [alphasFrom, alphaOf_congr h, ih]

/-- `sysclock` reads the budgets and the periods, in the order of the list. -/
theorem sysclockSpeeds_congr (fuel maxFrequency size : ℕ) :
    sysclockSpeeds fuel maxFrequency cts size = sysclockSpeeds fuel maxFrequency cts' size := by
  rw [sysclockSpeeds, sysclockSpeeds, alphasFrom_congr h]

end Congr

end Shape

/-- The frequency `sysclock` finds for the array; for an empty one it is zero. -/
def sysFreq (e : Env) (cts : List TaskCt) : Option ℕ :=
  (sysclockSpeeds e.fuel e.maxFrequency cts cts.length).map Prod.snd

theorem sysFreq_congr {cts cts' : List TaskCt} (e : Env)
    (h : cts.map TaskCt.shape = cts'.map TaskCt.shape) : sysFreq e cts = sysFreq e cts' := by
  have hlen : cts.length = cts'.length := by
    rw [← List.length_map TaskCt.shape, h, List.length_map]
  rw [sysFreq, sysFreq, hlen, sysclockSpeeds_congr h]

/-- The frequency that was requested is the one of the table for the list. -/
def SysTuned (e : Env) (s : KState) (list : List Tid) : Prop :=
  ∃ f, sysFreq e (timedCts s list) = some f ∧ s.cpuFreq = getTableFrequency e f

variable {e : Env} {s s' s₁ : KState} {list : List Tid} {t u : Tid}

theorem sysclock_freq {cts : List TaskCt} (hsize : s.periodicTasksSize = cts.length) :
    Sat (fun x => sysFreq e cts = some x.2) (fun _ => True) (sysclock e cts s) := by
  rw [sysclock, sysclockPerCpu, hsize]
  refine sat_ite (fun h0 => ?_) fun _ => ?_
  · rw [List.eq_nil_of_length_eq_zero (Nat.le_zero.1 h0)]
    rfl
  · refine Sat.bind (sat_ofOption (Q := fun x => sysFreq e cts = some x.2) fun x hx => ?_)
      fun x hx => ?_
    · rw [sysFreq, hx]
      rfl
    · exact hx

/-- What `retuneSysclock` requests. -/
theorem retuneSysclock_tuned (h : Kept s list) :
    Sat (fun s' => SysTuned e s' list) (fun _ => True) (retuneSysclock e s) := by
  refine Sat.bind ((makeTaskCtStruct_sat h e).mono (fun _ h => h) fun _ _ => trivial) ?_
  rintro cts rfl
  have hsize : s.periodicTasksSize = (timedCts s list).length := by
    rw [timedCts, List.length_map, h.size]
  refine Sat.bind (((sysclock_update e _ s).and (sysclock_freq hsize)).mono (fun _ h => h)
    fun _ _ => trivial) ?_
  rintro ⟨s₁, f⟩ ⟨hu, hf⟩
  have hq := hu.clock_of_speed.quiet_of_clock
  refine Sat.bind ((applySysclock_sat (h.of_quiet hq) f).mono (fun _ h => h) fun _ _ => trivial) ?_
  rintro ⟨s₂, _⟩ ⟨rfl, hr⟩
  refine ⟨f, ?_, rfl⟩
  have hcts : timedCts s₂ list = timedCts s list :=
    timedCts_of_registry (hq.trans hr.update.quiet_of_clock).registry list
  have hfreq : sysFreq e (timedCts s₂ list) = some f := by
    rw [hcts]
    exact hf
  exact hfreq

/-! ### What `set_rt_priorities` leaves -/

/-- Threads of one process. -/
def SameGroup (s : KState) (t u : Tid) : Prop := (s.task t).tgid = (s.task u).tgid

theorem mem_threads_iff (ht : t ∈ s.pidHash) : t ∈ s.threads u ↔ SameGroup s t u := by
  rw [s.mem_threads]
  constructor
  · rintro (rfl | ⟨-, h⟩)
    · rfl
    · exact h
  · intro h
    exact Or.inr ⟨ht, h⟩

/-- `t` has the highest number among those of the tasks of its process in `done`. -/
def TopAmong (s : KState) (list done : List Tid) (r : ℤ) (t : Tid) : Prop :=
  ∃ u ∈ done, SameGroup s t u ∧ r = rank s.periods list u ∧
    ∀ v ∈ done, SameGroup s t v → rank s.periods list v ≤ rank s.periods list u

section Rank

variable {per per' : Tid → Timespec} {list' : List Tid}

theorem rank_mono (per : Tid → Timespec) (list : List Tid)
    (h : timespecCompare (per t) (per u) ≤ 0) : rank per list t ≤ rank per list u := by
  unfold rank distinctPeriods
  refine Finset.card_le_card fun q hq => ?_
  rw [List.mem_toFinset, List.mem_map] at *
  obtain ⟨v, hv, rfl⟩ := hq
  rw [List.mem_filter, decide_eq_true_eq] at hv
  refine ⟨v, List.mem_filter.2 ⟨hv.1, ?_⟩, rfl⟩
  rw [decide_eq_true_eq]
  exact timespecCompare_le_trans hv.2 h

theorem distinctPeriods_perm (per : Tid → Timespec) (h : list.Perm list') :
    distinctPeriods per list = distinctPeriods per list' := by
  unfold distinctPeriods
  rw [List.toFinset_eq_of_perm _ _ (h.map per)]

theorem rank_perm (per : Tid → Timespec) (h : list.Perm list') (t : Tid) :
    rank per list t = rank per list' t := distinctPeriods_perm per (h.filter _)

end Rank

theorem setThreadPriority_rtPriority (r : ℤ) (p : TaskStruct) :
    (setThreadPriority r p).rtPriority = r := by
  rcases schedSetscheduler_cases { p with rtPriority := r } .fifo r with h | ⟨-, h⟩
  · simp only [setThreadPriority, h]
  · simp only [setThreadPriority, h]
    rfl

/-- What the loop of `set_rt_priorities` has done with the tasks `done` of the list `all`. -/
structure Topping (s : KState) (all done : List Tid) (a : PrioAcc) : Prop extends
    Counting s done a where
  top : ∀ t ∈ s.pidHash, (∃ u ∈ done, SameGroup s t u) →
    TopAmong s all done (a.st.task t).rtPriority t

theorem Topping.step {done rest : List Tid} {a : PrioAcc} (h : Topping s (done ++ t :: rest) done a)
    (hs : ByPeriod s.periods (done ++ t :: rest))
    (hpos : 0 < timespecCompare (s.periods t) ⟨0, 0⟩)
    (hfew : distinctPeriods s.periods (done ++ t :: rest) ≤ 99) :
    Topping s (done ++ t :: rest) (done ++ [t]) (rtPriorityStep a t) := by
  have hnumber := h.toCounting.next hs hpos
  refine ⟨h.toCounting.step hs hpos hfew, fun v hv hgroup => ?_⟩
  have hthreads : a.st.threads t = s.threads t := threads_congr h.update.pidHash
    (fun u => congrArg TaskReg.tgid (h.update.task u).reg) t
  by_cases hvt : SameGroup s v t
  · -- the number of `t` is the highest so far
    refine ⟨t, by simp, hvt, ?_, fun u hu _ => rank_mono _ _ ?_⟩
    · rw [rtPriorityStep, KState.eachThread_task, hthreads, if_pos ((mem_threads_iff hv).2 hvt),
        setThreadPriority_rtPriority, hnumber]
    · rcases List.mem_append.1 hu with hu | hu
      · exact (List.pairwise_append.1 hs).2.2 u hu t List.mem_cons_self
      · rw [List.mem_singleton.1 hu, timespecCompare_eq_zero_iff.2 rfl]
  · have hother : ∀ u ∈ done ++ [t], SameGroup s v u → u ∈ done := by
      intro u hu hvu
      rcases List.mem_append.1 hu with hu | hu
      · exact hu
      · rw [List.mem_singleton.1 hu] at hvu
        exact absurd hvu hvt
    obtain ⟨u, hu, hvu⟩ := hgroup
    obtain ⟨w, hw, hvw, hr, hmax⟩ := h.top v hv ⟨u, hother u hu hvu, hvu⟩
    refine ⟨w, List.mem_append_left _ hw, hvw, ?_, fun u hu hvu => hmax u (hother u hu hvu) hvu⟩
    rw [rtPriorityStep, KState.eachThread_task, hthreads,
      if_neg (fun hmem => hvt ((mem_threads_iff hv).1 hmem)), hr]

/-- Up to 99 periods, a thread has the highest rank among the reserved tasks of its process. -/
theorem numberTasks_top (hk : Kept s list)
    (hpos : ∀ u ∈ list, 0 < timespecCompare (s.periods u) ⟨0, 0⟩)
    (hfew : distinctPeriods s.periods list ≤ 99) (ht : t ∈ s.pidHash)
    (hgroup : ∃ u ∈ list, SameGroup s t u) :
    TopAmong s list list ((numberTasks s list).task t).rtPriority t := by
  have h0 : Topping s list [] ⟨0, ⟨0, 0⟩, s⟩ := ⟨counting_start s, by simp⟩
  have h : Topping s list list (list.foldl rtPriorityStep ⟨0, ⟨0, 0⟩, s⟩) := by
    refine Loop.foldl_inv h0 ?_
    rintro done t rest a rfl h
    exact h.step hk.sorted (hpos t (by simp)) hfew
  exact h.top t ht hgroup

theorem TopAmong.congr {list' : List Tid} {r : ℤ} (h : TopAmong s list list r t)
    (hperm : list.Perm list') (htgid : ∀ u, (s'.task u).tgid = (s.task u).tgid)
    (hper : ∀ u ∈ list, s'.periods u = s.periods u) : TopAmong s' list' list' r t := by
  have hgroup : ∀ u, SameGroup s' t u ↔ SameGroup s t u := by
    intro u
    unfold SameGroup
    rw [htgid, htgid]
  have hrank : ∀ u ∈ list, rank s'.periods list' u = rank s.periods list u := by
    intro u hu
    rw [← rank_perm _ hperm, rank_congr hper hu]
  obtain ⟨u, hu, htu, hr, hmax⟩ := h
  refine ⟨u, hperm.subset hu, (hgroup u).2 htu, ?_, fun v hv htv => ?_⟩
  · rw [hrank u hu, hr]
  · have hv' := hperm.symm.subset hv
    rw [hrank u hu, hrank v hv']
    exact hmax v hv' ((hgroup v).1 htv)

theorem TopAmong.unique {r r' : ℤ} (h : TopAmong s list list r t) (h' : TopAmong s list list r' t) :
    r = r' := by
  obtain ⟨u, hu, htu, hr, hmax⟩ := h
  obtain ⟨v, hv, htv, hr', hmax'⟩ := h'
  have heq := le_antisymm (hmax' u hu htu) (hmax v hv htv)
  rw [hr, hr', heq]

/-! ### The order of equal periods -/

/-- Tasks of the same period stand in the list as in `order`, the order of the last reservations. -/
structure Ordered (per : Tid → Timespec) (list order : List Tid) : Prop where
  nodup : order.Nodup
  reserved : ∀ t ∈ list, t ∈ order
  ties : ∀ t u, [t, u] <+ list → per t = per u → [t, u] <+ order

section Ordered

variable {per per' : Tid → Timespec} {list' order : List Tid}

theorem Ordered.sublist (h : Ordered per list order) (hsub : list' <+ list)
    (hper : ∀ u ∈ list', per' u = per u) : Ordered per' list' order := by
  refine ⟨h.nodup, fun t ht => h.reserved t (hsub.subset ht), fun t u htu heq => ?_⟩
  rw [hper t (htu.subset (by simp)), hper u (htu.subset (by simp))] at heq
  exact h.ties t u (htu.trans hsub) heq

/-- Behind a new task there are longer periods only. -/
theorem longer_of_insert (hs : ByPeriod per list) (ht : t ∉ list)
    (h : [t, u] <+ insertByPeriod per t list) : Longer per t u := by
  induction list with
  | nil =>
    have := h.length_le
    simp [insertByPeriod] at this
  | cons b list ih =>
    obtain ⟨hb, hlist⟩ := List.pairwise_cons.1 hs
    rw [insertByPeriod, List.orderedInsert_cons] at h
    split_ifs at h with hl
    · cases h with
      | cons _ h => exact absurd (h.subset (by simp)) ht
      | cons_cons _ h =>
        rcases List.mem_cons.1 (h.subset List.mem_cons_self) with rfl | hu
        · exact hl
        · -- `b` is longer than `t`, and `u` not shorter than `b`
          have hbu := hb u hu
          unfold Longer at hl ⊢
          by_contra hle
          exact absurd (timespecCompare_le_trans hbu (not_lt.1 hle)) (not_le.2 hl)
    · cases h with
      | cons _ h => exact ih hlist (fun hmem => ht (List.mem_cons_of_mem _ hmem)) h
      | cons_cons _ _ => exact absurd List.mem_cons_self ht

/-- A reservation moves the task to the end of the order. -/
theorem Ordered.insert (h : Ordered per list order) (hnd : list.Nodup)
    (hs : ByPeriod per' (list.erase t)) (hper : ∀ u ∈ list.erase t, per' u = per u) :
    Ordered per' (insertByPeriod per' t (list.erase t)) (order.erase t ++ [t]) := by
  have hnot : t ∉ list.erase t := hnd.not_mem_erase
  have hne : ∀ u ∈ list.erase t, u ≠ t := by
    rintro u hu rfl
    exact hnot hu
  have hmem : ∀ u ∈ list.erase t, u ∈ order.erase t := fun u hu =>
    (List.mem_erase_of_ne (hne u hu)).2 (h.reserved u (List.mem_of_mem_erase hu))
  refine ⟨?_, fun u hu => ?_, fun a b hab heq => ?_⟩
  · exact (h.nodup.erase t).append (List.nodup_singleton t)
      (by simpa using h.nodup.not_mem_erase)
  · rcases mem_insertByPeriod.1 hu with rfl | hu
    · simp
    · exact List.mem_append_left _ (hmem u hu)
  · by_cases hat : a = t
    · -- `t` stands behind the tasks of its period
      subst hat
      have hlong := longer_of_insert hs hnot hab
      unfold Longer at hlong
      rw [heq, timespecCompare_eq_zero_iff.2 rfl] at hlong
      exact absurd hlong (lt_irrefl _)
    · by_cases hbt : b = t
      · subst hbt
        have ha := (mem_insertByPeriod.1 (hab.subset List.mem_cons_self)).resolve_left hat
        exact (List.singleton_sublist.2 (hmem a ha)).append (List.Sublist.refl [b])
      · -- the others are as they were
        have hab' : [a, b] <+ list.erase t := by
          have herase := hab.erase t
          rw [insertByPeriod, List.erase_orderedInsert_of_notMem hnot,
            List.erase_of_not_mem (by simp [Ne.symm hat, Ne.symm hbt])] at herase
          exact herase
        have hties := h.ties a b (hab'.trans List.erase_sublist) (by
          rw [← hper a (hab'.subset (by simp)), ← hper b (hab'.subset (by simp)), heq])
        have herase := hties.erase t
        rw [List.erase_of_not_mem (by simp [Ne.symm hat, Ne.symm hbt])] at herase
        exact herase.trans (List.sublist_append_left _ _)

end Ordered

/-! ### Histories -/

/-- The state, and the tasks in the order of their last successful reservation. -/
structure HistState where
  st : KState
  order : List Tid

/-- What a call that returned `r` leaves of the order. -/
def HistState.orderAfter (x : HistState) (r : ℤ) : Cmd → List Tid
  | .setProcessBudget pid _ _ =>
      if r = 0 then
        match x.st.findTaskByVpid pid with
        | some t => x.order.erase t ++ [t]
        | none => x.order
      else x.order
  | _ => x.order

/-- A call. -/
def HistState.exec (e : Env) (x : HistState) (c : Cmd) : Call HistState (HistState × ℤ) :=
  record (fun s r => ⟨s, x.orderAfter r c⟩) (fun s => ⟨s, x.order⟩) (RtSched.exec e x.st c)

/-- What the calls have computed for the list. -/
structure Computed (e : Env) (s : KState) (list : List Tid) : Prop where
  clock : SysTuned e s list
  budget : SysCoherent e s list
  number : distinctPeriods s.periods list ≤ 99 → ∀ t ∈ s.pidHash, (∃ u ∈ list, SameGroup s t u) →
    TopAmong s list list (s.task t).rtPriority t

/-- A state of the system booted as `s₀`, after reservations in the given order. -/
structure HistInv (e : Env) (s₀ s : KState) (order list : List Tid) : Prop where
  kept : Kept s list
  binOff : s.isBinPackingSet = false
  power : s.powerScheme = .sysClock
  tgid : ∀ t, (s.task t).tgid = (s₀.task t).tgid
  pos : ∀ t ∈ list, 0 < timespecCompare (s.periods t) ⟨0, 0⟩
  hashed : ∀ t ∈ list, t ∈ s.pidHash
  ordered : Ordered s.periods list order
  computed : order ≠ [] → Computed e s list

variable {s₀ : KState} {order order' list' : List Tid}

/-- A call that has set up the list `list'` in `s₁` and then numbers it and sets the clock. -/
theorem HistInv.next (h : HistInv e s₀ s order list) (hk₁ : Kept s₁ list') (hstep : ListStep s s₁)
    (htgid : ∀ u, (s₁.task u).tgid = (s.task u).tgid)
    (hpos : ∀ u ∈ list', 0 < timespecCompare (s₁.periods u) ⟨0, 0⟩)
    (hhash : ∀ u ∈ list', u ∈ s.pidHash) (hord : Ordered s₁.periods list' order')
    (hup : TaskUpdate ClockOnly (numberTasks s₁ list') s') (hclock : SysTuned e s' list')
    (hsys : SysCoherent e s' list') : HistInv e s₀ s' order' list' := by
  have hq := hup.quiet_of_numbered
  have hper : ∀ u, s'.periods u = s₁.periods u := fun u => (registry_task hq.registry u).timePeriod
  have hgroup : ∀ u, (s'.task u).tgid = (s₁.task u).tgid := fun u =>
    congrArg TaskReg.tgid (registry_task hq.registry u)
  have hpid : s'.pidHash = s₁.pidHash := registry_pidHash hq.registry
  refine ⟨hk₁.of_quiet hq, ((registry_bin hq.registry).trans hstep.bin).trans h.binOff,
    ((registry_power hq.registry).trans hstep.power).trans h.power, fun t => ?_, fun t ht => ?_,
    fun t ht => ?_, hord.sublist (List.Sublist.refl _) fun u _ => hper u, fun _ => ⟨hclock, hsys, ?_⟩⟩
  · rw [hgroup, htgid, h.tgid]
  · rw [hper]
    exact hpos t ht
  · rw [hpid, hstep.pidHash]
    exact hhash t ht
  · rintro hfew t ht ⟨u, hu, htu⟩
    have hfew₁ : distinctPeriods s₁.periods list' ≤ 99 := by
      rw [distinctPeriods, ← List.map_congr_left fun u _ => hper u]
      exact hfew
    have htu₁ : SameGroup s₁ t u := by
      rw [SameGroup, ← hgroup, ← hgroup]
      exact htu
    have htop := numberTasks_top hk₁ hpos hfew₁ (hpid ▸ ht) ⟨u, hu, htu₁⟩
    have hnumber : (s'.task t).rtPriority = ((numberTasks s₁ list').task t).rtPriority :=
      (hup.task t).schedSame.2.1
    rw [hnumber]
    exact htop.congr (List.Perm.refl _) hgroup fun u _ => hper u

theorem HistInv.ended (h : HistInv e s₀ s order list) (he : Ended s s')
    (hsub : ∀ u ∈ s'.pidHash, u ∈ s.pidHash) (hhash : ∀ u ∈ list, u ∈ s'.pidHash) :
    HistInv e s₀ s' order list := by
  have hper : ∀ u, s'.periods u = s.periods u := he.timePeriod
  refine ⟨he.kept h.kept, he.bin.trans h.binOff, he.power.trans h.power, fun t => ?_, fun t ht => ?_,
    hhash, h.ordered.sublist (List.Sublist.refl _) fun u _ => hper u, fun hne => ?_⟩
  · rw [he.tgid, h.tgid]
  · rw [hper]
    exact h.pos t ht
  · obtain ⟨⟨f, hf, hfreq⟩, hbudget, hnumber⟩ := h.computed hne
    refine ⟨⟨f, ?_, he.cpuFreq.trans hfreq⟩, fun t ht => ?_, fun hfew t ht hgroup => ?_⟩
    · rw [timedCts_congr fun u _ => ⟨he.timePeriod u, he.minBudgetTime u⟩]
      exact hf
    · rw [he.budgetTime, he.minBudgetTime, he.cpuFreq]
      exact hbudget t ht
    · have hgroup' : ∃ u ∈ list, SameGroup s t u := by
        obtain ⟨u, hu, htu⟩ := hgroup
        rw [SameGroup, he.tgid, he.tgid] at htu
        exact ⟨u, hu, htu⟩
      rw [distinctPeriods, List.map_congr_left fun u _ => hper u] at hfew
      rw [he.rtPriority]
      exact (hnumber hfew t (hsub t ht) hgroup').congr (List.Perm.refl _) he.tgid fun u _ => hper u

theorem HistInv.finishExit (h : HistInv e s₀ s order list) (ht : t ∉ list) (autoreap : Bool) :
    HistInv e s₀ (finishExit t autoreap s) order list := by
  refine h.ended (ended_finishExit t autoreap s) (fun u hu => ?_) fun u hu => ?_
  · cases autoreap with
    | false => exact hu
    | true => exact List.mem_of_mem_erase hu
  · have hhash := h.hashed u hu
    cases autoreap with
    | false => exact hhash
    | true =>
      refine (List.mem_erase_of_ne ?_).2 hhash
      rintro rfl
      exact ht hu

/-- The clock follows the list that was numbered. -/
theorem retuneNumbered_tuned (h : Kept s list) :
    Sat (fun s' => SysTuned e s' list) (fun _ => True) (retuneSysclock e (numberTasks s list)) :=
  retuneSysclock_tuned (h.numberTasks list)

theorem setReservation_history (h : HistInv e s₀ s order list) (hok : SetOk s list t)
    (ht : t ∈ s.pidHash) {budget : ℕ} {b p : Timespec} (hp : 0 < timespecCompare p ⟨0, 0⟩) :
    Sat (fun s' => HistInv e s₀ s' (order.erase t ++ [t]) (reservedList s t p list)) (fun _ => True)
      (setReservation e t budget b p s) := by
  have hclock := setReservation_sysclock (e := e) (b := b) (p := p) h.kept hok h.binOff h.power
    (fun s₁ hk₁ _ => retuneNumbered_tuned hk₁) budget
  refine ((setReservation_off h.kept hok h.binOff budget b p).and hclock).mono ?_ fun _ _ => trivial
  rintro s' ⟨⟨s₁, hk₁, hr, hl⟩, hclock⟩
  have hper := hr.periods
  have hold : ∀ u ∈ list.erase t, Function.update s.periods t p u = s.periods u := fun u hu =>
    Function.update_of_ne (h.kept.ne_of_mem_erase hu) _ _
  refine h.next hk₁ hr.step hr.tgid (fun u hu => ?_) (fun u hu => ?_) ?_ hl.update hclock
    (hl.sysClock (hr.step.power.trans h.power))
  · rw [hper]
    rcases mem_reservedList.1 hu with rfl | hu
    · rw [Function.update_self]
      exact hp
    · rw [hold u hu]
      exact h.pos u (List.mem_of_mem_erase hu)
  · rcases mem_reservedList.1 hu with rfl | hu
    · exact ht
    · exact h.hashed u (List.mem_of_mem_erase hu)
  · rw [hper]
    exact h.ordered.insert h.kept.nodup (h.kept.sorted.erase.congr hold) hold

theorem cancelReservation_history (h : HistInv e s₀ s order list) (hmem : t ∈ list ∨ list = []) :
    Sat (fun s' => HistInv e s₀ s' order (list.erase t)) (fun _ => True)
      (cancelReservation e t s) := by
  obtain ⟨s₁, hk₁, hu, hdef⟩ := cancelReservation_eq (e := e) h.kept hmem h.binOff
  have hper : ∀ u ∈ list.erase t, s₁.periods u = s.periods u := fun u hu' => (hu.keeps h.kept u hu').1
  rw [hdef]
  have hpow := hu.step.power.trans h.power
  have hclock := retuneAfterCancel_sysclock hk₁ hpow (retuneNumbered_tuned (e := e) hk₁)
  refine ((retuneAfterCancel_sat hk₁).and hclock).mono ?_ fun _ _ => trivial
  rintro s' ⟨⟨hup, -, hsys⟩, hclock⟩
  refine h.next hk₁ hu.step (fun u => congrArg TaskReg.tgid (hu.reg u)) (fun u hu' => ?_)
    (fun u hu' => h.hashed u (List.mem_of_mem_erase hu')) (h.ordered.sublist List.erase_sublist hper)
    hup hclock (hsys hpow)
  rw [hper u hu']
  exact h.pos u (List.mem_of_mem_erase hu')

theorem exitReservation_history (h : HistInv e s₀ s order list) (hmem : t ∈ list ∨ list = [])
    (hlead : t = (s.task t).tgid) :
    Sat (fun s' => HistInv e s₀ s' order (list.erase t)) (fun _ => True) (exitReservation e t s) := by
  obtain ⟨s₁, hk₁, hd, hdef⟩ := exitReservation_eq (e := e) h.kept hmem h.binOff hlead
  have hper : ∀ u, s₁.periods u = s.periods u := fun u => (hd.keeps u).1
  rw [hdef]
  have hpow := hd.step.power.trans h.power
  have hclock := retuneAfterExit_sysclock hk₁ hpow (retuneNumbered_tuned (e := e) hk₁)
  refine ((retuneAfterExit_sat hk₁).and hclock).mono ?_ fun _ _ => trivial
  rintro s' ⟨⟨hup, hsys, -⟩, hclock⟩
  refine h.next hk₁ hd.step (fun u => congrArg TaskReg.tgid (hd.reg u)) (fun u hu' => ?_)
    (fun u hu' => h.hashed u (List.mem_of_mem_erase hu'))
    (h.ordered.sublist List.erase_sublist fun u _ => hper u) hup hclock (hsys hpow)
  rw [hper]
  exact h.pos u (List.mem_of_mem_erase hu')

/-- Reservations, cancellations and exits that find the task on the list when the flag says so, and
no exit that leaves a task on it. -/
def HistOk (x : HistState) : Cmd → Prop
  | .setProcessBudget pid budget p => GlobalOk x.st (.setProcessBudget pid budget p)
  | .cancelBudget pid => GlobalOk x.st (.cancelBudget pid)
  | .exit t autoreap => GlobalOk x.st (.exit t autoreap) ∧ ∀ list, OnList x.st list → t ∈ list →
      (x.st.task t).isBudgetSet = true ∧ t = (x.st.task t).tgid
  | _ => False

/-- One call keeps the invariant. -/
theorem exec_history {x : HistState} (h : ∃ list, HistInv e s₀ x.st x.order list) {c : Cmd}
    (hok : HistOk x c) :
    Sat (fun y => ∃ list, HistInv e s₀ y.1.st y.1.order list) (fun _ => True) (x.exec e c) := by
  obtain ⟨list, h⟩ := h
  have hk := h.kept
  refine sat_record (Q := fun y : HistState × ℤ => ∃ list, HistInv e s₀ y.1.st y.1.order list)
    (F := fun _ => True) ?_
  cases c with
  | setProcessBudget pid budget p =>
    refine Sat.mono (setProcessBudget_outcome (e := e)
      (Q := fun t s' => ∃ list', HistInv e s₀ s' (x.order.erase t ++ [t]) list') hk
      fun t ht hlt _ => ?_) ?_ fun _ h => h
    · refine (setReservation_history h (hok t ht list hk.onList) (x.st.mem_pidHash_of_find ht)
        (period_pos hlt)).mono (fun s' hs' => ⟨_, hs'⟩) fun _ _ => trivial
    · rintro ⟨s', r⟩ (⟨rfl, hr⟩ | ⟨rfl, t, ht, hs'⟩)
      · have horder : x.orderAfter r (.setProcessBudget pid budget p) = x.order := if_neg hr
        rw [horder]
        exact ⟨list, h⟩
      · have horder : x.orderAfter 0 (.setProcessBudget pid budget p) = x.order.erase t ++ [t] := by
          simp only [HistState.orderAfter, ht, if_pos]
        rw [horder]
        exact hs'
  | cancelBudget pid =>
    refine cancelBudget_rule (Q := fun s' => ∃ list, HistInv e s₀ s' x.order list) ⟨list, h⟩
      fun t ht => ?_
    exact (cancelReservation_history h (hok t ht list hk.onList)).mono (fun s' hs' => ⟨_, hs'⟩)
      fun _ _ => trivial
  | exit t autoreap =>
    obtain ⟨hflag, hgone⟩ := hok
    have hgone := hgone list hk.onList
    refine doExit_rule (Q := fun s' => ∃ list, HistInv e s₀ s' x.order list) (fun hf => ?_)
      fun hf => ⟨list, h.finishExit (fun ht => ?_) autoreap⟩
    · by_cases hlead : t = (x.st.task t).tgid
      · refine (exitReservation_history h (hflag hf hlead list hk.onList) hlead).mono
          (fun s' hs' => ⟨_, hs'.finishExit hk.nodup.not_mem_erase autoreap⟩) fun _ _ => trivial
      · rw [exitReservation, if_neg hlead]
        have hclear := h.ended (ended_clearFlag t x.st) (fun _ hu => hu) h.hashed
        exact ⟨list, hclear.finishExit (fun ht => hlead (hgone ht).2) autoreap⟩
    · rw [(hgone ht).1] at hf
      cases hf
  | _ => exact hok.elim

/-! ### Two histories -/

/-- The reservations: task, `min_budget_time` and `time_period`. -/
def reservations (s : KState) (list : List Tid) : List (Tid × Timespec × Timespec) :=
  list.map fun t => (t, (s.task t).minBudgetTime, (s.task t).timePeriod)

/-- The lists hold the same reservations, in any order. -/
def SameReservations (x y : KState) (l l' : List Tid) : Prop :=
  ∀ r, r ∈ reservations x l ↔ r ∈ reservations y l'

/-- The requested frequency, the budgets, and the numbers of all threads of reserved tasks. -/
structure SameResults (x y : KState) (list : List Tid) : Prop where
  clock : x.cpuFreq = y.cpuFreq
  budget : ∀ t ∈ list, (x.task t).budgetTime = (y.task t).budgetTime
  number : ∀ t ∈ list, ∀ u ∈ x.threads t, u ∈ y.threads t →
    (x.task u).rtPriority = (y.task u).rtPriority

/-- Tasks of one period whose budgets differ in microseconds were reserved in the same order. -/
def SameTies (x y : HistState) (list : List Tid) : Prop :=
  ∀ t ∈ list, ∀ u ∈ list, (x.st.task t).timePeriod = (x.st.task u).timePeriod →
    convertToUsecs (x.st.task t).minBudgetTime ≠ convertToUsecs (x.st.task u).minBudgetTime →
    [t, u] <+ x.order → [t, u] <+ y.order

section Compare

variable {x y : HistState} {l l' : List Tid}

theorem SameReservations.task {x y : KState} (h : SameReservations x y l l') (ht : t ∈ l) :
    t ∈ l' ∧ (y.task t).minBudgetTime = (x.task t).minBudgetTime ∧
      (y.task t).timePeriod = (x.task t).timePeriod := by
  obtain ⟨u, hu, heq⟩ := List.mem_map.1 ((h _).1 (List.mem_map.2 ⟨t, ht, rfl⟩))
  obtain ⟨rfl, hmin, hper⟩ := by simpa only [Prod.mk.injEq] using heq
  exact ⟨hu, hmin, hper⟩

theorem SameReservations.perm {x y : KState} (h : SameReservations x y l l') (hnd : l.Nodup)
    (hnd' : l'.Nodup) : l.Perm l' := by
  have hsymm : SameReservations y x l' l := fun r => (h r).symm
  refine (List.perm_ext_iff_of_nodup hnd hnd').2 fun t => ?_
  constructor
  · intro ht
    exact (h.task ht).1
  · intro ht
    exact (hsymm.task ht).1

/-- What `sysclock` reads of the two lists is the same: different periods are sorted, and equal
periods stand in the order of the reservations. -/
theorem shapes_eq (hx : HistInv e s₀ x.st x.order l) (hy : HistInv e s₀ y.st y.order l')
    (hsame : SameReservations x.st y.st l l') (hties : SameTies x y l) :
    (timedCts x.st l).map TaskCt.shape = (timedCts y.st l').map TaskCt.shape := by
  have hperm := hsame.perm hx.kept.nodup hy.kept.nodup
  have hleft : (timedCts x.st l).map TaskCt.shape = l.map fun t =>
      (convertToUsecs (x.st.task t).minBudgetTime, convertToUsecs (x.st.task t).timePeriod) := by
    rw [timedCts, List.map_map]
    rfl
  have hright : (timedCts y.st l').map TaskCt.shape = l'.map fun t =>
      (convertToUsecs (x.st.task t).minBudgetTime, convertToUsecs (x.st.task t).timePeriod) := by
    rw [timedCts, List.map_map]
    refine List.map_congr_left fun t ht => ?_
    obtain ⟨-, hmin, hper⟩ := hsame.task (hperm.symm.subset ht)
    rw [← hmin, ← hper]
    rfl
  rw [hleft, hright]
  refine map_eq_of_order hperm hx.kept.nodup fun a b hne hab => ?_
  have ha : a ∈ l := hab.subset (by simp)
  have hb : b ∈ l := hab.subset (by simp)
  have hab' : a ≠ b := by
    rintro rfl
    exact hne rfl
  have hpa : y.st.periods a = x.st.periods a := (hsame.task ha).2.2
  have hpb : y.st.periods b = x.st.periods b := (hsame.task hb).2.2
  refine (pair_or (hperm.subset ha) (hperm.subset hb) hab').resolve_right fun hba => ?_
  by_cases hper : x.st.periods a = x.st.periods b
  · have hbudget : convertToUsecs (x.st.task a).minBudgetTime ≠
        convertToUsecs (x.st.task b).minBudgetTime := by
      intro heq
      exact hne (Prod.ext heq (congrArg convertToUsecs hper))
    have hbefore := hties a ha b hb hper hbudget (hx.ordered.ties a b hab hper)
    have hafter := hy.ordered.ties b a hba (by rw [hpa, hpb, hper])
    exact pair_asymm hy.ordered.nodup hbefore hafter
  · have hsx : ByPeriod x.st.periods [a, b] := List.Pairwise.sublist hab hx.kept.sorted
    have hsy : ByPeriod y.st.periods [b, a] := List.Pairwise.sublist hba hy.kept.sorted
    have hle := List.pairwise_pair.1 hsx
    have hge := List.pairwise_pair.1 hsy
    rw [hpa, hpb] at hge
    rw [timespecCompare_le_iff] at hle hge
    exact hper (by ext <;> omega)

theorem results_eq (hx : HistInv e s₀ x.st x.order l) (hy : HistInv e s₀ y.st y.order l')
    (hcx : Computed e x.st l) (hcy : Computed e y.st l')
    (hsame : SameReservations x.st y.st l l')
    (hfew : distinctPeriods x.st.periods l ≤ 99) (hties : SameTies x y l) :
    SameResults x.st y.st l := by
  have hperm := hsame.perm hx.kept.nodup hy.kept.nodup
  have hper : ∀ u ∈ l, y.st.periods u = x.st.periods u := fun u hu => (hsame.task hu).2.2
  have htgid : ∀ u, (y.st.task u).tgid = (x.st.task u).tgid := fun u =>
    (hy.tgid u).trans (hx.tgid u).symm
  have hclock : x.st.cpuFreq = y.st.cpuFreq := by
    obtain ⟨f, hf, hfreq⟩ := hcx.clock
    obtain ⟨f', hf', hfreq'⟩ := hcy.clock
    rw [sysFreq_congr e (shapes_eq hx hy hsame hties), hf'] at hf
    rw [hfreq, hfreq', Option.some.inj hf]
  refine ⟨hclock, fun t ht => ?_, fun t ht u hux huy => ?_⟩
  · rw [hcx.budget t ht, hcy.budget t (hperm.subset ht), (hsame.task ht).2.1, hclock]
  · -- in both states `u` has the highest rank among the reserved tasks of its process
    have hashed : ∀ {s : KState} {list : List Tid}, (∀ v ∈ list, v ∈ s.pidHash) → t ∈ list →
        u ∈ s.threads t → u ∈ s.pidHash := by
      intro s list hlist ht hu
      rcases s.mem_threads.1 hu with rfl | ⟨hu, -⟩
      · exact hlist _ ht
      · exact hu
    have hx' := hcx.number hfew u (hashed hx.hashed ht hux) ⟨t, ht, x.st.tgid_of_mem_threads hux⟩
    have hfew' : distinctPeriods y.st.periods l' ≤ 99 := by
      rw [← distinctPeriods_perm _ hperm, distinctPeriods, List.map_congr_left hper]
      exact hfew
    have hy' := hcy.number hfew' u (hashed hy.hashed (hperm.subset ht) huy)
      ⟨t, hperm.subset ht, y.st.tgid_of_mem_threads huy⟩
    exact (hx'.congr hperm htgid hper).unique hy'

end Compare

/-- A system that has just started as `s`. -/
def StartedAs (s : KState) (x : HistState) : Prop := x = ⟨s, []⟩

theorem histInv_booted (h : Booted s) (hpow : s.powerScheme = .sysClock) : HistInv e s s [] [] :=
  ⟨kept_booted h, h.binOff, hpow, fun _ => rfl, by simp, by simp, ⟨List.nodup_nil, by simp, by simp⟩,
    fun hne => absurd rfl hne⟩

theorem histOk_of_fresh {x : HistState} {pid : ℤ} {budget : ℕ} {p : Timespec}
    (hlist : OnList x.st list) (hfind : x.st.findTaskByVpid pid = some t) (ht : t ∉ list)
    (hf : (x.st.task t).isBudgetSet = false) : HistOk x (.setProcessBudget pid budget p) := by
  intro u hu l hl
  obtain rfl := Option.some.inj (hfind.symm.trans hu)
  rw [hl.unique hlist]
  refine ⟨fun hmem => absurd hmem ht, fun htrue => ?_⟩
  rw [hf] at htrue
  cases htrue

/-- A reservation that is granted. -/
def GrantedSet (e : Env) (x : HistState) : Cmd → Prop
  | .setProcessBudget pid budget p =>
      (exec e x.st (.setProcessBudget pid budget p)).test (fun y => decide (y.2 = 0)) = true
  | _ => False

instance (e : Env) (x : HistState) : (c : Cmd) → Decidable (GrantedSet e x c)
  | .setProcessBudget pid budget p => inferInstanceAs (Decidable
      ((exec e x.st (.setProcessBudget pid budget p)).test (fun y => decide (y.2 = 0)) = true))
  | .exit _ _ | .fork _ _ _ | .cancelBudget _ | .stopScheduling | .setBinPacking _
  | .startScheduling | .cancelBinPacking => instDecidableFalse

/-- Successful reservations, cancellations of reserved tasks, and exits. -/
def HistCall (e : Env) (x : HistState) : Cmd → Prop
  | .cancelBudget pid => ∃ t, x.st.findTaskByVpid pid = some t ∧ Holds x.st t
  | .exit _ _ => True
  | c => GrantedSet e x c

theorem GrantedSet.histCall {x : HistState} {c : Cmd} (h : GrantedSet e x c) : HistCall e x c := by
  cases c with
  | setProcessBudget pid budget p => exact h
  | _ => exact h.elim

end RtSched
