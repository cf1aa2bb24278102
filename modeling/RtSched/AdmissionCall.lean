import RtSched.ClockTotal

/-!
# What `sys_setProcessBudget` returns

The call tests the new reservation against the whole list, makes it, numbers the tasks and computes
the clock.  Where the clock computation comes back (`LargeInv`), so does the call, and its value is
the verdict of the test (`setProcessBudget_returns`).

* For a task that is not listed, the set that is tested is the set that results: the call returns 0
  exactly when the resulting list passes (`setProcessBudget_decides`).
* For a listed task the test counts its old reservation as well.  Success still means that the
  resulting list passes, but a smaller budget may be refused (`setProcessBudget_refuses_less`).
-/

namespace RtSched

open Call TimeDemand

variable {e : Env} {s s₁ : KState} {list : List Tid} {t : Tid} {b p : Timespec}

/-- The call comes back with `r`, if it is given enough turns. -/
def Returns (e : Env) (s : KState) (c : Cmd) (r : ℤ) : Prop :=
  ∃ n, ∀ fuel, n ≤ fuel → ∃ s', exec { e with fuel := fuel } s c = .ok (s', r)

/-! ### The parts of the call -/

theorem reserve_ok (h : Kept s list) (hok : SetOk s list t) (hfuel : list.length < e.fuel)
    (b p : Timespec) : ∃ s₁, reserve e t b p s = .ok s₁ ∧ Kept s₁ (reservedList s t p list) ∧
      Reserved t b p s s₁ := by
  have hsat := reserve_sat (e := e) h hok b p
  obtain ⟨n, links', hdel, hk⟩ := delIfBudgetSet_kept h hok
  have hnot : t ∉ list.erase t := List.Nodup.not_mem_erase h.nodup
  have hcall : reserve e t b p s = addPeriodicTask e.fuel t
      (writeReservation t b p { s with periodicTasksSize := n, links := links' }) := by
    rw [reserve, hdel]
    rfl
  rcases addPeriodicTask_cases (writeReservation_kept hk hnot b p) hnot e.fuel with
    ⟨links'', hadd, -⟩ | ⟨hle, -⟩
  · rw [hcall, hadd] at hsat ⊢
    exact ⟨_, rfl, hsat⟩
  · have := List.length_erase_le (a := t) (l := list)
    omega

section Started

variable (hk : Kept s list) (hne : list ≠ []) (hfuel : list.length < e.fuel)

include hk hne hfuel

theorem setRtPriorities_ok : setRtPriorities e.fuel s = .ok (numberTasks s list, 0) := by
  have hpos : ¬ s.periodicTasksSize ≤ 0 := by
    rw [hk.size, not_le]
    exact List.length_pos_iff.2 hne
  rw [setRtPriorities, if_neg hpos, hk.periodicTasks_eq hne hfuel]
  rfl

theorem applyFrequency_ok (freq : TaskStruct → ℕ) : ∃ s', applyFrequency e freq s = .ok s' := by
  rw [applyFrequency, hk.periodicTasks_eq hne hfuel]
  exact ⟨_, rfl⟩

theorem retuneSysclock_ok (hclock : ClockReturns e s (timedCts s list)) :
    ∃ s', retuneSysclock e s = .ok s' := by
  obtain ⟨⟨s₁, f⟩, -, hsys, -⟩ := hclock
  have hup : TaskUpdate SpeedOnly s s₁ := sat_of_eq (Q := fun x => TaskUpdate SpeedOnly s x.1)
    (sysclock_update e (timedCts s list) s) hsys
  obtain ⟨s₂, happly⟩ := applyFrequency_ok (hk.of_quiet hup.clock_of_speed.quiet_of_clock) hne hfuel
    fun _ => getTableFrequency e f
  rw [retuneSysclock, makeTaskCtStruct_eq hk hne hfuel, ok_bind, hsys, ok_bind]
  simp only [applySysclock, happly, ok_bind]
  exact ⟨_, rfl⟩

theorem retunePmclock_ok (hpow : s.powerScheme = .pmClock)
    (hclock : ClockReturns e s (timedCts s list)) :
    ∃ s₂ f s', computePmclock e s = .ok (s₂, f) ∧ applyPmclock e s₂ = .ok s' := by
  obtain ⟨⟨s₁, f⟩, -, hsys, hpm⟩ := hclock
  obtain ⟨s₂, -, hpm⟩ := hpm hpow
  have hup : TaskUpdate SpeedOnly s s₁ := sat_of_eq (Q := fun x => TaskUpdate SpeedOnly s x.1)
    (sysclock_update e (timedCts s list) s) hsys
  have hup₂ : TaskUpdate SpeedOnly s₁ s₂ := sat_of_eq (pmclock_update e (timedCts s list) s₁) hpm
  have hk₂ := (hk.of_quiet hup.clock_of_speed.quiet_of_clock).of_quiet
    hup₂.clock_of_speed.quiet_of_clock
  obtain ⟨s', happly⟩ := applyFrequency_ok hk₂ hne hfuel fun p => getTableFrequency e p.pmclockFreq
  refine ⟨s₂, f, s', ?_, happly⟩
  simp only [computePmclock, makeTaskCtStruct_eq hk hne hfuel, ok_bind, hsys, hpm]
  rfl

end Started

/-- The last part of the call, for a list with budgets for the clock. -/
theorem launchReservation_ok (h : LargeInv s list) (hne : list ≠ []) (hfuel : list.length < e.fuel)
    (hturns : 2 * ((timedCts s list).map fun c => c.period.toNat).sum + 3 ≤ e.fuel) (curr : Tid)
    (budget : ℕ) : ∃ s', launchReservation e curr budget s = .ok s' := by
  have hq := (numberTasks_update s list).quiet_of_prio
  have hlarge := h.quiet hq
  have hk := hlarge.inv.kept
  have hcts : timedCts (numberTasks s list) list = timedCts s list :=
    timedCts_congr fun t _ => ⟨(registry_task hq.registry t).timePeriod,
      congrArg TaskReg.minBudgetTime (registry_task hq.registry t)⟩
  rw [← hcts] at hturns
  rw [launchReservation, setRtPriorities_ok h.inv.kept hne hfuel, ok_bind]
  dsimp only
  cases hpow : (numberTasks s list).powerScheme with
  | noPm => exact ⟨_, rfl⟩
  | sysClock =>
    have hclock := hlarge.clockReturns (by rw [hpow]; decide) hturns
    exact retuneSysclock_ok hk hne hfuel hclock
  | pmClock =>
    have hclock := hlarge.clockReturns (by rw [hpow]; decide) hturns
    obtain ⟨s₂, f, s', hcompute, happly⟩ := retunePmclock_ok hk hne hfuel hpow hclock
    refine ⟨s', ?_⟩
    simp only [hcompute, ok_bind]
    exact happly

/-! ### The verdict -/

/-- The turns of the clock computation, from the periods that result. -/
theorem Reserved.turns (hr : Reserved t b p s s₁) (list : List Tid) :
    (timedCts s₁ list).map (fun c => c.period.toNat) =
      list.map fun u => (convertToUsecs (if u = t then p else (s.task u).timePeriod)).toNat := by
  rw [timedCts, List.map_map]
  refine List.map_congr_left fun u _ => ?_
  show (convertToUsecs (s₁.task u).timePeriod).toNat = _
  rw [hr.timePeriod]

/-- After the checks of its arguments the call is the test, and what follows the verdict. -/
theorem setProcessBudget_of_verdict {pid : ℤ} {budget : ℕ} {v : Bool} (hset : p.isSet = true)
    (hpid : 0 < pid) (hfind : s.findTaskByVpid pid = some t)
    (hlt : timespecCompare (taskBudgetOf e budget) p < 0) (hoff : s.isBinPackingSet = false)
    (hv : checkAdmission e.fuel (taskBudgetOf e budget) p s = .ok v) :
    exec e s (.setProcessBudget pid budget p) = if v = false then .ok (s, -eperm)
      else setReservation e t budget (taskBudgetOf e budget) p s >>= fun s => pure (s, 0) := by
  have hadmits : admits e (taskBudgetOf e budget) p s = .ok v := by
    rw [admits, hoff]
    exact hv
  show setProcessBudget e pid budget p s = _
  rw [setProcessBudget, if_neg (not_not.2 hset), if_neg (not_le.2 hpid), if_neg (not_le.2 hlt),
    hadmits, ok_bind, hfind]
  rfl

section Decides

variable {pid : ℤ} {budget : ℕ} (h : LargeInv s list)
  (hok : LargeOk e s (.setProcessBudget pid budget p)) (hpid : 0 < pid)
  (hfind : s.findTaskByVpid pid = some t) (hlt : timespecCompare (taskBudgetOf e budget) p < 0)

include h hok hpid hfind hlt

/-- The call comes back, with the verdict on the list and the new reservation. -/
theorem setProcessBudget_returns : ∃ r, Returns e s (.setProcessBudget pid budget p) r ∧
    (r = 0 ∨ r = -eperm) ∧ (r = 0 ↔ Feasible TaskCt.budget TaskCt.period
      (newCt (taskBudgetOf e budget) p ::ₘ (↑(listCts s list) : Multiset TaskCt))) := by
  obtain ⟨hb, hp, hp1, hsmall, hset⟩ := hok
  have hk := h.inv.kept
  have hle := taskBudgetOf_le hp hlt
  obtain ⟨n, v, hn, hv⟩ := checkAdmission_answers hk h.inv.stored
    (convertToUsecs_taskBudgetOf e budget) hp1 hle
  have hcall : ∀ fuel, n ≤ fuel → exec { e with fuel := fuel } s (.setProcessBudget pid budget p) =
      if v = false then .ok (s, -eperm)
      else setReservation { e with fuel := fuel } t budget (taskBudgetOf e budget) p s >>=
        fun s => pure (s, 0) :=
    fun fuel hfuel => setProcessBudget_of_verdict (e := { e with fuel := fuel })
      (isSet_of_usecs hp hp1) hpid hfind hlt h.inv.binOff (hn fuel hfuel)
  cases v with
  | false =>
    refine ⟨-eperm, ⟨n, fun fuel hfuel => ⟨s, hcall fuel hfuel⟩⟩, Or.inr rfl, ?_⟩
    rw [← hv]
    decide
  | true =>
    have hadmitted := hv.1 rfl
    refine ⟨0, ⟨max n (max (list.length + 2) (2 * ((reservedList s t p list).map fun u =>
      (convertToUsecs (if u = t then p else (s.task u).timePeriod)).toNat).sum + 3)),
      fun fuel hfuel => ?_⟩, Or.inl rfl, iff_of_true rfl hadmitted⟩
    obtain ⟨hfn, hfuel⟩ := max_le_iff.1 hfuel
    obtain ⟨hflen, hfturns⟩ := max_le_iff.1 hfuel
    obtain ⟨s₁, hreserve, hk₁, hr⟩ := reserve_ok (e := { e with fuel := fuel }) hk
      (hset t hfind list hk.onList) (by show list.length < fuel; omega) (taskBudgetOf e budget) p
    -- the test was passed, so the clock computation is made for a list that passes
    have hadm : Admitted s list (taskBudgetOf e budget) p :=
      sat_of_eq (checkAdmission_sat hk fuel (taskBudgetOf e budget) p) (hn fuel hfn) rfl
    have hlarge := h.reserved hk₁ hr hp hp1 hsmall (by rw [usecs_taskBudgetOf]; exact_mod_cast hb)
      hle hadm
    have hmem : t ∈ reservedList s t p list := mem_reservedList.2 (Or.inl rfl)
    have hlen : (reservedList s t p list).length ≤ list.length + 1 := by
      rw [reservedList, length_insertByPeriod]
      exact Nat.add_le_add_right List.length_erase_le 1
    obtain ⟨s₂, hlaunch⟩ := launchReservation_ok (e := { e with fuel := fuel }) hlarge
      (List.ne_nil_of_mem hmem) (by show _ < fuel; omega) (by rw [hr.turns]; exact hfturns) t budget
    refine ⟨s₂, (hcall fuel hfn).trans ?_⟩
    have hoff : s₁.isBinPackingSet = false := hlarge.inv.binOff
    simp only [Bool.true_eq_false, if_false, setReservation, hreserve, ok_bind, hoff,
      Bool.false_eq_true, hlaunch]
    rfl

end Decides

/-- **Admission decides the set that results.**  In every run of reservations, cancellations and exits
outside bin-packing mode, a call that passes the checks of its arguments comes back with 0 or
`-EPERM`.  With 0 the resulting list passes; and for a task without a reservation the call returns 0
whenever it does. -/
theorem setProcessBudget_decides (e : Env) {s : KState} (h : Reach Booted (LargeOk e) (exec e) s)
    {pid : ℤ} {budget : ℕ} {p : Timespec} {t : Tid} {list : List Tid}
    (hok : LargeOk e s (.setProcessBudget pid budget p)) (hpid : 0 < pid)
    (hfind : s.findTaskByVpid pid = some t) (hlt : timespecCompare (taskBudgetOf e budget) p < 0)
    (hlist : OnList s list) :
    ∃ r, Returns e s (.setProcessBudget pid budget p) r ∧ (r = 0 ∨ r = -eperm) ∧
      (r = 0 → Passes (resultingCts s t (taskBudgetOf e budget) p list)) ∧
      (t ∉ list → Passes (resultingCts s t (taskBudgetOf e budget) p list) → r = 0) := by
  obtain ⟨list', hinv⟩ := reach_largeInv h
  obtain rfl := hlist.unique hinv.inv.kept.onList
  obtain ⟨r, hret, hr, hiff⟩ := setProcessBudget_returns hinv hok hpid hfind hlt
  obtain ⟨-, hp, hp1, -, -⟩ := hok
  have hb := convertToUsecs_taskBudgetOf e budget
  have hresult := passes_resulting (t := t) hinv.inv.kept hinv.inv.stored hb hp hp1
  refine ⟨r, hret, hr, fun h0 => ?_, fun hnot hpass => ?_⟩
  · rw [hresult]
    exact feasible_erase ⟨hb, hp1⟩ hinv.inv.stored (hiff.1 h0)
  · rw [hresult, List.erase_of_not_mem hnot] at hpass
    exact hiff.2 hpass

/-- Task 1 has 100 ms in 1 s under SysClock.  Task 2 is granted 900 ms in 2 s, and refused 950 ms in
1 s. -/
theorem setProcessBudget_decides_pair :
    ∃ s, Reach Booted (LargeOk twoSpeeds) (exec twoSpeeds) s ∧ OnList s [1] ∧
      Returns twoSpeeds s (.setProcessBudget 2 900000000 ⟨2, 0⟩) 0 ∧
      Returns twoSpeeds s (.setProcessBudget 2 950000000 ⟨1, 0⟩) (-eperm) := by
  have hboot := booted_bootState [1, 2] .sysClock
  have hok : LargeOk twoSpeeds (bootState [1, 2] .sysClock) (.setProcessBudget 1 100000000 ⟨1, 0⟩) :=
    ⟨by decide, listedOk_of_empty (kept_booted hboot).onList (by decide) (by decide) (by decide)⟩
  obtain ⟨x, hx, hlist, hflag, hfind, hpow, hgranted, hrefused⟩ : ∃ x, exec twoSpeeds
      (bootState [1, 2] .sysClock) (.setProcessBudget 1 100000000 ⟨1, 0⟩) = .ok x ∧ OnList x.1 [1] ∧
      (x.1.task 2).isBudgetSet = false ∧ x.1.findTaskByVpid 2 = some 2 ∧
      x.1.powerScheme = .sysClock ∧
      resultingCts x.1 2 (taskBudgetOf twoSpeeds 900000000) ⟨2, 0⟩ [1] =
        [⟨100000, 1000000, 0, 0⟩, ⟨900000, 2000000, 0, 0⟩] ∧
      resultingCts x.1 2 (taskBudgetOf twoSpeeds 950000000) ⟨1, 0⟩ [1] =
        [⟨100000, 1000000, 0, 0⟩, ⟨950000, 1000000, 0, 0⟩] :=
    exists_ok_of_test (by decide)
  have hreach := (Reach.start hboot).step hok hx
  have hok₁ : LargeOk twoSpeeds x.1 (.setProcessBudget 2 900000000 ⟨2, 0⟩) :=
    ⟨by rw [hpow]; decide, listedOk_of_unlisted hlist hfind (by decide) hflag (by decide) (by decide)
      (by decide)⟩
  have hok₂ : LargeOk twoSpeeds x.1 (.setProcessBudget 2 950000000 ⟨1, 0⟩) :=
    ⟨by rw [hpow]; decide, listedOk_of_unlisted hlist hfind (by decide) hflag (by decide) (by decide)
      (by decide)⟩
  obtain ⟨r, hr, -, -, hpass⟩ :=
    setProcessBudget_decides twoSpeeds hreach hok₁ (by decide) hfind (by decide) hlist
  obtain ⟨r', hr', hcases, hfail, -⟩ :=
    setProcessBudget_decides twoSpeeds hreach hok₂ (by decide) hfind (by decide) hlist
  obtain rfl : r = 0 := by
    refine hpass (by decide) ?_
    rw [hgranted]
    exact ⟨20, by decide⟩
  have hne : r' ≠ 0 := by
    intro h0
    have hpassed := hfail h0
    rw [hrefused] at hpassed
    exact Bool.false_ne_true ((checkAdmissionList_passes
      (by decide : checkAdmissionList 20 [⟨100000, 1000000, 0, 0⟩, ⟨950000, 1000000, 0, 0⟩] 2 =
        some false)).2 hpassed)
  obtain rfl := hcases.resolve_left hne
  exact ⟨x.1, hreach, hlist, hr, hr'⟩

/-- A task with 900 ms in 1 s asks for 200 ms in 1 s and is refused. -/
theorem setProcessBudget_refuses_less :
    ¬ ∀ e s, Reach Booted AdmissionOk (exec e) s → ∀ (pid : ℤ) (budget : ℕ) (p : Timespec) (t : Tid),
      0 < pid → s.findTaskByVpid pid = some t → (s.task t).tgid = t → p.Normalised →
      1 ≤ convertToUsecs p → timespecCompare (taskBudgetOf e budget) p < 0 →
      ∀ list s' r, OnList s list → setProcessBudget e pid budget p s = .ok (s', r) →
        (r = 0 ↔ Passes (resultingCts s t (taskBudgetOf e budget) p list)) := by
  intro h
  have hboot := booted_bootState [1] .noPm
  have hok : AdmissionOk (bootState [1] .noPm) (.setProcessBudget 1 900000000 ⟨1, 0⟩) :=
    ⟨by decide, by decide, by decide⟩
  obtain ⟨x, hx, hlist, hfind, hlead, hresult, htest⟩ : ∃ x, exec twoSpeeds (bootState [1] .noPm)
      (.setProcessBudget 1 900000000 ⟨1, 0⟩) = .ok x ∧ OnList x.1 [1] ∧
      x.1.findTaskByVpid 1 = some 1 ∧ (x.1.task 1).tgid = 1 ∧
      resultingCts x.1 1 (taskBudgetOf twoSpeeds 200000000) ⟨1, 0⟩ [1] = [⟨200000, 1000000, 0, 0⟩] ∧
      (setProcessBudget twoSpeeds 1 200000000 ⟨1, 0⟩ x.1).test
        (fun y => decide (y.2 ≠ 0)) = true :=
    exists_ok_of_test (by decide)
  obtain ⟨y, hy, hne⟩ := exists_ok_of_test htest
  have hiff := h twoSpeeds x.1 ((Reach.start hboot).step hok hx) 1 200000000 ⟨1, 0⟩ 1 (by decide)
    hfind hlead (by decide) (by decide) (by decide) [1] y.1 y.2 hlist hy
  rw [hresult] at hiff
  exact hne (hiff.2 ⟨20, by decide⟩)

end RtSched
