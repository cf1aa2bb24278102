import RtSched.Effect
import RtSched.PmChoice
import RtSched.SysClockSafe

/-!
# When one frequency per task is safe

* `retunePmclock_some`, `retunePmclock_none`: the budgets that stand in the tasks after `sysclock`,
  `pmclock` and `apply_pmclock`;
* `retunePmclock32`: the same with the speeds of the 32-bit target, which are those of unbounded
  integers where the work before every deadline fits when it is scaled (`retunePmclock32_eq`);
* `pmclock_safe_iff`: when the budgets pass the admission test.
-/

namespace RtSched

open TimeDemand Loop LinkRing

/-! ### The run -/

/-- `sys_setProcessBudget` under PM-Clock: the array, `sysclock`, `pmclock` and `apply_pmclock`. -/
def retunePmclock (e : Env) (s : KState) : Call KState KState := do
  let (s, _) ← computePmclock e s
  applyPmclock e s

/-- An entry of the array as the registers hold it. -/
def TaskCt.word (c : TaskCt) : TaskCt32 :=
  ⟨BitVec.ofInt 32 c.budget, BitVec.ofInt 32 c.period, c.task⟩

/-- `retunePmclock` on the 32-bit target: `sysclock` computes in `unsigned long`.  `inflated_freq`
has its workload in 64 bits. -/
def retunePmclock32 (e : Env) (s : KState) : Call KState KState := do
  let list ← makeTaskCtStruct e s
  let (s, _) ← sysclock32 e (list.map TaskCt.word) s
  let s ← pmclock e list s
  applyPmclock e s

/-- A time in microseconds, rounded up. -/
def usecsUp (ts : Timespec) : ℤ := (timespecToNs ts + 999) / 1000

/-- The tasks with the budgets that are enforced. -/
def enforcedCts (s : KState) (list : List Tid) : List TaskCt :=
  list.map fun t => { ctOf s t with budget := usecsUp (s.task t).budgetTime, task := t }

/-- The enforced budget of a task with `budget` microseconds, at the frequency `f`. -/
def pmBudget (maxFreq f : ℕ) (budget : ℤ) : ℤ := (budget * 1000 * maxFreq / f + 999) / 1000

/-- The tasks with their enforced budgets if task `i` is at the frequency `g i`. -/
def pmBudgets (cts : List TaskCt) (maxFreq : ℕ) (g : ℕ → ℕ) : List TaskCt :=
  cts.zipIdx.map fun x => { x.1 with budget := pmBudget maxFreq (g x.2) x.1.budget }

/-- The frequency of task `i` for the speeds `v`. -/
def tableSpeed (e : Env) (v : List ℤ) (i : ℕ) : ℕ := getTableFrequency e (v.getD i 0 * 1000).toNat

section Run

variable {e : Env} {s : KState} {list : List Tid}

theorem makeTaskCtStruct_eq (h : Kept s list) (hne : list ≠ []) (hfuel : list.length < e.fuel) :
    makeTaskCtStruct e s = .ok (timedCts s list) := by
  rw [makeTaskCtStruct, h.periodicTasks_eq hne hfuel]
  show ctArray s s.periodicTasksSize (timedCts s list) = _
  rw [ctArray, timedCts, List.length_map, if_pos h.size.symm]
  rfl

theorem applyPmclock_ok (h : Kept s list) (hne : list ≠ []) (hfuel : list.length < e.fuel) :
    ∃ s', applyPmclock e s = .ok s' ∧
      Rescaled e (fun p => getTableFrequency e p.pmclockFreq) s list s' := by
  have hsat := applyPmclock_sat (e := e) h
  rw [applyPmclock, applyFrequency, h.periodicTasks_eq hne hfuel] at hsat ⊢
  exact ⟨_, rfl, hsat⟩

/-- `foldl_zip_modifyTask` for the array of the listed tasks. -/
theorem foldl_timedCts (h : Kept s list) (s₁ : KState) {v : List ℤ} (hv : v.length = list.length)
    (f : TaskCt × ℤ → TaskStruct → TaskStruct) {i : ℕ} (hi : i < list.length) :
    (((timedCts s list).zip v).foldl (fun s x => s.modifyTask x.1.task (f x)) s₁).task list[i] =
      f ((timedCts s list).getD i default, v.getD i 0) (s₁.task list[i]) := by
  have hlen : (timedCts s list).length = list.length := List.length_map _
  have htasks : (timedCts s list).map TaskCt.task = list := by
    rw [timedCts, List.map_map]
    exact List.map_id list
  have htask : ((timedCts s list).getD i default).task = list[i] := by
    rw [List.getD_eq_getElem _ _ (by omega : i < (timedCts s list).length)]
    simp [timedCts]
  have hx := foldl_zip_modifyTask (htasks.symm ▸ h.nodup) s₁ (hv.trans hlen.symm) f
    (by omega : i < (timedCts s list).length)
  rwa [htask] at hx

/-- What `sysclock` leaves. -/
noncomputable def withAlphas (s : KState) (list : List Tid) : KState :=
  ((timedCts s list).zip (sysSpeeds (timedCts s list))).foldl writeAlpha s

variable (h : Kept s list) (hne : list ≠ []) (hp : Proper (timedCts s list))
  (hs : (timedCts s list).Pairwise fun a b => a.period ≤ b.period) {fuel : ℕ}
  (hlen : list.length < fuel) (hfuel : ∀ c ∈ timedCts s list, 2 * c.period.toNat + 2 < fuel)

include h hp in
theorem withAlphas_alpha {i : ℕ} (hi : i < list.length) :
    (((withAlphas s list).task list[i]).alpha : ℤ) = sysSpeed (timedCts s list) i := by
  have hsize : (timedCts s list).length = list.length := List.length_map _
  have hwrite := foldl_timedCts h s (by rw [sysSpeeds_length, hsize] :
    (sysSpeeds (timedCts s list)).length = list.length)
    (fun x p => { p with alpha := x.2.toNat }) hi
  rw [sysSpeeds_getD _ (by omega)] at hwrite
  have halpha : ((withAlphas s list).task list[i]).alpha =
      (sysSpeed (timedCts s list) i).toNat := congrArg TaskStruct.alpha hwrite
  rw [halpha]
  exact Int.toNat_of_nonneg (sysSpeed_nonneg hp (by omega))

include h hp in
/-- `pmclock` starts from the speeds `sysclock` found. -/
theorem alphas_eq : ((timedCts s list).map fun c => (((withAlphas s list).task c.task).alpha : ℤ)) =
    sysSpeeds (timedCts s list) := by
  refine List.ext_getElem (by rw [List.length_map, sysSpeeds_length]) fun i h1 h2 => ?_
  have hcts : i < (timedCts s list).length := by simpa using h1
  have hi : i < list.length := by simpa [timedCts] using h1
  have htask : ((timedCts s list)[i]).task = list[i] := by simp [timedCts]
  rw [List.getElem_map, htask, withAlphas_alpha h hp hi, ← List.getD_eq_getElem _ 0 h2,
    sysSpeeds_getD _ hcts]

include h hne hp hfuel in
theorem sysclock_eq : ∃ freq, sysclock { e with fuel := fuel } (timedCts s list) s =
    .ok (withAlphas s list, freq) := by
  have hsize : s.periodicTasksSize = (timedCts s list).length := by
    rw [h.size, timedCts, List.length_map]
  have hpos : ¬ (timedCts s list).length ≤ 0 := by
    rw [← hsize, h.size, not_le]
    exact List.length_pos_iff.2 hne
  have hspeeds := sysclockSpeeds_eq hp hfuel (Env.maxFrequency { e with fuel := fuel })
  rw [sysclock, sysclockPerCpu, hsize, if_neg hpos, hspeeds]
  exact ⟨_, rfl⟩

include h hp hs hfuel in
theorem pmclock_eq : pmclock { e with fuel := fuel } (timedCts s list) (withAlphas s list) = (do
    let freqs ← Call.ofOption (withAlphas s list) (chosenSpeeds (timedCts s list))
    pure (((timedCts s list).zip freqs).foldl (writePmclockFreq e) (withAlphas s list))) := by
  rw [← pmclockFreqs_eq hp hs hfuel, ← alphas_eq h hp]
  rfl

include h hne hp hs hlen hfuel in
theorem computePmclock_eq : ∃ freq, computePmclock { e with fuel := fuel } s = (do
    let freqs ← Call.ofOption (withAlphas s list) (chosenSpeeds (timedCts s list))
    pure (((timedCts s list).zip freqs).foldl (writePmclockFreq e) (withAlphas s list), freq)) := by
  obtain ⟨freq, hsys⟩ := sysclock_eq (e := e) h hne hp hfuel
  refine ⟨freq, ?_⟩
  calc computePmclock { e with fuel := fuel } s
      = (do
          let s₂ ← pmclock { e with fuel := fuel } (timedCts s list) (withAlphas s list)
          pure (s₂, freq)) := by
        rw [computePmclock, makeTaskCtStruct_eq h hne hlen]
        show (sysclock { e with fuel := fuel } (timedCts s list) s >>= _) = _
        rw [hsys]
        rfl
    _ = _ := by
        rw [pmclock_eq h hp hs hfuel]
        cases chosenSpeeds (timedCts s list) <;> rfl

include h hne hp hs hlen hfuel in
/-- Without a choice `pmclock` does not come back. -/
theorem retunePmclock_none (hnone : chosenSpeeds (timedCts s list) = none) (s' : KState) :
    retunePmclock { e with fuel := fuel } s ≠ .ok s' := by
  obtain ⟨freq, hcompute⟩ := computePmclock_eq (e := e) h hne hp hs hlen hfuel
  rw [hnone] at hcompute
  rw [retunePmclock, hcompute]
  exact fun heq => nomatch heq

theorem usecsUp_updatedBudget {min : Timespec} {b : ℤ} (hmin : timespecToNs min = b * 1000)
    (maxFreq f : ℕ) : usecsUp (updatedBudget maxFreq f min) = pmBudget maxFreq f b := by
  rw [usecsUp, updatedBudget, timespecToNs_nsToTimespec, hmin, pmBudget]

include h hne hp hs hlen hfuel in
/-- Otherwise every task ends with the budget of the frequency of its speed. -/
theorem retunePmclock_some {v : List ℤ} (hv : chosenSpeeds (timedCts s list) = some v)
    (hmin : ∀ t ∈ list, timespecToNs (s.task t).minBudgetTime =
      convertToUsecs (s.task t).minBudgetTime * 1000) :
    ∃ s', retunePmclock { e with fuel := fuel } s = .ok s' ∧
      enforcedCts s' list = pmBudgets (timedCts s list) e.maxFreq (tableSpeed e v) := by
  obtain ⟨freq, hcompute⟩ := computePmclock_eq (e := e) h hne hp hs hlen hfuel
  rw [hv] at hcompute
  set s₂ := ((timedCts s list).zip v).foldl (writePmclockFreq e) (withAlphas s list)
  have hvlen : v.length = list.length := by
    rw [← pmclockFreqs_eq hp hs hfuel] at hv
    rw [pmclockFreqs_length hv, timedCts, List.length_map]
  have hupdate := (Call.sat_of_eq (computePmclock_sat (e := { e with fuel := fuel }) h) hcompute).1
  have hquiet := TaskUpdate.quiet_of_clock (TaskUpdate.clock_of_speed hupdate)
  obtain ⟨s₃, happly, hr⟩ := applyPmclock_ok (e := { e with fuel := fuel })
    (h.of_quiet hquiet) hne hlen
  refine ⟨s₃, ?_, ?_⟩
  · rw [retunePmclock, hcompute]
    exact happly
  refine List.ext_getElem (by simp [enforcedCts, pmBudgets, timedCts]) fun i h1 h2 => ?_
  have hi : i < list.length := by simpa [enforcedCts] using h1
  have hfreq : (s₂.task list[i]).pmclockFreq = tableSpeed e v i :=
    congrArg TaskStruct.pmclockFreq (foldl_timedCts h (withAlphas s list) hvlen
      (fun x p => { p with pmclockFreq := getTableFrequency e (x.2 * 1000).toNat }) hi)
  have hclock : ClockOnly (s.task list[i]) (s₂.task list[i]) := (hupdate.task _).clockOnly
  have hbudget : (s₃.task list[i]).budgetTime =
      updatedBudget e.maxFreq (tableSpeed e v i) (s.task list[i]).minBudgetTime := by
    have hrescaled := hr.budget _ (List.getElem_mem hi)
    rw [hfreq, hclock.minBudgetTime] at hrescaled
    exact hrescaled.trans (congrArg (updatedBudget e.maxFreq · _) (getTableFrequency_idem e _))
  have hperiod : (s₃.task list[i]).timePeriod = (s.task list[i]).timePeriod :=
    (registry_task (Eq.trans (TaskUpdate.quiet_of_clock hr.update).registry hquiet.registry)
      _).timePeriod
  simp only [enforcedCts, pmBudgets, timedCts, List.getElem_map, List.getElem_zipIdx, hbudget,
    ctOf, hperiod, zero_add]
  rw [usecsUp_updatedBudget (hmin _ (List.getElem_mem hi))]

/-- Entries that fit into registers are read back from them. -/
theorem map_ct_word {cts : List TaskCt} (hbudget : ∀ c ∈ cts, 0 ≤ c.budget ∧ c.budget ≤ c.period)
    (hutil : ∀ c ∈ cts, c.util = 0) (hperiod : ∀ c ∈ cts, c.period < 2 ^ 31) :
    (cts.map TaskCt.word).map TaskCt32.ct = cts := by
  rw [List.map_map]
  refine (List.map_congr_left fun c hc => ?_).trans (List.map_id cts)
  obtain ⟨hb, hbp⟩ := hbudget c hc
  have hlt := hperiod c hc
  have h0 := hutil c hc
  obtain ⟨b, p, u, t⟩ := c
  simp only at hb hbp hlt h0
  simp only [Function.comp, TaskCt.word, TaskCt32.ct, BitVec.toNat_ofInt, id, TaskCt.mk.injEq, h0,
    and_true]
  omega

include h hp in
/-- Where nothing wraps, the target does what the model over unbounded integers does. -/
theorem retunePmclock32_eq (hperiod : ∀ c ∈ timedCts s list, c.period < 2 ^ 31)
    (hpass : Passes (timedCts s list)) (hfits : WorkFits (timedCts s list))
    (hmax : e.maxFreq < 2 ^ 22) : retunePmclock32 e s = retunePmclock e s := by
  have hsat := makeTaskCtStruct_sat h e
  rw [retunePmclock32, retunePmclock, computePmclock]
  cases harr : makeTaskCtStruct e s with
  | error x => rfl
  | ok cts =>
    obtain rfl : cts = timedCts s list :=
      Call.sat_of_eq (Q := fun l => l = timedCts s list) hsat harr
    have hwords : ((timedCts s list).map TaskCt.word).map TaskCt32.ct = timedCts s list := by
      refine map_ct_word (fun c hc => ⟨(hp c hc).1.le, (hp c hc).2.le⟩) (fun c hc => ?_) hperiod
      obtain ⟨t, -, rfl⟩ := List.mem_map.1 hc
      rfl
    have hlen : s.periodicTasksSize = ((timedCts s list).map TaskCt.word).length := by
      rw [List.length_map, timedCts, List.length_map, h.size]
    have hsys : sysclock32 e ((timedCts s list).map TaskCt.word) s =
        sysclock e (timedCts s list) s := by
      have hlong : LongPeriods ((timedCts s list).map TaskCt.word) := by
        refine longPeriods_of_proper (fun c hc => ?_) (by rw [hwords]; exact hp.positive)
        have hlt := hperiod c.ct (hwords ▸ List.mem_map_of_mem hc)
        simp only [TaskCt32.ct] at hlt
        omega
      rw [sysclock32, hlen, sysclockPerCpu32_eq hlong (by rwa [hwords]) (by rwa [hwords]) hmax,
        hwords, sysclock, hlen]
    simp only [Call.ok_bind, hsys]
    cases sysclock e (timedCts s list) s with
    | error x => rfl
    | ok x =>
      obtain ⟨s₁, freq⟩ := x
      simp only [Call.ok_bind]
      cases pmclock e (timedCts s list) s₁ <;> rfl

end Run

/-! ### Safety -/

section Safety

variable {e : Env} {cts : List TaskCt}

theorem pm_passes_iff (h : Proper cts) (hs : cts.Pairwise fun a b => a.period ≤ b.period)
    (maxFreq : ℕ) (g : ℕ → ℕ) : Passes (pmBudgets cts maxFreq g) ↔
      Feasible (fun x : TaskCt × ℕ => pmBudget maxFreq (g x.2) x.1.budget)
        (fun x => x.1.period) (↑cts.zipIdx : Multiset (TaskCt × ℕ)) := by
  have hw : WfCts (pmBudgets cts maxFreq g) := by
    intro c hc
    obtain ⟨x, hx, rfl⟩ := List.mem_map.1 hc
    obtain ⟨hb, hbp⟩ := h x.1 (List.fst_mem_of_mem_zipIdx hx)
    have hnum : 0 ≤ x.1.budget * 1000 * maxFreq / (g x.2 : ℤ) :=
      Int.ediv_nonneg (by positivity) (by positivity)
    refine ⟨?_, by simp only; omega⟩
    simp only [pmBudget]
    omega
  have hs' : (pmBudgets cts maxFreq g).Pairwise fun a b => a.period ≤ b.period := by
    have hfst : (cts.zipIdx.map Prod.fst).Pairwise fun a b => a.period ≤ b.period := by
      rwa [List.zipIdx_map_fst]
    rw [List.pairwise_map] at hfst
    rw [pmBudgets, List.pairwise_map]
    exact hfst
  rw [passes_iff_feasible hw hs', pmBudgets, ← Multiset.map_coe, feasible_map]

theorem pmBudget_anti {maxFreq f g : ℕ} {b : ℤ} (hb : 0 ≤ b) (hf : 0 < f) (hfg : f ≤ g) :
    pmBudget maxFreq g b ≤ pmBudget maxFreq f b := by
  have hle : b * 1000 * maxFreq / (g : ℤ) ≤ b * 1000 * maxFreq / (f : ℤ) :=
    ediv_anti (by positivity) hf hfg
  unfold pmBudget
  omega

/-- Higher frequencies are at least as safe. -/
theorem pm_mono (h : Proper cts) (hs : cts.Pairwise fun a b => a.period ≤ b.period) {maxFreq : ℕ}
    {f g : ℕ → ℕ} (hf : ∀ i < cts.length, 0 < f i) (hfg : ∀ i < cts.length, f i ≤ g i)
    (hpass : Passes (pmBudgets cts maxFreq f)) : Passes (pmBudgets cts maxFreq g) := by
  rw [pm_passes_iff h hs] at hpass ⊢
  refine Feasible.mono_cost hpass (fun x hx => ?_) fun x hx => ?_
  · have hx := Multiset.mem_coe.1 hx
    have hi := List.snd_lt_of_mem_zipIdx hx
    exact pmBudget_anti (h _ (List.fst_mem_of_mem_zipIdx hx)).1.le (hf _ (by simpa using hi))
      (hfg _ (by simpa using hi))
  · have := h _ (List.fst_mem_of_mem_zipIdx (Multiset.mem_coe.1 hx))
    omega

/-- A frequency `apply_pmclock` can be at: one of the table, or above them all. -/
def Offered (e : Env) (f : ℕ) : Prop :=
  f ∈ e.table.filterMap id ∨ ∀ x ∈ e.table.filterMap id, x < f

theorem getTableFrequency_pos (htable : CpufreqTable e) (freq : ℕ) :
    0 < getTableFrequency e freq := by
  rcases getTableFrequency_cases htable.toSortedTable freq with ⟨hmem, -⟩ | ⟨heq, habove⟩
  · exact htable.positive _ hmem
  · rw [heq]
    exact lt_of_le_of_lt (Nat.zero_le _) (habove _ (htable.mem))

theorem offered_getTableFrequency (htable : CpufreqTable e) (freq : ℕ) :
    Offered e (getTableFrequency e freq) := by
  rcases getTableFrequency_cases htable.toSortedTable freq with ⟨hmem, -⟩ | ⟨heq, habove⟩
  · exact Or.inl hmem
  · rw [heq]
    exact Or.inr habove

/-- Among the offered frequencies the table gives the least that is high enough. -/
theorem getTableFrequency_le_iff (htable : CpufreqTable e) {freq f : ℕ} (hf : Offered e f) :
    getTableFrequency e freq ≤ f ↔ freq ≤ f := by
  rcases getTableFrequency_cases htable.toSortedTable freq with ⟨hmem, hle, hleast⟩ | ⟨heq, -⟩
  · refine ⟨hle.trans, fun hfreq => ?_⟩
    rcases hf with hf | hf
    · exact hleast f hf hfreq
    · exact (hf _ hmem).le
  · rw [heq]

/-- There is a choice of speeds, and whatever frequencies the table offers at which the enforced
budgets would not pass, one of them is below the speed chosen for its task. -/
def PmSafe (e : Env) (cts : List TaskCt) : Prop :=
  ∃ v lowest, PmChoice cts v lowest ∧ ∀ g : ℕ → ℕ, (∀ i < cts.length, Offered e (g i)) →
    ¬ Passes (pmBudgets cts e.maxFreq g) → ∃ i < cts.length, (g i : ℤ) < v i * 1000

/-- The verdict at the frequencies of the table. -/
theorem pm_table_iff (h : Proper cts) (hs : cts.Pairwise fun a b => a.period ≤ b.period)
    (htable : CpufreqTable e) (v : List ℤ) :
    Passes (pmBudgets cts e.maxFreq (tableSpeed e v)) ↔
      ∀ g : ℕ → ℕ, (∀ i < cts.length, Offered e (g i)) →
        ¬ Passes (pmBudgets cts e.maxFreq g) → ∃ i < cts.length, (g i : ℤ) < v.getD i 0 * 1000 := by
  constructor
  · intro hpass g hg hnot
    by_contra hall
    push Not at hall
    refine hnot (pm_mono h hs (fun i _ => getTableFrequency_pos htable _) (fun i hi => ?_) hpass)
    have := hall i hi
    refine (getTableFrequency_le_iff htable (hg i hi)).2 ?_
    omega
  · intro hsafe
    by_contra hnot
    obtain ⟨i, hi, hlt⟩ := hsafe (tableSpeed e v)
      (fun i _ => offered_getTableFrequency htable _) hnot
    have hle : (v.getD i 0 * 1000).toNat ≤ tableSpeed e v i :=
      (getTableFrequency_le_iff htable (offered_getTableFrequency htable _)).1 le_rfl
    omega

/-- The condition, in terms of what the loop computes. -/
theorem pmSafe_iff (h : Proper cts) (hs : cts.Pairwise fun a b => a.period ≤ b.period) :
    PmSafe e cts ↔ ∃ freqs, chosenSpeeds cts = some freqs ∧ ∀ g : ℕ → ℕ,
      (∀ i < cts.length, Offered e (g i)) → ¬ Passes (pmBudgets cts e.maxFreq g) →
        ∃ i < cts.length, (g i : ℤ) < freqs.getD i 0 * 1000 := by
  have hgetD : ∀ (v : ℕ → ℤ) (g : ℕ → ℕ),
      (∃ i < cts.length, (g i : ℤ) < (decided cts.length v cts.length).getD i 0 * 1000) ↔
        ∃ i < cts.length, (g i : ℤ) < v i * 1000 := by
    intro v g
    refine exists_congr fun i => and_congr_right fun hi => ?_
    rw [decided_getD hi, if_pos hi]
  constructor
  · rintro ⟨v, lowest, hc, hsafe⟩
    refine ⟨_, hc.chosenSpeeds_eq h hs, fun g hg hnot => ?_⟩
    rw [hgetD]
    exact hsafe g hg hnot
  · rintro ⟨freqs, hfreqs, hsafe⟩
    obtain ⟨v, lowest, hc, rfl⟩ := exists_pmChoice h hs hfreqs
    refine ⟨v, lowest, hc, fun g hg hnot => ?_⟩
    rw [← hgetD]
    exact hsafe g hg hnot

end Safety

end RtSched
