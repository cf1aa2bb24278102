import RtSched.SysClockWrap

/-!
# `sysclock` on the target, and what it is good for

`sysclock32` and `sysclockPerCpu32` are the calls as the 32-bit target runs them: the speeds come from
`sysclockSpeeds32` and are stored in the tasks.

* The frequency is too low for one of three reasons: the speeds are rounded down to 1/1000, the flag
  is never reset, and the scaled workload may wrap.  `sysclock_safe_iff` is the exact condition under
  which the frequency is nevertheless high enough.
* Where the work before every deadline fits into a register when it is scaled (`WorkFits`), the calls
  are those over unbounded integers (`sysclockPerCpu32_eq`).  There `sysclock_ownSpeed_iff` says when
  each task gets the speed of its own walk.
-/

namespace RtSched

open TimeDemand Loop Word

/-! ### The code -/

/-- `sysclock_per_cpu`. -/
def sysclockPerCpu32 (e : Env) (list : List TaskCt32) (size : ℕ) (s : KState) :
    Call KState (KState × ℕ) :=
  if size ≤ 0 then pure (s, 0)
  else do
    let (alphas, freq) ← Call.ofOption s
      (sysclockSpeeds32 e.fuel (BitVec.ofNat 32 e.maxFrequency) list size)
    pure ((list.zip alphas).foldl (fun s x =>
      s.modifyTask x.1.task fun p => { p with alpha := x.2.toNat }) s, freq.toNat)

/-- `sysclock`. -/
def sysclock32 (e : Env) (list : List TaskCt32) (s : KState) : Call KState (KState × ℕ) :=
  sysclockPerCpu32 e list s.periodicTasksSize s

section Code

variable {e : Env} {list : List TaskCt32} {s : KState}

/-- The speeds are stored as the registers read. -/
theorem sysclockPerCpu32_read (e : Env) (list : List TaskCt32) (size : ℕ) (s : KState) :
    sysclockPerCpu32 e list size s = (if size ≤ 0 then pure (s, 0) else do
      let x ← Call.ofOption s
        ((sysclockSpeeds32 e.fuel (BitVec.ofNat 32 e.maxFrequency) list size).map read32)
      pure (((list.map TaskCt32.ct).zip x.1).foldl writeAlpha s, x.2)) := by
  rw [sysclockPerCpu32]
  cases sysclockSpeeds32 e.fuel (BitVec.ofNat 32 e.maxFrequency) list size with
  | none => rfl
  | some x =>
    have hwrite : ((list.map TaskCt32.ct).zip (read32 x).1).foldl writeAlpha s =
        (list.zip x.1).foldl (fun s x =>
          s.modifyTask x.1.task fun p => { p with alpha := x.2.toNat }) s := by
      rw [read32, List.zip_map, List.foldl_map]
      rfl
    rw [Option.map_some]
    show _ = if size ≤ 0 then pure (s, 0) else
      pure (((list.map TaskCt32.ct).zip (read32 x).1).foldl writeAlpha s, (read32 x).2)
    rw [hwrite]
    rfl

/-- A maximum below 4.2 GHz, in MHz. -/
theorem maxFrequency_bounds (hmax : e.maxFreq < 2 ^ 22) :
    (BitVec.ofNat 32 e.maxFrequency).toNat = e.maxFrequency ∧ e.maxFrequency * 2000 < 2 ^ 32 := by
  have hle : e.maxFrequency ≤ e.maxFreq := Nat.div_le_self _ _
  have hdiv : e.maxFrequency * 1000 ≤ e.maxFreq := Nat.div_mul_le_self _ _
  rw [BitVec.toNat_ofNat, Nat.mod_eq_of_lt (by omega)]
  exact ⟨rfl, by omega⟩

theorem longPeriods_of_proper (hperiod : ∀ c ∈ list, c.period.toNat < 2 ^ 31)
    (h : Positive (list.map TaskCt32.ct)) : LongPeriods list := by
  intro c hc
  have hlt := hperiod c hc
  have hpos : 0 < (c.period.toNat : ℤ) := (h _ (List.mem_map_of_mem hc)).2
  omega

end Code

/-! ### Safety -/

/-- Every frequency of the table at which the enforced budgets would not pass is below one that
some task needs. -/
def SafeTable (e : Env) (list : List TaskCt) : Prop :=
  ∀ f ∈ e.table.filterMap id, ¬ Passes (enforcedBudgets list e.maxFreq f) →
    ∃ i < list.length, ∃ k, NeedsSpeed32 list i k ∧ (f : ℤ) < e.maxFrequency * k

/-- The verdict at the frequency of the table, from what the frequency of `sysclock` exceeds. -/
theorem enforced_table_iff {e : Env} {list : List TaskCt} (h : Proper list)
    (hs : list.Pairwise fun a b => a.period ≤ b.period) (hpass : Passes list)
    (htable : CpufreqTable e) {freq : ℕ} (hfreq : ∀ f : ℕ, f < freq ↔
      ∃ i < list.length, ∃ k, NeedsSpeed32 list i k ∧ (f : ℤ) < e.maxFrequency * k) :
    Passes (enforcedBudgets list e.maxFreq (getTableFrequency e freq)) ↔ SafeTable e list := by
  have hmax := htable.mem
  have hcases := getTableFrequency_cases htable.toSortedTable freq
  constructor
  · intro hok f hf hnot
    rw [← hfreq]
    by_contra hle
    rcases hcases with ⟨hmem, -, hleast⟩ | ⟨-, habove⟩
    · exact hnot (enforced_mono h hs (htable.positive _ hmem) (hleast f hf (not_lt.1 hle)) hok)
    · exact hle (habove f hf)
  · intro hsafe
    by_contra hnot
    rcases hcases with ⟨hmem, hle, -⟩ | ⟨heq, habove⟩
    · have := (hfreq _).2 (hsafe _ hmem hnot)
      omega
    · refine hnot (enforced_mono h hs (htable.positive _ hmax) ?_ ?_)
      · rw [heq]
        exact (habove _ hmax).le
      · rw [enforced_max (htable.positive _ hmax)]
        exact hpass

/-- `sysclock` comes back, with a frequency above `f` exactly when some task needs a speed that gives
one. -/
theorem sysclockSpeeds32_spec {list : List TaskCt32} (hlong : LongPeriods list)
    (h : Proper (list.map TaskCt32.ct)) (hpass : Passes (list.map TaskCt32.ct))
    {maxFrequency : BitVec 32} (hmax : maxFrequency.toNat * 2000 < 2 ^ 32) :
    ∃ n, ∀ fuel, n ≤ fuel → ∃ alphas freq,
      (sysclockSpeeds32 fuel maxFrequency list list.length).map read32 = some (alphas, freq) ∧
      ∀ f : ℕ, f < freq ↔ ∃ i < list.length, ∃ k, NeedsSpeed32 (list.map TaskCt32.ct) i k ∧
        (f : ℤ) < maxFrequency.toNat * k := by
  have hlen : (list.map TaskCt32.ct).length = list.length := List.length_map _
  have hs := speedsOf_proper h
  have hneeds := hs.needs32
  rw [hlen] at hneeds
  refine ⟨2 * ((list.map TaskCt32.ct).map fun c => c.period.toNat).sum + 3, fun fuel hfuel => ?_⟩
  have hwrapped := hs.wrapped fuel hfuel
  rw [hlen] at hwrapped
  refine ⟨_, _, by rw [sysclockSpeeds32_eq (alphaOf32_mod hlong hpass fuel), hwrapped]; rfl,
    fun f => ?_⟩
  rw [Int.lt_toNat, ← lt_maxFrequency_iff hneeds]
  -- no speed is above 2000, so that the product fits
  have hmaxi := le_foldl_max_iff
    ((List.range' 0 list.length).map fun i => greatest (NeedsSpeed32 (list.map TaskCt32.ct) i)) 0
  set m := ((List.range' 0 list.length).map fun i =>
    greatest (NeedsSpeed32 (list.map TaskCt32.ct) i)).foldl (fun m a => if a > m then a else m) 0
  have h0 : 0 ≤ m := (hmaxi 0).2 (Or.inl le_rfl)
  have hle : m ≤ 2000 := by
    rcases (hmaxi m).1 le_rfl with hm | ⟨a, ha, hma⟩
    · omega
    · obtain ⟨i, hi, rfl⟩ := List.mem_map.1 ha
      have hlt : i < list.length := by simpa using List.mem_range'_1.1 hi
      exact ((hneeds i hlt m).2 hma).le
  have hfit : (maxFrequency.toNat * m : ℤ) < 2 ^ 32 := by
    have : (maxFrequency.toNat * m : ℤ) ≤ maxFrequency.toNat * 2000 :=
      mul_le_mul_of_nonneg_left hle (Int.natCast_nonneg _)
    omega
  rw [Int.emod_eq_of_lt (mul_nonneg (Int.natCast_nonneg _) h0) hfit]

/-- **When slowing the clock is safe.**  `sysclock` comes back, and the budgets enforced at the
frequency the table then gives pass the admission test exactly when every frequency of the table at
which they would not is below one that some task needs. -/
theorem sysclock_safe_iff (e : Env) (list : List TaskCt32) (s : KState)
    (hsize : s.periodicTasksSize = list.length) (hperiod : ∀ c ∈ list, c.period.toNat < 2 ^ 31)
    (h : Proper (list.map TaskCt32.ct))
    (hs : (list.map TaskCt32.ct).Pairwise fun a b => a.period ≤ b.period)
    (hpass : Passes (list.map TaskCt32.ct)) (htable : CpufreqTable e) (hmax : e.maxFreq < 2 ^ 22) :
    ∃ n, ∀ fuel, n ≤ fuel → ∃ s' freq, sysclock32 { e with fuel := fuel } list s = .ok (s', freq) ∧
      (Passes (enforcedBudgets (list.map TaskCt32.ct) e.maxFreq (getTableFrequency e freq)) ↔
        SafeTable e (list.map TaskCt32.ct)) := by
  obtain ⟨hnat, hprod⟩ := maxFrequency_bounds hmax
  have hlong := longPeriods_of_proper hperiod h.positive
  obtain ⟨n, hn⟩ := sysclockSpeeds32_spec hlong h hpass (hnat.symm ▸ hprod)
  refine ⟨n, fun fuel hfuel => ?_⟩
  obtain ⟨alphas, freq, hspeeds, hfreq⟩ := hn fuel hfuel
  rw [sysclock32, sysclockPerCpu32_read, hsize]
  by_cases h0 : list.length ≤ 0
  · -- without tasks any frequency will do
    obtain rfl : list = [] := List.eq_nil_of_length_eq_zero (by omega)
    refine ⟨s, 0, rfl, ?_⟩
    refine ⟨fun _ f _ hnot => absurd ?_ hnot, fun _ => ?_⟩ <;> exact ⟨0, rfl⟩
  · refine ⟨((list.map TaskCt32.ct).zip alphas).foldl writeAlpha s, freq, ?_, ?_⟩
    · have hspeeds' : (sysclockSpeeds32 fuel
          (BitVec.ofNat 32 (Env.maxFrequency { e with fuel := fuel })) list list.length).map
          read32 = some (alphas, freq) := hspeeds
      rw [if_neg h0, hspeeds']
      rfl
    · refine enforced_table_iff h hs hpass htable ?_
      rw [List.length_map, ← hnat]
      exact hfreq

theorem sysclock_safe_iff_pair :
    ∃ n, ∀ fuel, n ≤ fuel → ∃ s' freq,
      sysclock32 { twoSpeeds with fuel := fuel } [⟨1, 4, 0⟩, ⟨2, 6, 1⟩]
        { bootState [] .sysClock with periodicTasksSize := 2 } = .ok (s', freq) ∧
      (Passes (enforcedBudgets ([⟨1, 4, 0⟩, ⟨2, 6, 1⟩].map TaskCt32.ct) twoSpeeds.maxFreq
          (getTableFrequency twoSpeeds freq)) ↔
        SafeTable twoSpeeds ([⟨1, 4, 0⟩, ⟨2, 6, 1⟩].map TaskCt32.ct)) :=
  sysclock_safe_iff twoSpeeds [⟨1, 4, 0⟩, ⟨2, 6, 1⟩] _ rfl (by decide) (by unfold Proper; decide)
    (by decide) ⟨20, by decide⟩ cpufreqTable_twoSpeeds (by decide)

/-- One task with 5009 µs in 10 ms needs 500.9 MHz of 1000 MHz; `sysclock` asks for 500 MHz, which is
in the table, and at that frequency its budget is longer than its period. -/
theorem sysclock_unsafe : ¬ ∀ (e : Env) (list : List TaskCt32) (s s' : KState) (freq : ℕ),
    s.periodicTasksSize = list.length → Proper (list.map TaskCt32.ct) →
    ((list.map TaskCt32.ct).Pairwise fun a b => a.period ≤ b.period) →
    Passes (list.map TaskCt32.ct) → CpufreqTable e → sysclock32 e list s = .ok (s', freq) →
    Passes (enforcedBudgets (list.map TaskCt32.ct) e.maxFreq (getTableFrequency e freq)) := by
  intro hall
  obtain ⟨⟨s', freq⟩, hx, hfreq⟩ : ∃ x, sysclock32 twoSpeeds [⟨5009, 10000, 0⟩]
      { bootState [] .sysClock with periodicTasksSize := 1 } = .ok x ∧
      getTableFrequency twoSpeeds x.2 = 500000 :=
    Call.exists_ok_of_test (by decide)
  have hpass := hall twoSpeeds [⟨5009, 10000, 0⟩] _ s' freq rfl (by unfold Proper; decide)
    (by decide) ⟨20, by decide⟩ cpufreqTable_twoSpeeds hx
  rw [hfreq] at hpass
  obtain ⟨t, ht⟩ := (passes_iff (by unfold WfCts; decide)).1 hpass 0 (by decide)
  have hdemand : rtDemand (enforcedBudgets ([⟨5009, 10000, 0⟩].map TaskCt32.ct) twoSpeeds.maxFreq
      500000) 0 t = 10018 := by simp [rtDemand, enforcedBudgets, twoSpeeds, TaskCt32.ct]
  obtain ⟨-, h2, h3⟩ := ht
  rw [hdemand] at h3
  have h4 : t ≤ 10000 := h2
  omega

/-! ### Where nothing wraps -/

/-- The work released before each deadline fits into a register when it is scaled. -/
def WorkFits (list : List TaskCt) : Prop :=
  ∀ i < list.length,
    workBefore list i (list.getD i default).period * scaleUpFactor < 2 ^ 32

/-- The work released before an instant is what has been released up to the one before it. -/
theorem workFits_of_released {list : List TaskCt} (h : WfCts list) (hfits : ∀ i < list.length,
    releasedUpTo list i ((list.getD i default).period - 1) * scaleUpFactor < 2 ^ 32) :
    WorkFits list := by
  intro i hi
  have := hfits i hi
  rwa [releasedUpTo_eq h, sub_add_cancel] at this

section Exact

variable {e : Env} {list : List TaskCt32} {s : KState}

theorem sysclockPerCpu32_eq (hlong : LongPeriods list) (hpass : Passes (list.map TaskCt32.ct))
    (hfits : WorkFits (list.map TaskCt32.ct)) (hmax : e.maxFreq < 2 ^ 22) :
    sysclockPerCpu32 e list list.length s =
      sysclockPerCpu e (list.map TaskCt32.ct) list.length s := by
  obtain ⟨hnat, hprod⟩ := maxFrequency_bounds hmax
  rw [WorkFits, List.length_map] at hfits
  have hfreq : ((BitVec.ofNat 32 e.maxFrequency).toNat * (2 * scaleUpFactor) : ℤ) < 2 ^ 32 := by
    rw [hnat, scaleUpFactor]
    omega
  have hspeeds := sysclock32_agrees hlong hpass hfits hfreq e.fuel
  rw [hnat] at hspeeds
  rw [sysclockPerCpu32_read, hspeeds, sysclockPerCpu]

/-- The walk of a task that starts afresh. -/
theorem alphaOf32_own (hlong : LongPeriods list) (hpass : Passes (list.map TaskCt32.ct))
    (hfits : WorkFits (list.map TaskCt32.ct)) {fuel i : ℕ} (hi : i < list.length) (a : ℤ) :
    (∃ w, alphaOf32 fuel list i true = some w ∧ a = w.alpha.toNat) ↔
      ∃ w, alphaOf fuel (list.map TaskCt32.ct) i true = some w ∧ a = w.alpha := by
  rw [WorkFits, List.length_map] at hfits
  have hrel := alphaOf32_exact hlong hpass hfits fuel i hi true
  generalize alphaOf32 fuel list i true = x at hrel
  generalize alphaOf fuel (list.map TaskCt32.ct) i true = w at hrel
  cases hrel with
  | none => simp
  | @some x w hstep =>
    have hbounds := hstep.alpha
    have halpha : (x.alpha.toNat : ℤ) = w.alpha := by
      rw [hstep.alpha_eq, BitVec.toNat_ofInt]
      simp only [scaleUpFactor] at hbounds
      omega
    simp [halpha]

end Exact

/-- The computation comes back, and every task of the list has the speed of its own walk. -/
def StoresOwnSpeeds32 (list : List TaskCt32) (sysclock : ℕ → Call KState (KState × ℕ)) : Prop :=
  ∃ n, ∀ fuel, n ≤ fuel → ∃ s' freq, sysclock fuel = .ok (s', freq) ∧ ∀ i < list.length,
    ∃ w, alphaOf32 fuel list i true = some w ∧
      ((s'.task (list.getD i default).task).alpha : ℤ) = w.alpha.toNat

/-- **When a task gets the speed of its own walk.**  On an accepted list of tasks with positive
budgets, where nothing wraps, `sysclock` and `sysclock_per_cpu` come back with the speed of its own
walk in every task exactly when no task entered with the flag cleared is asked for less by its first
idle step. -/
theorem sysclock_ownSpeed_iff (e : Env) (list : List TaskCt32) (s : KState)
    (hsize : s.periodicTasksSize = list.length) (hperiod : ∀ c ∈ list, c.period.toNat < 2 ^ 31)
    (h : Positive (list.map TaskCt32.ct)) (hpass : Passes (list.map TaskCt32.ct))
    (hnodup : (list.map TaskCt32.task).Nodup) (hfits : WorkFits (list.map TaskCt32.ct))
    (hmax : e.maxFreq < 2 ^ 22) :
    (StoresOwnSpeeds32 list (fun fuel => sysclock32 { e with fuel := fuel } list s) ↔
      KeepsOwnSpeeds (list.map TaskCt32.ct)) ∧
    (StoresOwnSpeeds32 list
        (fun fuel => sysclockPerCpu32 { e with fuel := fuel } list list.length s) ↔
      KeepsOwnSpeeds (list.map TaskCt32.ct)) := by
  have hlong := longPeriods_of_proper hperiod h
  have hlen : (list.map TaskCt32.ct).length = list.length := List.length_map _
  have hsame : (fun fuel => sysclock32 { e with fuel := fuel } list s) =
      fun fuel => sysclockPerCpu32 { e with fuel := fuel } list list.length s := by
    funext fuel
    rw [sysclock32, hsize]
  have htasks : ((list.map TaskCt32.ct).map TaskCt.task).Nodup := by
    rw [List.map_map]
    exact hnodup
  have hexact := storesOwnSpeeds_iff e _ s h hpass htasks
  rw [hsame, and_self, ← hexact, StoresOwnSpeeds, StoresOwnSpeeds32, hlen]
  refine exists_congr fun n => forall_congr' fun fuel => imp_congr_right fun _ => ?_
  refine exists_congr fun s' => exists_congr fun freq => and_congr ?_ ?_
  · rw [sysclockPerCpu32_eq (e := { e with fuel := fuel }) hlong hpass hfits hmax]
  · refine forall_congr' fun i => imp_congr_right fun hi => ?_
    rw [alphaOf32_own hlong hpass hfits hi, getD_ct]
    rfl

theorem sysclock_ownSpeed_iff_pair :
    (StoresOwnSpeeds32 [⟨1, 4, 0⟩, ⟨2, 6, 1⟩]
        (fun fuel => sysclock32 { twoSpeeds with fuel := fuel } [⟨1, 4, 0⟩, ⟨2, 6, 1⟩]
          { bootState [] .sysClock with periodicTasksSize := 2 }) ↔
      KeepsOwnSpeeds ([⟨1, 4, 0⟩, ⟨2, 6, 1⟩].map TaskCt32.ct)) ∧
    (StoresOwnSpeeds32 [⟨1, 4, 0⟩, ⟨2, 6, 1⟩]
        (fun fuel => sysclockPerCpu32 { twoSpeeds with fuel := fuel } [⟨1, 4, 0⟩, ⟨2, 6, 1⟩] 2
          { bootState [] .sysClock with periodicTasksSize := 2 }) ↔
      KeepsOwnSpeeds ([⟨1, 4, 0⟩, ⟨2, 6, 1⟩].map TaskCt32.ct)) :=
  sysclock_ownSpeed_iff twoSpeeds [⟨1, 4, 0⟩, ⟨2, 6, 1⟩] _ rfl (by decide)
    (by unfold Positive; decide) ⟨20, by decide⟩ (by decide)
    (workFits_of_released (by unfold WfCts; decide) (by decide)) (by decide)

/-- The walk of the second task ends in a busy period.  The third then gets 500, the ratio of its own
budget to the next release; its own walk finds no idle time and leaves 2000. -/
theorem sysclock_not_ownSpeed : ¬ ∀ (e : Env) (list : List TaskCt32) (s s' : KState) (freq : ℕ),
    s.periodicTasksSize = list.length → Positive (list.map TaskCt32.ct) →
    ((list.map TaskCt32.ct).Pairwise fun a b => a.period ≤ b.period) →
    Passes (list.map TaskCt32.ct) → (list.map TaskCt32.task).Nodup →
    sysclock32 e list s = .ok (s', freq) →
    ∀ i < list.length, ∀ w, alphaOf32 e.fuel list i true = some w →
      ((s'.task (list.getD i default).task).alpha : ℤ) = w.alpha.toNat := by
  intro hall
  obtain ⟨⟨s', freq⟩, hx, halpha⟩ : ∃ x, sysclock32 twoSpeeds
      [⟨1, 4, 0⟩, ⟨1, 5, 1⟩, ⟨2, 5, 2⟩]
      { bootState [] .sysClock with periodicTasksSize := 3 } = .ok x ∧ (x.1.task 2).alpha = 500 :=
    Call.exists_ok_of_test (by decide)
  have hown := hall twoSpeeds [⟨1, 4, 0⟩, ⟨1, 5, 1⟩, ⟨2, 5, 2⟩] _ s' freq rfl
    (by unfold Positive; decide) (by decide) ⟨20, by decide⟩ (by decide) hx 2 (by decide)
    ⟨false, 5, 0, 2000⟩ (by decide)
  have hstored : (((s'.task 2).alpha : ℕ) : ℤ) = 2000 := hown
  have h500 : (s'.task 2).alpha = 500 := halpha
  rw [h500] at hstored
  exact absurd hstored (by decide)

end RtSched
