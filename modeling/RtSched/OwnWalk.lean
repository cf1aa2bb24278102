import RtSched.SysClock
import Mathlib.Algebra.Order.Archimedean.Real.Basic

/-!
# A task's own walk

The walk of `sysclock` for a task that starts with `in_bzp = 1`, whatever the other tasks left.

* Where the tasks leave idle time before the task's deadline, it finds the lowest ratio of the work
  released to the time passed, over every real instant up to the deadline
  (`ownWalk_minDemand`); the limit for one idle step does not matter.
* `sysclock` clears the flag for the next task when a walk ends in a busy period.  The speed a task
  then gets is the lower one of its own and that of its first idle step
  (`speedAtLeast_stale_iff`), which gives the exact condition for the two to agree
  (`storesOwnSpeeds_iff`).
-/

namespace RtSched

open TimeDemand Loop

/-- `alphaOf`, with another limit for one idle step. -/
def alphaOfWith (cap : ℤ) (fuel : ℕ) (list : List TaskCt) (i : ℕ) (inBzp : Bool) : Option Walk :=
  run (walkTurnWith cap fuel list i) fuel
    ⟨inBzp, (list.getD i default).budget, 0, 2 * scaleUpFactor⟩

/-- The work the tasks `0 … i` have released before a real instant. -/
noncomputable def releasedBefore (list : List TaskCt) (i : ℕ) (t : ℝ) : ℝ :=
  ((list.take (i + 1)).map fun c => (⌈t / c.period⌉ : ℝ) * c.budget).sum

/-- The work the tasks `0 … i` have released up to and including a real instant. -/
noncomputable def releasedBy (list : List TaskCt) (i : ℕ) (t : ℝ) : ℝ :=
  ((list.take (i + 1)).map fun c => ((⌊t / c.period⌋ : ℝ) + 1) * c.budget).sum

/-- The work released by the tasks `0 … i`, in proportion to the time, at every instant up to the
deadline of task `i`. -/
def demandRatios (list : List TaskCt) (i : ℕ) : Set ℝ :=
  {x | ∃ t : ℝ, 0 < t ∧ t ≤ (list.getD i default).period ∧ x = releasedBefore list i t / t}

section Ratio

variable {list : List TaskCt} {i : ℕ}

theorem releasedBefore_eq (h : Positive list) (t : ℝ) :
    releasedBefore list i t = (workBefore list i ⌈t⌉ : ℝ) := by
  rw [releasedBefore, workBefore, demand, Multiset.map_coe, Multiset.sum_coe, Int.cast_list_sum,
    List.map_map]
  congr 1
  refine List.map_congr_left fun c hc => ?_
  rw [ceil_div_eq_ceil_ceil t (h.take _ c hc).2]
  simp

theorem releasedBy_eq (h : Positive list) (t : ℝ) :
    releasedBy list i t = (workBefore list i (⌊t⌋ + 1) : ℝ) := by
  rw [releasedBy, ← releasedUpTo_eq h.wf, releasedUpTo, Int.cast_list_sum, List.map_map]
  congr 1
  refine List.map_congr_left fun c hc => ?_
  rw [floor_div_eq_floor_ediv t (h.take _ c hc).2]
  simp

/-- Some instant before the deadline is idle. -/
def HasIdle (list : List TaskCt) (i : ℕ) : Prop :=
  ∃ t, 0 < t ∧ t ≤ (list.getD i default).period ∧ 0 < spare list i t

theorem hasIdle_of_releasedBy (h : Positive list) {t : ℝ} (h0 : 0 ≤ t)
    (hlt : t < (list.getD i default).period) (hidle : releasedBy list i t ≤ t) :
    HasIdle list i := by
  have hfloor : 0 ≤ ⌊t⌋ := Int.floor_nonneg.2 h0
  have hend : ⌊t⌋ < (list.getD i default).period := Int.floor_lt.2 hlt
  rw [releasedBy_eq h, ← Int.le_floor] at hidle
  refine ⟨⌊t⌋ + 1, by omega, by omega, ?_⟩
  unfold spare
  omega

/-- Where there is idle time, the walk may as well look at every instant: the busy ones do not ask
for less than the full speed. -/
theorem speedAtLeast_fresh_iff (hidle : HasIdle list i) (k : ℤ) :
    SpeedAtLeast list i (0, 0) k ↔ ∀ t, 0 < t → t ≤ (list.getD i default).period →
      k * t ≤ workBefore list i t * scaleUpFactor := by
  obtain ⟨u, hu, hup, hspare⟩ := hidle
  unfold spare at hspare
  -- the idle instant bounds the speed by the full one
  have hbound : k * u ≤ workBefore list i u * scaleUpFactor → k ≤ 1000 := by
    intro hk
    simp only [scaleUpFactor] at hk
    by_contra hgt
    nlinarith
  constructor
  · intro hk t ht htp
    rcases lt_or_ge 0 (spare list i t) with hs | hs
    · exact hk.later t ht htp hs
    · have hle := hbound (hk.later u hu hup (by unfold spare; omega))
      unfold spare at hs
      simp only [scaleUpFactor]
      nlinarith
  · intro hall
    refine ⟨(hbound (hall u hu hup)).trans (by norm_num [scaleUpFactor]), by simp,
      fun t ht htp _ => hall t ht htp⟩

/-- Between two integer instants the ratio falls. -/
theorem ratio_ceil_le (h : Positive list) (hi : i < list.length) {u : ℝ} (hu : 0 < u) :
    (workBefore list i ⌈u⌉ : ℝ) / ⌈u⌉ ≤ releasedBefore list i u / u := by
  have hpos : 0 ≤ workBefore list i ⌈u⌉ :=
    (h.get hi).1.le.trans (budget_le_workBefore h hi (Int.ceil_pos.2 hu))
  rw [releasedBefore_eq h]
  exact div_le_div_of_nonneg_left (by exact_mod_cast hpos) hu (Int.le_ceil u)

theorem exists_minRatio (h : Positive list) (hi : i < list.length) :
    ∃ m, IsLeast (demandRatios list i) m := by
  have hne : (Finset.Icc 1 (list.getD i default).period).Nonempty :=
    ⟨1, Finset.mem_Icc.2 ⟨le_rfl, (h.get hi).2⟩⟩
  obtain ⟨t, ht, hmin⟩ := Finset.exists_min_image _
    (fun t : ℤ => (workBefore list i t : ℝ) / t) hne
  obtain ⟨h1, hle⟩ := Finset.mem_Icc.1 ht
  refine ⟨_, ⟨t, by exact_mod_cast h1, by exact_mod_cast hle, rfl⟩, ?_⟩
  rintro x ⟨u, hu, hup, rfl⟩
  rw [releasedBefore_eq h, Int.ceil_intCast]
  exact (hmin ⌈u⌉ (Finset.mem_Icc.2 ⟨Int.ceil_pos.2 hu, Int.ceil_le.2 hup⟩)).trans
    (ratio_ceil_le h hi hu)

/-- A speed is not above the lowest ratio exactly when it is enough at every instant. -/
theorem le_minRatio_iff (h : Positive list) (hi : i < list.length) {m : ℝ}
    (hm : IsLeast (demandRatios list i) m) (k : ℤ) :
    k ≤ ⌊1000 * m⌋ ↔ ∀ t, 0 < t → t ≤ (list.getD i default).period →
      k * t ≤ workBefore list i t * scaleUpFactor := by
  have hat : ∀ t : ℤ, 0 < t → ((k : ℝ) ≤ 1000 * ((workBefore list i t : ℝ) / t) ↔
      k * t ≤ workBefore list i t * scaleUpFactor) := by
    intro t ht
    have ht' : (0 : ℝ) < t := by exact_mod_cast ht
    rw [← mul_div_assoc, le_div_iff₀ ht', mul_comm (1000 : ℝ)]
    exact_mod_cast Iff.rfl
  rw [Int.le_floor]
  constructor
  · intro hk t ht htp
    rw [← hat t ht]
    refine hk.trans (mul_le_mul_of_nonneg_left (hm.2 ?_) (by norm_num))
    refine ⟨t, by exact_mod_cast ht, by exact_mod_cast htp, ?_⟩
    rw [releasedBefore_eq h, Int.ceil_intCast]
  · intro hall
    obtain ⟨u, hu, hup, rfl⟩ := hm.1
    have hk := (hat ⌈u⌉ (Int.ceil_pos.2 hu)).2 (hall ⌈u⌉ (Int.ceil_pos.2 hu) (Int.ceil_le.2 hup))
    exact hk.trans (mul_le_mul_of_nonneg_left (ratio_ceil_le h hi hu) (by norm_num))

/-- **The walk finds the lowest ratio of demand to time.**  For a task whose deadline comes after
some idle time, the walk that starts fresh comes back with the lowest ratio of the work released to
the time passed, over every real instant up to the deadline, rounded down to 1/1000.  It does so for
every limit of one idle step. -/
theorem ownWalk_minDemand (h : Positive list) (hi : i < list.length)
    (hbp : (list.getD i default).budget < (list.getD i default).period) {t : ℝ} (h0 : 0 ≤ t)
    (hlt : t < (list.getD i default).period) (hidle : releasedBy list i t ≤ t) :
    ∃ m, IsLeast (demandRatios list i) m ∧ ∃ n, ∀ fuel, n ≤ fuel →
      (∃ w, alphaOf fuel list i true = some w ∧ w.alpha = ⌊1000 * m⌋) ∧
      ∀ cap : ℤ, 1 ≤ cap → ∃ w, alphaOfWith cap fuel list i true = some w ∧
        w.alpha = ⌊1000 * m⌋ := by
  obtain ⟨m, hm⟩ := exists_minRatio h hi
  refine ⟨m, hm, 2 * (list.getD i default).period.toNat + 3, fun fuel hfuel => ?_⟩
  have hwith : ∀ cap : ℤ, 1 ≤ cap → ∃ w, alphaOfWith cap fuel list i true = some w ∧
      w.alpha = ⌊1000 * m⌋ := by
    intro cap hcap
    have hturns : (list.getD i default).period.toNat + 1 < fuel := by omega
    have hsteps : 2 * (list.getD i default).period.toNat + 1 < fuel := by omega
    obtain ⟨w, hw, hres⟩ := walk_specWith h hcap (walkInv_fresh h hi hbp) hturns hsteps
    refine ⟨w, hw, eq_of_forall_le_iff fun k => ?_⟩
    rw [← hres.speed, le_minRatio_iff h hi hm]
    exact speedAtLeast_fresh_iff (hasIdle_of_releasedBy h h0 hlt hidle) k
  exact ⟨hwith 234567 (by norm_num), hwith⟩

theorem ownWalk_minDemand_pair :
    ∃ m, IsLeast (demandRatios [⟨1, 4, 0, 0⟩, ⟨2, 6, 0, 1⟩] 1) m ∧ ∃ n, ∀ fuel, n ≤ fuel →
      (∃ w, alphaOf fuel [⟨1, 4, 0, 0⟩, ⟨2, 6, 0, 1⟩] 1 true = some w ∧ w.alpha = ⌊1000 * m⌋) ∧
      ∀ cap : ℤ, 1 ≤ cap → ∃ w,
        alphaOfWith cap fuel [⟨1, 4, 0, 0⟩, ⟨2, 6, 0, 1⟩] 1 true = some w ∧
          w.alpha = ⌊1000 * m⌋ := by
  have hidle : releasedBy [⟨1, 4, 0, 0⟩, ⟨2, 6, 0, 1⟩] 1 3 ≤ 3 := by
    have h4 : ⌊(3 : ℝ) / 4⌋ = 0 := by norm_num
    have h6 : ⌊(3 : ℝ) / 6⌋ = 0 := by norm_num
    simp [releasedBy, h4, h6]
    norm_num
  exact ownWalk_minDemand (by unfold Positive; decide) (by decide) (by decide)
    (by norm_num : (0 : ℝ) ≤ 3) (by norm_num) hidle

end Ratio

/-! ### What the previous task leaves -/

/-- For every task that is entered with the flag cleared, the first idle step, from its budget to
the next release, does not ask for less than the task's own walk. -/
def KeepsOwnSpeeds (list : List TaskCt) : Prop :=
  ∀ i < list.length, fresh list i = false → ∀ k, SpeedAtLeast list i (0, 0) k →
    k * nextRelease list i (list.getD i default).budget ≤
      (list.getD i default).budget * scaleUpFactor

/-- The computation comes back, and every task of the list has the speed of its own walk. -/
def StoresOwnSpeeds (list : List TaskCt) (sysclock : ℕ → Call KState (KState × ℕ)) : Prop :=
  ∃ n, ∀ fuel, n ≤ fuel → ∃ s' freq, sysclock fuel = .ok (s', freq) ∧ ∀ i < list.length,
    ∃ w, alphaOf fuel list i true = some w ∧
      ((s'.task (list.getD i default).task).alpha : ℤ) = w.alpha

section Own

variable {list : List TaskCt} {i : ℕ}

/-- A task entered with the flag cleared gets the lower one of its own speed and that of the first
idle step. -/
theorem speedAtLeast_stale_iff (h : Positive list) (hi : i < list.length)
    (hbp : (list.getD i default).budget < (list.getD i default).period) (k : ℤ) :
    SpeedAtLeast list i (walkStart list i false) k ↔ SpeedAtLeast list i (0, 0) k ∧
      k * nextRelease list i (list.getD i default).budget ≤
        (list.getD i default).budget * scaleUpFactor := by
  obtain ⟨hb, -⟩ := h.get hi
  have hle : (list.getD i default).budget ≤ nextRelease list i (list.getD i default).budget := by
    have := nextRelease_eq h hi hb hbp.le
    have := idleDuration_nonneg h.wf hb.le hbp.le i
    omega
  have hstart : walkStart list i false = (nextRelease list i (list.getD i default).budget,
    nextRelease list i (list.getD i default).budget - (list.getD i default).budget) := rfl
  rw [hstart]
  set tau := nextRelease list i (list.getD i default).budget
  set b := (list.getD i default).budget
  have hsub : tau - (tau - b) = b := by omega
  constructor
  · intro hk
    have hfirst : k * tau ≤ b * scaleUpFactor := by simpa only [hsub] using hk.first
    refine ⟨⟨hk.le, by simp, fun t ht htp _ => ?_⟩, hfirst⟩
    have hwork := budget_le_workBefore h hi ht
    rcases le_or_gt t tau with htt | htt
    · -- up to the next release the task's own budget is work enough
      simp only [scaleUpFactor] at hfirst ⊢
      rcases le_or_gt k 0 with hk0 | hk0 <;> nlinarith
    · rcases lt_or_ge (tau - b) (spare list i t) with hs | hs
      · exact hk.later t htt htp hs
      · unfold spare at hs
        simp only [scaleUpFactor] at hfirst ⊢
        have hk1 : k ≤ 1000 := by
          by_contra hgt
          nlinarith
        nlinarith
  · rintro ⟨hk, hfirst⟩
    refine ⟨hk.le, by simpa only [hsub] using hfirst, fun t ht htp hs => ?_⟩
    exact hk.later t (lt_of_le_of_lt (hb.le.trans hle) ht) htp (lt_of_le_of_lt (by simp only; omega) hs)

/-- `sysclock` finds a task's own speed exactly when the task is entered fresh or its first idle step
does not ask for less. -/
theorem sysSpeed_eq_iff (h : Proper list) (hi : i < list.length) {a : ℤ}
    (ha : ∀ k, SpeedAtLeast list i (0, 0) k ↔ k ≤ a) :
    sysSpeed list i = a ↔ (fresh list i = false → ∀ k, SpeedAtLeast list i (0, 0) k →
      k * nextRelease list i (list.getD i default).budget ≤
        (list.getD i default).budget * scaleUpFactor) := by
  have heq : sysSpeed list i = a ↔ ∀ k, NeedsSpeed list i k ↔ SpeedAtLeast list i (0, 0) k := by
    constructor
    · intro hspeed k
      rw [needsSpeed_iff h hi, ha, hspeed]
    · intro hk
      exact eq_of_forall_le_iff fun k => by rw [← needsSpeed_iff h hi, hk, ha]
  rw [heq]
  unfold NeedsSpeed
  cases hf : fresh list i with
  | true => exact ⟨fun _ => Bool.noConfusion, fun _ _ => Iff.rfl⟩
  | false =>
    constructor
    · intro hk _ k hown
      exact ((speedAtLeast_stale_iff h.positive hi (h.get hi).2 k).1 ((hk k).2 hown)).2
    · intro hk k
      rw [speedAtLeast_stale_iff h.positive hi (h.get hi).2]
      exact and_iff_left_of_imp (hk rfl k)

/-- In an accepted list of two or more tasks every budget is below its period. -/
theorem proper_of_passes (h : Positive list) (hpass : Passes list) (hlen : 2 ≤ list.length) :
    Proper list := by
  intro c hc
  refine ⟨(h c hc).1, ?_⟩
  have hutil := hpass.utilisation_le h.wf
  obtain ⟨ys, hys⟩ := Multiset.exists_cons_of_mem (Multiset.mem_coe.2 hc)
  have hcard : (↑list : Multiset TaskCt).card = ys.card + 1 := by rw [hys, Multiset.card_cons]
  rw [Multiset.coe_card] at hcard
  obtain ⟨d, hd⟩ := Multiset.card_pos_iff_exists_mem.1 (by omega : 0 < ys.card)
  obtain ⟨zs, rfl⟩ := Multiset.exists_cons_of_mem hd
  have hmem : ∀ a ∈ c ::ₘ d ::ₘ zs, a ∈ list := by
    intro a ha
    rwa [← hys, Multiset.mem_coe] at ha
  rw [hys] at hutil
  exact cost_lt_period (fun a ha => (h a (hmem a ha)).1) (fun a ha => (h a (hmem a ha)).2) hutil

/-- Only a task alone can have its whole period for budget. -/
theorem single_of_not_proper (h : Positive list) (hpass : Passes list) (hproper : ¬ Proper list) :
    ∃ c, list = [c] ∧ c.period ≤ c.budget := by
  have hlen : ¬ 2 ≤ list.length := fun hlen => hproper (proper_of_passes h hpass hlen)
  obtain ⟨c, rfl⟩ : ∃ c, list = [c] := by
    match list, hproper, hlen with
    | [], hproper, _ => exact absurd (fun c hc => by simp at hc) hproper
    | [c], _, _ => exact ⟨c, rfl⟩
    | _ :: _ :: _, _, hlen => simp at hlen
  refine ⟨c, rfl, ?_⟩
  by_contra hlt
  refine hproper fun d hd => ?_
  obtain rfl := List.mem_singleton.1 hd
  exact ⟨(h d (by simp)).1, by omega⟩

/-- The speeds `sysclock` computes are those it stores. -/
theorem sysclockPerCpu_stores (e : Env) (s : KState) (hnodup : (list.map TaskCt.task).Nodup)
    {fuel freq : ℕ} {alphas : List ℤ} (hlen : alphas.length = list.length)
    (hspeeds : sysclockSpeeds fuel e.maxFrequency list list.length = some (alphas, freq)) :
    ∃ s' freq', sysclockPerCpu { e with fuel := fuel } list list.length s = .ok (s', freq') ∧
      ∀ i < list.length,
        (s'.task (list.getD i default).task).alpha = (alphas.getD i 0).toNat := by
  rw [sysclockPerCpu]
  by_cases h0 : list.length ≤ 0
  · exact ⟨s, 0, if_pos h0, fun i hi => absurd hi (by omega)⟩
  refine ⟨(list.zip alphas).foldl writeAlpha s, freq, ?_, fun i hi => ?_⟩
  · have hspeeds' : sysclockSpeeds fuel (Env.maxFrequency { e with fuel := fuel }) list
        list.length = some (alphas, freq) := hspeeds
    rw [if_neg h0, hspeeds']
    rfl
  · exact congrArg TaskStruct.alpha (foldl_zip_modifyTask hnodup s hlen
      (fun x p => { p with alpha := x.2.toNat }) hi)

theorem storesOwn_iff (h : Proper list) (hnodup : (list.map TaskCt.task).Nodup) (e : Env)
    (s : KState) :
    StoresOwnSpeeds list (fun fuel => sysclockPerCpu { e with fuel := fuel } list list.length s) ↔
      KeepsOwnSpeeds list := by
  -- with enough fuel, what is stored and what the task's own walk finds
  have hstored : ∀ fuel, 2 * (list.map fun c => c.period.toNat).sum + 3 ≤ fuel →
      ∃ s' freq, sysclockPerCpu { e with fuel := fuel } list list.length s = .ok (s', freq) ∧
        ∀ i < list.length,
          ((s'.task (list.getD i default).task).alpha : ℤ) = sysSpeed list i := by
    intro fuel hfuel
    obtain ⟨s', freq, hcall, hs'⟩ := sysclockPerCpu_stores e s hnodup (sysSpeeds_length list)
      (sysclockSpeeds_eq h (turns_lt hfuel) e.maxFrequency)
    refine ⟨s', freq, hcall, fun i hi => ?_⟩
    rw [hs' i hi, sysSpeeds_getD list hi, Int.toNat_of_nonneg (sysSpeed_nonneg h hi)]
  have hown : ∀ fuel, 2 * (list.map fun c => c.period.toNat).sum + 3 ≤ fuel →
      ∀ i < list.length, ∃ w, alphaOf fuel list i true = some w ∧
        ∀ k, SpeedAtLeast list i (0, 0) k ↔ k ≤ w.alpha := by
    intro fuel hfuel i hi
    obtain ⟨w, hw, hres⟩ := alphaOf_spec h.positive hi (h.get hi).2 true
      (turns_lt hfuel _ (getD_mem hi))
    exact ⟨w, hw, hres.speed⟩
  constructor
  · rintro ⟨n, hn⟩ i hi
    have hfuel := le_max_right n (2 * (list.map fun c => c.period.toNat).sum + 3)
    obtain ⟨s₁, freq₁, hcall₁, hs₁⟩ := hn _ (le_max_left n _)
    obtain ⟨s₂, freq₂, hcall₂, hs₂⟩ := hstored _ hfuel
    obtain ⟨w, hw, hspeed⟩ := hown _ hfuel i hi
    obtain ⟨w', hw', heq⟩ := hs₁ i hi
    obtain rfl : w = w' := Option.some.inj (hw.symm.trans hw')
    obtain ⟨rfl, -⟩ : s₁ = s₂ ∧ freq₁ = freq₂ := by simpa using hcall₁.symm.trans hcall₂
    exact (sysSpeed_eq_iff h hi hspeed).1 ((hs₂ i hi).symm.trans heq)
  · intro hkeep
    refine ⟨2 * (list.map fun c => c.period.toNat).sum + 3, fun fuel hfuel => ?_⟩
    obtain ⟨s', freq, hcall, hs'⟩ := hstored fuel hfuel
    refine ⟨s', freq, hcall, fun i hi => ?_⟩
    obtain ⟨w, hw, hspeed⟩ := hown fuel hfuel i hi
    exact ⟨w, hw, (hs' i hi).trans ((sysSpeed_eq_iff h hi hspeed).2 (hkeep i hi))⟩

/-- A task alone, whose budget is its whole period: no walk is made. -/
theorem storesOwn_full (c : TaskCt) (hc : c.period ≤ c.budget) (e : Env) (s : KState) :
    StoresOwnSpeeds [c] (fun fuel => sysclockPerCpu { e with fuel := fuel } [c] 1 s) := by
  refine ⟨1, fun fuel hfuel => ?_⟩
  obtain ⟨n, rfl⟩ : ∃ n, fuel = n + 1 := ⟨fuel - 1, by omega⟩
  have hwalk : alphaOf (n + 1) [c] 0 true = some ⟨true, c.budget, 0, 2 * scaleUpFactor⟩ := by
    refine run_succ_exit ?_ n
    simp [walkTurn, not_lt.2 hc]
  obtain ⟨freq₀, hspeeds⟩ : ∃ freq, sysclockSpeeds (n + 1) e.maxFrequency [c] [c].length =
      some ([2 * scaleUpFactor], freq) := by
    simp [sysclockSpeeds, alphasFrom, hwalk]
  have hnodup : ([c].map TaskCt.task).Nodup := List.nodup_singleton _
  obtain ⟨s', freq, hcall, hs'⟩ := sysclockPerCpu_stores e s hnodup rfl hspeeds
  refine ⟨s', freq, hcall, fun i hi => ?_⟩
  obtain rfl : i = 0 := by simpa using hi
  exact ⟨_, hwalk, by rw [hs' 0 hi]; rfl⟩

end Own

/-- On an accepted list, over unbounded integers: the computation stores the speed of its own walk in
every task exactly when no task entered with the flag cleared is asked for less by its first idle
step. -/
theorem storesOwnSpeeds_iff (e : Env) (list : List TaskCt) (s : KState) (h : Positive list)
    (hpass : Passes list) (hnodup : (list.map TaskCt.task).Nodup) :
    StoresOwnSpeeds list
        (fun fuel => sysclockPerCpu { e with fuel := fuel } list list.length s) ↔
      KeepsOwnSpeeds list := by
  by_cases hproper : Proper list
  · exact storesOwn_iff hproper hnodup e s
  · obtain ⟨c, rfl, hc⟩ := single_of_not_proper h hpass hproper
    refine iff_of_true (storesOwn_full c hc e s) fun i hi => ?_
    obtain rfl : i = 0 := by simpa using hi
    exact Bool.noConfusion

end RtSched
