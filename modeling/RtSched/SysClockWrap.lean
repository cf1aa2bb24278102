import RtSched.SysClockWord
import RtSched.OwnWalk

/-!
# When the scaled workload wraps

The walk of `sysclock` with the scaled workload taken modulo `2 ^ 32`, in closed form.  It stops where
the walk over unbounded integers does; as the workload stays through an idle period, the last instant
of the period asks for the least, with or without a wrap.  So its result is the lowest speed at the
instants where the idle time reaches a new maximum (`NewIdle`, `SpeedAtLeast32`), and it is never
above the exact one.  `sysclock32_exact_iff` says when they agree.
-/

namespace RtSched

open TimeDemand Loop Word

/-- At `t` the idle time is larger than at the start of the walk and at every instant since. -/
structure NewIdle (list : List TaskCt) (i : ℕ) (start : ℤ × ℤ) (t : ℤ) : Prop where
  after : start.1 < t
  le : t ≤ (list.getD i default).period
  grown : start.2 < spare list i t
  new : ∀ u, start.1 < u → u < t → spare list i u < spare list i t

/-- The speed `k`/1000 is not more than what the walk asks for, with the scaled workload modulo
`2 ^ 32`. -/
structure SpeedAtLeast32 (list : List TaskCt) (i : ℕ) (start : ℤ × ℤ) (k : ℤ) : Prop where
  le : k ≤ 2 * scaleUpFactor
  first : k * start.1 ≤ (start.1 - start.2) * scaleUpFactor % 2 ^ 32
  later : ∀ t, NewIdle list i start t → k * t ≤ workBefore list i t * scaleUpFactor % 2 ^ 32

/-- The walk of task `i` asks for at least the speed `k`/1000, as the 32-bit target computes it. -/
def NeedsSpeed32 (list : List TaskCt) (i : ℕ) (k : ℤ) : Prop :=
  SpeedAtLeast32 list i (walkStart list i (fresh list i)) k

/-- What the walk keeps of its speed. -/
structure SpeedInv32 (list : List TaskCt) (i : ℕ) (start : ℤ × ℤ) (c alpha : ℤ) : Prop where
  nonneg : 0 ≤ alpha
  upper : alpha ≤ 2 * scaleUpFactor
  first : alpha * start.1 ≤ (start.1 - start.2) * scaleUpFactor % 2 ^ 32
  seen : ∀ t, t ≤ c → NewIdle list i start t →
    alpha * t ≤ workBefore list i t * scaleUpFactor % 2 ^ 32
  lowest : ∀ k, SpeedAtLeast32 list i start k → k ≤ alpha

/-- The two walks, after as many turns. -/
structure Wrapped (list : List TaskCt) (i : ℕ) (start : ℤ × ℤ) (m w : Walk) : Prop where
  flag : m.inBzp = w.inBzp
  clock : m.c = w.c
  slack : m.slack = w.slack
  exact : WalkInv list i start w
  speed : SpeedInv32 list i start w.c m.alpha
  le : m.alpha ≤ w.alpha

/-- What the two walks answer. -/
structure WrappedResult (list : List TaskCt) (i : ℕ) (start : ℤ × ℤ) (m w : Walk) : Prop where
  flag : m.inBzp = w.inBzp
  speed : ∀ k, SpeedAtLeast32 list i start k ↔ k ≤ m.alpha
  le : m.alpha ≤ w.alpha

section Walk

variable {list : List TaskCt} {i : ℕ} {start : ℤ × ℤ}

/-- In a busy period the idle time reaches no new maximum. -/
theorem not_newIdle_busy {w : Walk} (hw : WalkInv list i start w) {t : ℤ} (ht : w.c < t)
    (hle : spare list i t ≤ w.slack) : ¬ NewIdle list i start t := by
  intro hnew
  have hgrown := hnew.grown
  rcases hw.last with hlast | ⟨u, hu, huc, heq, -⟩
  · omega
  · have := hnew.new u hu (by omega)
    omega

/-- Up to the first idle step there is no new maximum either. -/
theorem SpeedInv32.initial {w : Walk} (hw : WalkInv list i start w) (hslack : w.slack = start.2)
    {alpha : ℤ} (h0 : 0 ≤ alpha) (hupper : alpha ≤ 2 * scaleUpFactor)
    (hfirst : alpha * start.1 ≤ (start.1 - start.2) * scaleUpFactor % 2 ^ 32)
    (hlowest : ∀ k, SpeedAtLeast32 list i start k → k ≤ alpha) :
    SpeedInv32 list i start w.c alpha := by
  refine ⟨h0, hupper, hfirst, fun t ht hnew => ?_, hlowest⟩
  have := hw.bound t hnew.after ht
  have := hnew.grown
  omega

theorem SpeedInv32.busy {w : Walk} (hw : WalkInv list i start w) {c : ℤ}
    (hw' : WalkInv list i start { w with c := c, inBzp := false }) {alpha : ℤ}
    (h : SpeedInv32 list i start w.c alpha) : SpeedInv32 list i start c alpha := by
  refine ⟨h.nonneg, h.upper, h.first, fun t ht hnew => ?_, h.lowest⟩
  rcases le_or_gt t w.c with htc | htc
  · exact h.seen t htc hnew
  · exact absurd hnew (not_newIdle_busy hw htc (hw'.bound t hnew.after ht))

/-- An idle step: its end is a new maximum, and the workload is the same all through it. -/
theorem SpeedInv32.idle (hp : Positive list) {w : Walk} (hw : WalkInv list i start w) {idle : ℤ}
    (hfix : w.c = w.slack + workBefore list i (w.c + 1)) (hstep : IdleStep list i w.c idle)
    {alpha speed alpha' : ℤ} (h : SpeedInv32 list i start w.c alpha)
    (hspeed : speed = (w.c - w.slack) * scaleUpFactor % 2 ^ 32 / (w.c + idle))
    (halpha : alpha' = if alpha < speed then alpha else speed) :
    SpeedInv32 list i start (w.c + idle) alpha' := by
  obtain ⟨hstart, -⟩ := hw.origin
  have hafter := hw.after
  have hpos := hw.pos
  have hone := hstep.pos
  have hend := hstep.period
  have hidle : ∀ t, w.c ≤ t → t ≤ w.c + idle →
      workBefore list i t = w.c - w.slack ∧ spare list i t = w.slack + (t - w.c) :=
    fun t h1 h2 => hstep.spare hp hw.here hfix h1 h2
  obtain ⟨hwork, hspare⟩ := hidle (w.c + idle) (by omega) le_rfl
  have hmin := le_keptSpeed_iff (by omega) hspeed halpha
  obtain ⟨hle, hat⟩ := (hmin alpha').1 le_rfl
  have halpha0 : 0 ≤ alpha' := by
    refine (hmin 0).2 ⟨h.nonneg, ?_⟩
    rw [zero_mul]
    exact Int.emod_nonneg _ (by norm_num)
  have hnew : NewIdle list i start (w.c + idle) := by
    refine ⟨by omega, by omega, by have := hw.grown; omega, fun u h1 h2 => ?_⟩
    rcases le_or_gt u w.c with huc | huc
    · have := hw.bound u h1 huc
      omega
    · have := (hidle u huc.le (by omega)).2
      omega
  refine ⟨halpha0, hle.trans h.upper, ?_, fun t ht hnew' => ?_, fun k hk => ?_⟩
  · exact le_trans (mul_le_mul_of_nonneg_right hle hstart) h.first
  · rcases le_or_gt t w.c with htc | htc
    · exact le_trans (mul_le_mul_of_nonneg_right hle (by have := hnew'.after; omega))
        (h.seen t htc hnew')
    · rw [(hidle t htc.le ht).1]
      exact le_trans (mul_le_mul_of_nonneg_left ht halpha0) hat
  · refine (hmin k).2 ⟨h.lowest k hk, ?_⟩
    rw [← hwork]
    exact hk.later _ hnew

theorem speedMod_le {x tW : ℤ} (hx : 0 ≤ x) (hW : 0 < tW) :
    x * scaleUpFactor % 2 ^ 32 / tW ≤ x * scaleUpFactor / tW := by
  refine Int.ediv_le_ediv hW ?_
  simp only [scaleUpFactor]
  omega

/-- **One turn.** -/
theorem walkTurnMod_rel (hp : Positive list) {fuel : ℕ}
    (hfuel : (list.getD i default).period.toNat + 1 < fuel) {m w : Walk}
    (h : Wrapped list i start m w) :
    Option.Rel (Loop.Turn.Rel (Wrapped list i start) (WrappedResult list i start))
      (walkTurnMod fuel list i m) (walkTurn fuel list i w) := by
  obtain ⟨inBzp, c, slack, alpha⟩ := m
  obtain ⟨hflag, hclock, hslack, hw, hspeed, hle⟩ := h
  simp only at hflag hclock hslack hspeed hle
  subst hflag hclock hslack
  by_cases hlt : w.c < (list.getD i default).period
  · obtain ⟨w', hturn, hw'⟩ := walkInv_turn hp hw hlt hfuel
    rw [hturn]
    cases hb : w.inBzp with
    | true =>
      simp only [walkTurn, walkTurnMod, if_pos hlt, hb, if_true] at hturn ⊢
      cases hrun : run (busyTurn list i w.slack (list.getD i default).period) fuel (w.c, true) with
      | none =>
        rw [hrun] at hturn
        cases hturn
      | some c =>
        simp only [hrun, Option.bind_eq_bind, Option.bind_some, Option.some.injEq,
          Loop.Turn.next.injEq] at hturn ⊢
        subst hturn
        exact .some (.next ⟨rfl, rfl, rfl, hw', hspeed.busy hw hw', hle⟩)
    | false =>
      have hfix := ((hw.idle hb).resolve_right fun hge => by omega).2
      have hstep : IdleStep list i w.c (idleDuration list i (list.getD i default).period w.c) :=
        idleStep_with hp (by norm_num : (1 : ℤ) ≤ 234567) hw.pos.le hlt hw.here hfix
      have hpos := hw.pos
      have hone := hstep.pos
      simp only [walkTurn, walkTurnMod, if_pos hlt, hb, Bool.false_eq_true, if_false,
        add_sub_add_right_eq_sub, Option.some.injEq, Loop.Turn.next.injEq] at hturn ⊢
      subst hturn
      refine .some (.next ⟨rfl, rfl, rfl, hw', hspeed.idle hp hw hfix hstep rfl rfl, ?_⟩)
      have hwork : 0 ≤ workBefore list i (w.c + 1) :=
        demand_nonneg (hp.take _).wf.cost (hp.take _).wf.period (by omega)
      have hmod := speedMod_le (by omega : 0 ≤ w.c - w.slack)
        (by omega : 0 < w.c + idleDuration list i (list.getD i default).period w.c)
      simp only
      split_ifs <;> omega
  · simp only [walkTurn, walkTurnMod, if_neg hlt]
    refine .some (.exit ⟨rfl, fun k => ⟨hspeed.lowest k, fun hk => ?_⟩, hle⟩)
    obtain ⟨hstart, -⟩ := hw.origin
    refine ⟨hk.trans hspeed.upper, ?_, fun t hnew => ?_⟩
    · exact le_trans (mul_le_mul_of_nonneg_right hk hstart) hspeed.first
    · have hle := hnew.le
      exact le_trans (mul_le_mul_of_nonneg_right hk (by have := hnew.after; omega))
        (hspeed.seen t (by omega) hnew)

theorem wrapped_fresh (hp : Positive list) (hi : i < list.length)
    (hbp : (list.getD i default).budget < (list.getD i default).period) :
    Wrapped list i (0, 0) ⟨true, (list.getD i default).budget, 0, 2 * scaleUpFactor⟩
      ⟨true, (list.getD i default).budget, 0, 2 * scaleUpFactor⟩ := by
  have hw := walkInv_fresh hp hi hbp
  exact ⟨rfl, rfl, rfl, hw, .initial hw rfl (by norm_num [scaleUpFactor]) le_rfl (by simp)
    fun k hk => hk.le, le_rfl⟩

/-- The first turn of a task entered with the flag cleared. -/
theorem walkTurnMod_stale (hp : Positive list) (hi : i < list.length)
    (hbp : (list.getD i default).budget < (list.getD i default).period) (fuel : ℕ) :
    walkTurnMod fuel list i ⟨false, (list.getD i default).budget, 0, 2 * scaleUpFactor⟩ =
      some (.next ⟨true, nextRelease list i (list.getD i default).budget,
        nextRelease list i (list.getD i default).budget - (list.getD i default).budget,
        if 2 * scaleUpFactor < (list.getD i default).budget * scaleUpFactor % 2 ^ 32 /
            nextRelease list i (list.getD i default).budget then 2 * scaleUpFactor
        else (list.getD i default).budget * scaleUpFactor % 2 ^ 32 /
          nextRelease list i (list.getD i default).budget⟩) := by
  rw [← nextRelease_eq hp hi (hp.get hi).1 hbp.le]
  simp only [walkTurnMod, if_pos hbp, Bool.false_eq_true, if_false, zero_add, add_sub_cancel_left,
    add_sub_cancel_right]

theorem wrapped_stale (hp : Positive list) (hi : i < list.length)
    (hbp : (list.getD i default).budget < (list.getD i default).period) {tW speed alpha : ℤ}
    (htW : tW = nextRelease list i (list.getD i default).budget)
    (hspeed : speed = (list.getD i default).budget * scaleUpFactor % 2 ^ 32 / tW)
    (halpha : alpha = if 2 * scaleUpFactor < speed then 2 * scaleUpFactor else speed) :
    Wrapped list i (tW, tW - (list.getD i default).budget)
      ⟨true, tW, tW - (list.getD i default).budget, alpha⟩
      ⟨true, tW, tW - (list.getD i default).budget,
        if 2 * scaleUpFactor < (list.getD i default).budget * scaleUpFactor / tW then
          2 * scaleUpFactor
        else (list.getD i default).budget * scaleUpFactor / tW⟩ := by
  have hw := walkInv_stale hp hi hbp htW rfl rfl
  have hpos : 0 < tW := hw.pos
  have hsub : tW - (tW - (list.getD i default).budget) = (list.getD i default).budget := by omega
  have hmin := le_keptSpeed_iff hpos hspeed halpha
  obtain ⟨hle, hat⟩ := (hmin alpha).1 le_rfl
  have hmod := speedMod_le (hp.get hi).1.le hpos
  rw [← hspeed] at hmod
  have halpha0 : 0 ≤ alpha := by
    refine (hmin 0).2 ⟨by norm_num [scaleUpFactor], ?_⟩
    rw [zero_mul]
    exact Int.emod_nonneg _ (by norm_num)
  refine ⟨rfl, rfl, rfl, hw, .initial hw rfl halpha0 hle ?_ fun k hk => ?_, ?_⟩
  · simp only [hsub]
    exact hat
  · refine (hmin k).2 ⟨hk.le, ?_⟩
    have := hk.first
    simpa only [hsub] using this
  · simp only [halpha]
    split_ifs <;> omega

/-- **The walk in closed form**, next to the one over unbounded integers. -/
theorem alphaOfMod_spec (hp : Positive list) (hi : i < list.length)
    (hbp : (list.getD i default).budget < (list.getD i default).period) (fresh : Bool) {fuel : ℕ}
    (hfuel : 2 * (list.getD i default).period.toNat + 2 < fuel) :
    ∃ m w, alphaOfMod fuel list i fresh = some m ∧ alphaOf fuel list i fresh = some w ∧
      WalkResult list i (walkStart list i fresh) w ∧
      WrappedResult list i (walkStart list i fresh) m w := by
  obtain ⟨w, hw, hres⟩ := alphaOf_spec hp hi hbp fresh hfuel
  have hinner : (list.getD i default).period.toNat + 1 < fuel := by omega
  have hrel : Option.Rel (WrappedResult list i (walkStart list i fresh))
      (alphaOfMod fuel list i fresh) (alphaOf fuel list i fresh) := by
    cases fresh with
    | true =>
      exact run_rel (fun _ _ h => walkTurnMod_rel hp hinner h) (wrapped_fresh hp hi hbp) fuel
    | false =>
      obtain ⟨n, rfl⟩ : ∃ n, fuel = n + 1 := ⟨fuel - 1, by omega⟩
      rw [alphaOfMod, alphaOf, run_succ_next (walkTurn_stale hp hi hbp _),
        run_succ_next (walkTurnMod_stale hp hi hbp _)]
      exact run_rel (fun _ _ h => walkTurnMod_rel hp hinner h) (wrapped_stale hp hi hbp rfl rfl rfl) n
  rw [hw] at hrel
  generalize alphaOfMod fuel list i fresh = r at hrel
  cases hrel with
  | some h => exact ⟨_, w, rfl, hw, hres, h⟩

end Walk

/-! ### All tasks -/

/-- With `n` turns or more, the speeds of the tasks are `a`, and `a32` on the 32-bit target. -/
structure SpeedsOf (list : List TaskCt) (n : ℕ) (a a32 : ℕ → ℤ) : Prop where
  exact : ∀ fuel, n ≤ fuel →
    alphasFrom fuel list list.length 0 true = some ((List.range' 0 list.length).map a)
  wrapped : ∀ fuel, n ≤ fuel → alphasFromBy (alphaOfMod fuel list) list.length 0 true =
    some ((List.range' 0 list.length).map a32)
  needs : ∀ i < list.length, ∀ k, NeedsSpeed list i k ↔ k ≤ a i
  needs32 : ∀ i < list.length, ∀ k, NeedsSpeed32 list i k ↔ k ≤ a32 i
  le : ∀ i < list.length, a32 i ≤ a i

section Speeds

variable {list : List TaskCt}

theorem speedsOf_proper (h : Proper list) :
    SpeedsOf list (2 * (list.map fun c => c.period.toNat).sum + 3) (sysSpeed list)
      fun i => greatest (NeedsSpeed32 list i) := by
  have hspec : ∀ fuel, 2 * (list.map fun c => c.period.toNat).sum + 3 ≤ fuel → ∀ i < list.length,
      ∃ m w, alphaOfMod fuel list i (fresh list i) = some m ∧
        WalkResult list i (walkStart list i (fresh list i)) w ∧
        WrappedResult list i (walkStart list i (fresh list i)) m w := by
    intro fuel hfuel i hi
    obtain ⟨m, w, hm, -, hw, hres⟩ := alphaOfMod_spec h.positive hi (h.get hi).2 (fresh list i)
      (turns_lt hfuel _ (getD_mem hi))
    exact ⟨m, w, hm, hw, hres⟩
  refine ⟨fun fuel hfuel => ?_, fun fuel hfuel => ?_, fun i hi => needsSpeed_iff h hi,
    fun i hi k => ?_, fun i hi => ?_⟩
  · exact alphasFrom_eq h (turns_lt hfuel) (by omega)
  · have hwalk : ∀ i < list.length, ∃ w, alphaOfMod fuel list i (fresh list i) = some w ∧
        w.alpha = greatest (NeedsSpeed32 list i) ∧ w.inBzp = fresh list (i + 1) := by
      intro i hi
      obtain ⟨m, w, hm, hw, hres⟩ := hspec fuel hfuel i hi
      exact ⟨m, hm, (greatest_eq hres.speed).symm, hres.flag.trans hw.flag_fresh⟩
    exact alphasFromBy_eq (i := 0) hwalk (by omega)
  · obtain ⟨m, w, -, -, hres⟩ := hspec _ le_rfl i hi
    have heq : greatest (NeedsSpeed32 list i) = m.alpha := greatest_eq hres.speed
    rw [heq]
    exact hres.speed k
  · obtain ⟨m, w, -, hw, hres⟩ := hspec _ le_rfl i hi
    have h1 : greatest (NeedsSpeed32 list i) = m.alpha := greatest_eq hres.speed
    have h2 : sysSpeed list i = w.alpha := greatest_eq hw.speed
    rw [h1, h2]
    exact hres.le

/-- A task alone, whose budget is its whole period, asks for the most. -/
theorem speedsOf_full {c : TaskCt} (h : Positive [c]) (hc : c.period ≤ c.budget) :
    SpeedsOf [c] 1 (fun _ => 2 * scaleUpFactor) fun _ => 2 * scaleUpFactor := by
  have hspare : ∀ t, 0 < t → t ≤ c.period → spare [c] 0 t ≤ 0 := by
    intro t h0 ht
    have hwork : c.budget ≤ workBefore [c] 0 t := budget_le_workBefore (i := 0) h (by simp) h0
    unfold spare
    omega
  refine ⟨fun fuel hfuel => ?_, fun fuel hfuel => ?_, fun i hi k => ?_, fun i hi k => ?_,
    fun _ _ => le_rfl⟩
  · obtain ⟨n, rfl⟩ : ∃ n, fuel = n + 1 := ⟨fuel - 1, by omega⟩
    have hwalk : alphaOf (n + 1) [c] 0 true = some ⟨true, c.budget, 0, 2 * scaleUpFactor⟩ :=
      run_succ_exit (by simp [walkTurn, not_lt.2 hc]) n
    simp [alphasFrom, hwalk]
  · obtain ⟨n, rfl⟩ : ∃ n, fuel = n + 1 := ⟨fuel - 1, by omega⟩
    have hwalk : alphaOfMod (n + 1) [c] 0 true = some ⟨true, c.budget, 0, 2 * scaleUpFactor⟩ :=
      run_succ_exit (by simp [walkTurnMod, not_lt.2 hc]) n
    simp [alphasFromBy, hwalk]
  · obtain rfl : i = 0 := by simpa using hi
    refine ⟨fun hk => hk.le, fun hk => ⟨hk, by simp [walkStart, fresh], fun t h0 ht hs => ?_⟩⟩
    exact absurd (hspare t h0 ht) (not_le.2 hs)
  · obtain rfl : i = 0 := by simpa using hi
    refine ⟨fun hk => hk.le, fun hk => ⟨hk, by simp [walkStart, fresh], fun t hnew => ?_⟩⟩
    exact absurd (hspare t hnew.after hnew.le) (not_le.2 hnew.grown)

theorem exists_speedsOf (h : Positive list) (hpass : Passes list) :
    ∃ n a a32, SpeedsOf list n a a32 := by
  by_cases hproper : Proper list
  · exact ⟨_, _, _, speedsOf_proper hproper⟩
  · obtain ⟨c, rfl, hc⟩ := single_of_not_proper h hpass hproper
    exact ⟨_, _, _, speedsOf_full h hc⟩

end Speeds

/-! ### The result -/

/-- Every speed a task needs is one it needs on the 32-bit target as well, and gives a frequency that
fits. -/
def KeepsSpeeds32 (list : List TaskCt) (maxFrequency : ℕ) : Prop :=
  ∀ i < list.length, ∀ k, NeedsSpeed list i k →
    NeedsSpeed32 list i k ∧ (maxFrequency * k : ℤ) < 2 ^ 32

section Result

variable {list : List TaskCt32}

/-- On an accepted list, each task's walk stays within the bounds. -/
theorem roomy_of_passes (h : LongPeriods list) (hpass : Passes (list.map TaskCt32.ct)) {i : ℕ}
    (hi : i < list.length) : Roomy (list.map TaskCt32.ct) i := by
  have hw : WfCts (list.map TaskCt32.ct) := by
    intro c hc
    obtain ⟨d, hd, rfl⟩ := List.mem_map.1 hc
    have := h d hd
    exact ⟨Int.natCast_nonneg _, by simp only [TaskCt32.ct]; omega⟩
  have hi' : i < (list.map TaskCt32.ct).length := by rwa [List.length_map]
  obtain ⟨t, ht⟩ := (passes_iff hw).1 hpass i hi'
  obtain ⟨ht0, htp, hd⟩ := (covers_iff hw hi' t).1 ht
  refine ⟨hw, hi', utilisation_le_one (hw.take _).cost ht0 hd, ?_, ?_⟩
  · have hsum := sum_cost_le_demand (hw.take (i + 1)).cost (hw.take (i + 1)).period ht0
    rw [Multiset.map_coe, Multiset.sum_coe] at hsum
    omega
  · rw [getD_ct, List.getD_eq_getElem _ _ hi]
    have := h _ (List.getElem_mem hi)
    simp only [TaskCt32.ct]
    omega

/-- The walk goes in step with the one modulo `2 ^ 32`. -/
theorem alphaOf32_mod (h : LongPeriods list) (hpass : Passes (list.map TaskCt32.ct)) (fuel : ℕ) :
    ∀ i < list.length, ∀ inBzp, Option.Rel (WalkInStep list i) (alphaOf32 fuel list i inBzp)
      (alphaOfMod fuel (list.map TaskCt32.ct) i inBzp) := by
  intro i hi inBzp
  have hroom := roomy_of_passes h hpass hi
  exact alphaOf32_rel hroom (fun _ _ hx => walkTurn32_rel h hroom fuel hx) inBzp

/-- If the work released before its deadline fits, the walk of a task goes in step with the exact
one. -/
theorem alphaOf32_exact (h : LongPeriods list) (hpass : Passes (list.map TaskCt32.ct))
    (hfits : ∀ i < list.length, workBefore (list.map TaskCt32.ct) i
      ((list.map TaskCt32.ct).getD i default).period * scaleUpFactor < 2 ^ 32) (fuel : ℕ) :
    ∀ i < list.length, ∀ inBzp, Option.Rel (WalkInStep list i) (alphaOf32 fuel list i inBzp)
      (alphaOf fuel (list.map TaskCt32.ct) i inBzp) := by
  intro i hi inBzp
  have hroom := roomy_of_passes h hpass hi
  refine alphaOf32_rel hroom (fun x w hx => ?_) inBzp
  rw [← walkTurnMod_eq hroom hx.toFits (hfits i hi)]
  exact walkTurn32_rel h hroom fuel hx

/-- The greatest speed is small enough for a frequency exactly when every speed needed is. -/
theorem maxFrequency_lt_iff {cts : List TaskCt} {a : ℕ → ℤ}
    (ha : ∀ i < cts.length, ∀ k, NeedsSpeed cts i k ↔ k ≤ a i) (f : ℕ) :
    (f * ((List.range' 0 cts.length).map a).foldl (fun m a => if a > m then a else m) 0 : ℤ) <
        2 ^ 32 ↔
      ∀ i < cts.length, ∀ k, NeedsSpeed cts i k → (f * k : ℤ) < 2 ^ 32 := by
  have hlt := lt_maxFrequency_iff ha f (2 ^ 32 - 1)
  constructor
  · intro hmax i hi k hk
    by_contra hge
    have := hlt.2 ⟨i, hi, k, hk, by omega⟩
    omega
  · intro hall
    by_contra hge
    obtain ⟨i, hi, k, hk, hgt⟩ := hlt.1 (by omega)
    have := hall i hi k hk
    omega

theorem SpeedsOf.map_eq_iff {cts : List TaskCt} {n : ℕ} {a a32 : ℕ → ℤ}
    (h : SpeedsOf cts n a a32) :
    (List.range' 0 cts.length).map a32 = (List.range' 0 cts.length).map a ↔
      ∀ i < cts.length, ∀ k, NeedsSpeed cts i k → NeedsSpeed32 cts i k := by
  have hmem : ∀ i, i ∈ List.range' 0 cts.length ↔ i < cts.length := by
    intro i
    simp [List.mem_range'_1]
  rw [List.map_inj_left]
  constructor
  · intro heq i hi k hk
    rw [h.needs32 i hi, heq i ((hmem i).2 hi), ← h.needs i hi]
    exact hk
  · intro hall i hi
    have hlt := (hmem i).1 hi
    have hle : a i ≤ a32 i := (h.needs32 i hlt _).1 (hall i hlt _ ((h.needs i hlt _).2 le_rfl))
    exact le_antisymm (h.le i hlt) hle

theorem sysclock32_agrees_iff (h : LongPeriods list) (hpass : Passes (list.map TaskCt32.ct))
    (hbudget : ∀ c ∈ list, 0 < c.budget.toNat) (maxFrequency : BitVec 32) :
    (∃ n, ∀ fuel, n ≤ fuel → ∃ x,
      sysclockSpeeds fuel maxFrequency.toNat (list.map TaskCt32.ct) list.length = some x ∧
      (sysclockSpeeds32 fuel maxFrequency list list.length).map read32 = some x) ↔
    KeepsSpeeds32 (list.map TaskCt32.ct) maxFrequency.toNat := by
  have hlen : (list.map TaskCt32.ct).length = list.length := List.length_map _
  have hpos : Positive (list.map TaskCt32.ct) := by
    intro c hc
    obtain ⟨d, hd, rfl⟩ := List.mem_map.1 hc
    have := h d hd
    have := hbudget d hd
    simp only [TaskCt32.ct]
    omega
  obtain ⟨n, a, a32, hs⟩ := exists_speedsOf hpos hpass
  -- both computations in closed form
  have hexact : ∀ fuel, n ≤ fuel →
      sysclockSpeeds fuel maxFrequency.toNat (list.map TaskCt32.ct) list.length =
        some ((List.range' 0 list.length).map a, (maxFrequency.toNat *
          ((List.range' 0 list.length).map a).foldl (fun m a => if a > m then a else m) 0).toNat) := by
    intro fuel hfuel
    have := hs.exact fuel hfuel
    rw [hlen] at this
    simp only [sysclockSpeeds, this, Option.bind_eq_bind, Option.bind_some]
  have h32 : ∀ fuel, n ≤ fuel →
      (sysclockSpeeds32 fuel maxFrequency list list.length).map read32 =
        some ((List.range' 0 list.length).map a32, (maxFrequency.toNat *
          ((List.range' 0 list.length).map a32).foldl (fun m a => if a > m then a else m) 0 %
            2 ^ 32).toNat) := by
    intro fuel hfuel
    have := hs.wrapped fuel hfuel
    rw [hlen] at this
    rw [sysclockSpeeds32_eq (alphaOf32_mod h hpass fuel), this]
    rfl
  have hspeeds := hs.map_eq_iff
  have hfreq := maxFrequency_lt_iff hs.needs maxFrequency.toNat
  have hmax := (le_foldl_max_iff ((List.range' 0 list.length).map a) 0 0).2 (Or.inl le_rfl)
  rw [hlen] at hspeeds hfreq
  have hprod := mul_nonneg (Int.natCast_nonneg maxFrequency.toNat) hmax
  constructor
  · rintro ⟨n', hn'⟩ i hi k hk
    obtain ⟨x, hx, hx'⟩ := hn' (max n n') (le_max_right n n')
    rw [hexact _ (le_max_left n n')] at hx
    rw [h32 _ (le_max_left n n'), ← hx, Option.some.injEq, Prod.mk.injEq] at hx'
    obtain ⟨halphas, hf⟩ := hx'
    rw [hlen] at hi
    refine ⟨hspeeds.1 halphas i hi k hk, hfreq.1 ?_ i hi k hk⟩
    rw [halphas] at hf
    omega
  · intro hkeep
    rw [KeepsSpeeds32, hlen] at hkeep
    refine ⟨n, fun fuel hfuel => ⟨_, hexact fuel hfuel, ?_⟩⟩
    rw [h32 fuel hfuel, hspeeds.2 fun i hi k hk => (hkeep i hi k hk).1]
    have hlt := hfreq.2 fun i hi k hk => (hkeep i hi k hk).2
    rw [Int.emod_eq_of_lt hprod hlt]

theorem sysclock32_agrees (h : LongPeriods list) (hpass : Passes (list.map TaskCt32.ct))
    (hfits : ∀ i < list.length, workBefore (list.map TaskCt32.ct) i
      ((list.map TaskCt32.ct).getD i default).period * scaleUpFactor < 2 ^ 32)
    {maxFrequency : BitVec 32}
    (hfreq : (maxFrequency.toNat * (2 * scaleUpFactor) : ℤ) < 2 ^ 32) (fuel : ℕ) :
    (sysclockSpeeds32 fuel maxFrequency list list.length).map read32 =
      sysclockSpeeds fuel maxFrequency.toNat (list.map TaskCt32.ct) list.length := by
  have hstep := alphaOf32_exact h hpass hfits fuel
  have hrel := alphasFrom32_rel hstep (i := 0) (n := list.length) (by omega) true
  rw [sysclockSpeeds32_eq hstep, sysclockSpeeds, alphasFrom_eq_by]
  generalize alphasFrom32 fuel list list.length 0 true = xs at hrel
  generalize alphasFromBy (alphaOf fuel (list.map TaskCt32.ct)) list.length 0 true = as at hrel
  cases hrel with
  | none => rfl
  | @some _ alphas hbounds =>
    obtain ⟨-, hbounds⟩ := hbounds
    have hmax := le_foldl_max_iff alphas 0
    set m := alphas.foldl (fun m a => if a > m then a else m) 0
    have h0 : 0 ≤ m := (hmax 0).2 (Or.inl le_rfl)
    have hle : m ≤ 2 * scaleUpFactor := by
      rcases (hmax m).1 le_rfl with hm | ⟨a, ha, hma⟩
      · exact hm.trans (by norm_num [scaleUpFactor])
      · exact hma.trans (hbounds a ha).2
    have hlt : (maxFrequency.toNat * m : ℤ) < 2 ^ 32 :=
      lt_of_le_of_lt (mul_le_mul_of_nonneg_left hle (Int.natCast_nonneg _)) hfreq
    have hmod := Int.emod_eq_of_lt (mul_nonneg (Int.natCast_nonneg maxFrequency.toNat) h0) hlt
    simp only [Option.map_some, Option.bind_eq_bind, Option.bind_some, hmod, m]

end Result

/-- **When `sysclock` does not wrap.**  Take a list that `__check_admission` accepts, with periods
below `2 ^ 31`.  With positive budgets, `sysclock` comes back, and the 32-bit target has the speeds
and the frequency of unbounded integers exactly when no speed needed is lost to a wrap.  With any
budgets, the two agree turn by turn if the work released before each deadline fits when it is
scaled. -/
theorem sysclock32_exact_iff (list : List TaskCt32) (maxFrequency : BitVec 32)
    (h : ∀ c ∈ list, 1 ≤ c.period.toNat ∧ c.period.toNat ≤ 2 ^ 31 - 1)
    (hpass : Passes (list.map TaskCt32.ct)) :
    ((∀ c ∈ list, 0 < c.budget.toNat) →
      ((∃ n, ∀ fuel, n ≤ fuel → ∃ x,
        sysclockSpeeds fuel maxFrequency.toNat (list.map TaskCt32.ct) list.length = some x ∧
        (sysclockSpeeds32 fuel maxFrequency list list.length).map read32 = some x) ↔
      KeepsSpeeds32 (list.map TaskCt32.ct) maxFrequency.toNat)) ∧
    ((∀ i < list.length, workBefore (list.map TaskCt32.ct) i
        ((list.map TaskCt32.ct).getD i default).period * scaleUpFactor < 2 ^ 32) →
      (maxFrequency.toNat * (2 * scaleUpFactor) : ℤ) < 2 ^ 32 →
      ∀ fuel, (sysclockSpeeds32 fuel maxFrequency list list.length).map read32 =
        sysclockSpeeds fuel maxFrequency.toNat (list.map TaskCt32.ct) list.length) :=
  ⟨fun hbudget => sysclock32_agrees_iff h hpass hbudget maxFrequency,
    fun hfits hfreq fuel => sysclock32_agrees h hpass hfits hfreq fuel⟩

theorem sysclock32_exact_iff_pair :
    ((∀ c ∈ [(⟨1, 4, 0⟩ : TaskCt32), ⟨2, 6, 1⟩], 0 < c.budget.toNat) →
      ((∃ n, ∀ fuel, n ≤ fuel → ∃ x,
        sysclockSpeeds fuel (1000 : BitVec 32).toNat ([⟨1, 4, 0⟩, ⟨2, 6, 1⟩].map TaskCt32.ct) 2 = some x ∧
        (sysclockSpeeds32 fuel 1000 [⟨1, 4, 0⟩, ⟨2, 6, 1⟩] 2).map read32 = some x) ↔
      KeepsSpeeds32 ([⟨1, 4, 0⟩, ⟨2, 6, 1⟩].map TaskCt32.ct) (1000 : BitVec 32).toNat)) ∧
    ((∀ i < 2, workBefore ([⟨1, 4, 0⟩, ⟨2, 6, 1⟩].map TaskCt32.ct) i
        (([⟨1, 4, 0⟩, ⟨2, 6, 1⟩].map TaskCt32.ct).getD i default).period * scaleUpFactor < 2 ^ 32) →
      ((1000 : BitVec 32).toNat * (2 * scaleUpFactor) : ℤ) < 2 ^ 32 →
      ∀ fuel, (sysclockSpeeds32 fuel 1000 [⟨1, 4, 0⟩, ⟨2, 6, 1⟩] 2).map read32 =
        sysclockSpeeds fuel (1000 : BitVec 32).toNat ([⟨1, 4, 0⟩, ⟨2, 6, 1⟩].map TaskCt32.ct) 2) :=
  sysclock32_exact_iff [⟨1, 4, 0⟩, ⟨2, 6, 1⟩] 1000 (by decide) ⟨20, by decide⟩

/-- Two tasks of 4 s in 10 s at 1000 MHz: the work of 8 s, scaled, is more than a register holds. -/
theorem sysclock32_wraps : ¬ ∀ (list : List TaskCt32) (maxFrequency : BitVec 32),
    (∀ c ∈ list, c.budget.toNat * maxFrequency.toNat ≤ 2 ^ 32) →
    (∀ c ∈ list, 1 ≤ c.period.toNat ∧ c.period.toNat ≤ 2 ^ 31 - 1) →
    Passes (list.map TaskCt32.ct) → ∀ fuel x,
    sysclockSpeeds fuel maxFrequency.toNat (list.map TaskCt32.ct) list.length = some x →
    (sysclockSpeeds32 fuel maxFrequency list list.length).map read32 = some x := by
  intro hall
  have hx := hall [⟨4000000, 10000000, 0⟩, ⟨4000000, 10000000, 1⟩] 1000 (by decide) (by decide)
    ⟨20, by decide⟩ 100 ([400, 800], 800000) (by decide +kernel)
  revert hx
  decide +kernel

end RtSched
