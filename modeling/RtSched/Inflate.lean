import RtSched.SysClock

/-!
# What `inflated_freq` computes

Some of the tasks have their frequency, the others not.  `inflated_freq` walks, for one of the
others, the busy and idle periods of the tasks of at most its period, with the work of the former
inflated to their frequency, and finds the lowest speed of the latter that would do.

* `LowSpeed`: the speeds it allows, in closed form; it answers the greatest one (`inflatedFreq_eq`);
* `Stalls`: inflated work is rounded down, and a task whose work is rounded to nothing still ends an
  idle period.  If it is alone in that, the walk stays where it is for ever.
-/

namespace RtSched

open TimeDemand Loop

/-! ### Inflated work -/

/-- The budget at the frequency the task has got, rounded down, or at the maximum. -/
def inflatedCost (x : TaskCt × ℤ) : ℤ :=
  if x.2 ≠ 0 then x.1.budget * scaleUpFactor / x.2 else x.1.budget

/-- The tasks of at most the given period that have got their frequency, or have not. -/
def rivals (fixed : Bool) (list : List TaskCt) (pmFreq : List ℤ) (period : ℤ) :
    List (TaskCt × ℤ) :=
  (list.zip pmFreq).filter fun x => x.1.period ≤ period ∧ decide (x.2 ≠ 0) = fixed

/-- The work they have released before `t`. -/
def inflatedBefore (fixed : Bool) (list : List TaskCt) (pmFreq : List ℤ) (period t : ℤ) : ℤ :=
  demand inflatedCost (fun x => x.1.period)
    (↑(rivals fixed list pmFreq period) : Multiset (TaskCt × ℤ)) t

theorem inflatedWork_eq {list : List TaskCt} (h : Positive list) (fixed : Bool) (pmFreq : List ℤ)
    (period w : ℤ) :
    inflatedWork fixed list pmFreq period w = inflatedBefore fixed list pmFreq period (w + 1) := by
  rw [inflatedWork, List.sum_map_ite, List.map_const', List.sum_replicate, smul_zero, add_zero,
    inflatedBefore, demand, Multiset.map_coe, Multiset.sum_coe]
  refine congrArg List.sum (List.map_congr_left fun x hx => ?_)
  obtain ⟨hmem, hcond⟩ := List.mem_filter.1 hx
  have hp : 0 < x.1.period := by
    have := h x.1 (List.of_mem_zip hmem).1
    omega
  have hfixed : decide (x.2 ≠ 0) = fixed := (of_decide_eq_true hcond).2
  rw [ceil_succ w hp, mul_comm, inflatedCost, ← hfixed]
  simp only [decide_eq_true_eq]

/-- A task that has not got its frequency, among tasks of which some have. -/
structure Undecided (list : List TaskCt) (pmFreq : List ℤ) (pos : ℕ) : Prop where
  positive : Positive list
  sorted : list.Pairwise fun a b => a.period ≤ b.period
  length : pmFreq.length = list.length
  nonneg : ∀ v ∈ pmFreq, 0 ≤ v
  lt : pos < list.length
  unset : pmFreq.getD pos 0 = 0

section Inflated

variable {list : List TaskCt} {pmFreq : List ℤ} {pos : ℕ}

/-- The inflated work of the tasks that have got their frequency. -/
def fixedBefore (list : List TaskCt) (pmFreq : List ℤ) (pos : ℕ) (t : ℤ) : ℤ :=
  inflatedBefore true list pmFreq (list.getD pos default).period t

/-- The work of the others. -/
def freeBefore (list : List TaskCt) (pmFreq : List ℤ) (pos : ℕ) (t : ℤ) : ℤ :=
  inflatedBefore false list pmFreq (list.getD pos default).period t

/-- The idle time up to `t`, if all work released before `t` is done by then. -/
def inflatedSpare (list : List TaskCt) (pmFreq : List ℤ) (pos : ℕ) (t : ℤ) : ℤ :=
  t - fixedBefore list pmFreq pos t - freeBefore list pmFreq pos t

theorem mem_rivals {fixed : Bool} {period : ℤ} {x : TaskCt × ℤ}
    (hx : x ∈ (↑(rivals fixed list pmFreq period) : Multiset (TaskCt × ℤ))) :
    x.1 ∈ list ∧ x.2 ∈ pmFreq ∧ x.1.period ≤ period := by
  obtain ⟨hmem, hcond⟩ := List.mem_filter.1 (Multiset.mem_coe.1 hx)
  exact ⟨(List.of_mem_zip hmem).1, (List.of_mem_zip hmem).2, (of_decide_eq_true hcond).1⟩

theorem inflatedCost_nonneg {x : TaskCt × ℤ} (hb : 0 ≤ x.1.budget) (hv : 0 ≤ x.2) :
    0 ≤ inflatedCost x := by
  unfold inflatedCost
  split_ifs
  · exact Int.ediv_nonneg (mul_nonneg hb (by norm_num [scaleUpFactor])) hv
  · exact hb

namespace Undecided

variable (h : Undecided list pmFreq pos)

include h

theorem cost_nonneg {fixed : Bool} {period : ℤ} :
    ∀ x ∈ (↑(rivals fixed list pmFreq period) : Multiset (TaskCt × ℤ)), 0 ≤ inflatedCost x := by
  intro x hx
  obtain ⟨hmem, hv, -⟩ := mem_rivals hx
  exact inflatedCost_nonneg (h.positive x.1 hmem).1.le (h.nonneg _ hv)

theorem period_pos {fixed : Bool} {period : ℤ} :
    ∀ x ∈ (↑(rivals fixed list pmFreq period) : Multiset (TaskCt × ℤ)), 0 < x.1.period := by
  intro x hx
  have := h.positive x.1 (mem_rivals hx).1
  omega

theorem inflatedBefore_mono (fixed : Bool) (period : ℤ) {t u : ℤ} (htu : t ≤ u) :
    inflatedBefore fixed list pmFreq period t ≤ inflatedBefore fixed list pmFreq period u :=
  demand_mono_time h.cost_nonneg h.period_pos htu

theorem fixedBefore_mono {t u : ℤ} (htu : t ≤ u) :
    fixedBefore list pmFreq pos t ≤ fixedBefore list pmFreq pos u :=
  h.inflatedBefore_mono true _ htu

theorem freeBefore_mono {t u : ℤ} (htu : t ≤ u) :
    freeBefore list pmFreq pos t ≤ freeBefore list pmFreq pos u :=
  h.inflatedBefore_mono false _ htu

theorem fixedBefore_nonneg {t : ℤ} (ht : 0 < t) : 0 ≤ fixedBefore list pmFreq pos t :=
  demand_nonneg h.cost_nonneg h.period_pos ht

/-- The task itself is one of the others. -/
theorem budget_le_freeBefore {t : ℤ} (ht : 0 < t) :
    (list.getD pos default).budget ≤ freeBefore list pmFreq pos t := by
  have hpos : pos < pmFreq.length := h.length ▸ h.lt
  have hself : (list.getD pos default, (0 : ℤ)) ∈
      (↑(rivals false list pmFreq (list.getD pos default).period) : Multiset (TaskCt × ℤ)) := by
    refine Multiset.mem_coe.2 (List.mem_filter.2 ⟨?_, by simp⟩)
    have hz : pos < (list.zip pmFreq).length := by
      rw [List.length_zip, h.length, min_self]
      exact h.lt
    have hget : (list.zip pmFreq)[pos] = (list.getD pos default, (0 : ℤ)) := by
      rw [List.getElem_zip, List.getD_eq_getElem _ _ h.lt]
      have hunset := h.unset
      rw [List.getD_eq_getElem _ _ hpos] at hunset
      rw [hunset]
    rw [← hget]
    exact List.getElem_mem hz
  have hcost : inflatedCost (list.getD pos default, 0) = (list.getD pos default).budget := rfl
  rw [← hcost]
  exact cost_le_demand h.cost_nonneg h.period_pos ht hself

end Undecided

/-! ### The busy period -/

/-- The work of a busy period that began with the idle time `slack`. -/
def busyEnd (list : List TaskCt) (pmFreq : List ℤ) (pos : ℕ) (slack w : ℤ) : ℤ :=
  fixedBefore list pmFreq pos (w + 1) + freeBefore list pmFreq pos (w + 1) + slack

/-- The inner loop has come to the end of the busy period, and has noted the work there. -/
structure BusyEnd (list : List TaskCt) (pmFreq : List ℤ) (pos : ℕ) (x : Inflate) : Prop where
  fixed : x.w = busyEnd list pmFreq pos x.s x.w
  ib : x.ib = fixedBefore list pmFreq pos (x.w + 1)
  b : x.b = freeBefore list pmFreq pos (x.w + 1)

/-- What the inner loop keeps, from the state `x` it started in. -/
structure InflateBusyInv (list : List TaskCt) (pmFreq : List ℤ) (pos : ℕ) (x : Inflate)
    (y : Inflate × Bool) : Prop where
  frame : y.1.s = x.s ∧ y.1.alpha = x.alpha
  after : x.w ≤ y.1.w
  up : y.1.w ≤ busyEnd list pmFreq pos x.s y.1.w
  busy : ∀ u, x.w ≤ u → u < y.1.w → u < busyEnd list pmFreq pos x.s u
  done : y.2 = false → BusyEnd list pmFreq pos y.1

theorem Undecided.busyEnd_mono (h : Undecided list pmFreq pos) (slack : ℤ) {t u : ℤ} (htu : t ≤ u) :
    busyEnd list pmFreq pos slack t ≤ busyEnd list pmFreq pos slack u := by
  have h1 := h.fixedBefore_mono (t := t + 1) (u := u + 1) (by omega)
  have h2 := h.freeBefore_mono (t := t + 1) (u := u + 1) (by omega)
  unfold busyEnd
  omega

theorem inflateBusyTurn_next (h : Undecided list pmFreq pos) {y : Inflate}
    (hlt : y.w < (list.getD pos default).period) :
    inflateBusyTurn list pmFreq (list.getD pos default).period (y, true) = some (.next
      ({ y with
          ib := fixedBefore list pmFreq pos (y.w + 1), b := freeBefore list pmFreq pos (y.w + 1)
          w := busyEnd list pmFreq pos y.s y.w },
        decide (busyEnd list pmFreq pos y.s y.w - y.w ≠ 0))) := by
  unfold inflateBusyTurn busyEnd fixedBefore freeBefore
  rw [if_pos ⟨hlt, rfl⟩, ← inflatedWork_eq h.positive, ← inflatedWork_eq h.positive]

/-- The inner loop comes back at the end of the busy period: every instant before has work left. -/
theorem inflateBusy_spec (h : Undecided list pmFreq pos) {x : Inflate}
    (hstart : x.w ≤ busyEnd list pmFreq pos x.s x.w) {fuel : ℕ}
    (hfuel : ((list.getD pos default).period - x.w).toNat + 1 < fuel) :
    ∃ y, run (inflateBusyTurn list pmFreq (list.getD pos default).period) fuel (x, true) = some y ∧
      (y.s = x.s ∧ y.alpha = x.alpha) ∧ x.w ≤ y.w ∧
      (∀ u, x.w ≤ u → u < y.w → u < busyEnd list pmFreq pos x.s u) ∧
      ((list.getD pos default).period ≤ y.w ∨ BusyEnd list pmFreq pos y) := by
  refine run_total (I := InflateBusyInv list pmFreq pos x)
    (fun y => if y.2 then ((list.getD pos default).period - y.1.w).toNat + 1 else 0)
    (fun y hy => ?_) ⟨⟨rfl, rfl⟩, le_rfl, hstart, fun u h1 h2 => ?_, Bool.noConfusion⟩
    (by simpa using hfuel)
  · obtain ⟨y, more⟩ := y
    by_cases hlt : y.w < (list.getD pos default).period ∧ more = true
    · obtain ⟨hlt, rfl⟩ := hlt
      left
      have hs : y.s = x.s := hy.frame.1
      have hafter : x.w ≤ y.w := hy.after
      have hup : y.w ≤ busyEnd list pmFreq pos x.s y.w := hy.up
      have hmono := fun {u : ℤ} (hu : y.w ≤ u) => h.busyEnd_mono x.s hu
      refine ⟨_, inflateBusyTurn_next h hlt, ⟨hy.frame, ?_, ?_, ?_, ?_⟩, ?_⟩
      · simp only [hs]
        exact hafter.trans hup
      · simp only [hs]
        exact hmono hup
      · intro u h1 h2
        simp only [hs] at h2
        rcases lt_or_ge u y.w with huy | huy
        · exact hy.busy u h1 huy
        · exact lt_of_lt_of_le h2 (hmono huy)
      · -- the flag falls when the value repeats
        intro hd
        have heq : busyEnd list pmFreq pos y.s y.w = y.w := by
          simp only [decide_eq_false_iff_not, ne_eq, not_not] at hd
          omega
        refine ⟨?_, ?_, ?_⟩ <;> simp only [heq]
      · simp only [hs]
        by_cases heq : busyEnd list pmFreq pos x.s y.w - y.w = 0
        · simp [heq]
        · simp only [heq, ne_eq, not_false_eq_true, decide_true, if_true]
          omega
    · right
      refine ⟨y, if_neg hlt, hy.frame, hy.after, hy.busy, ?_⟩
      rcases lt_or_ge y.w (list.getD pos default).period with hyp | hyp
      · refine Or.inr (hy.done ?_)
        cases more with
        | false => rfl
        | true => exact absurd ⟨hyp, rfl⟩ hlt
      · exact Or.inl hyp
  · simp only at h2
    omega

/-! ### The idle period -/

/-- The idle time from `w` on: up to the next release of one of the tasks `0 … pos`, or the end of
the period. -/
def inflateIdle (list : List TaskCt) (pos : ℕ) (period w : ℤ) : ℤ :=
  (list.take (pos + 1)).foldl (fun idle d =>
    let temp := d.period * ceiling w d.period - w
    if temp < idle then temp else idle) (period - w)

theorem le_inflateIdle_iff (h : Positive list) {w : ℤ} (hw : 0 ≤ w) (pos : ℕ) (period x : ℤ) :
    x ≤ inflateIdle list pos period w ↔ x ≤ period - w ∧
      ∀ d ∈ list.take (pos + 1), w + x ≤ ⌈(w : ℚ) / d.period⌉ * d.period := by
  have hfold := le_foldl_min_iff (fun d : TaskCt => d.period * ceiling w d.period - w)
    (list.take (pos + 1)) (period - w) x
  refine hfold.trans (and_congr_right fun _ => forall₂_congr fun d hd => ?_)
  rw [ceiling_eq hw (by have := h.take _ d hd; omega), mul_comm]
  omega

theorem inflateIdle_nonneg (h : Positive list) {w period : ℤ} (hw : 0 ≤ w) (hle : w ≤ period)
    (pos : ℕ) : 0 ≤ inflateIdle list pos period w := by
  rw [le_inflateIdle_iff h hw]
  refine ⟨by omega, fun d hd => ?_⟩
  rw [add_zero]
  exact le_ceil_mul (by have := h.take _ d hd; omega)

/-- A task of at most the period is one of the tasks `0 … pos`, or has the same period. -/
theorem Undecided.mem_take_or (h : Undecided list pmFreq pos) {c : TaskCt} (hc : c ∈ list)
    (hle : c.period ≤ (list.getD pos default).period) :
    c ∈ list.take (pos + 1) ∨ c.period = (list.getD pos default).period := by
  obtain ⟨i, hi, rfl⟩ := List.getElem_of_mem hc
  rcases le_or_gt i pos with hip | hip
  · left
    rw [List.mem_take_iff_getElem]
    exact ⟨i, by omega, rfl⟩
  · right
    refine le_antisymm hle ?_
    rw [List.getD_eq_getElem _ _ h.lt]
    exact List.pairwise_iff_getElem.1 h.sorted pos i h.lt hi hip

/-- In an idle period nothing is released. -/
theorem Undecided.inflatedBefore_const (h : Undecided list pmFreq pos) (fixed : Bool) {w t : ℤ}
    (hw : 0 < w) (hle : w ≤ (list.getD pos default).period) (h1 : w ≤ t)
    (h2 : t ≤ w + inflateIdle list pos (list.getD pos default).period w) :
    inflatedBefore fixed list pmFreq (list.getD pos default).period t =
      inflatedBefore fixed list pmFreq (list.getD pos default).period w := by
  obtain ⟨hend, hrel⟩ := (le_inflateIdle_iff h.positive hw.le pos _ _).1
    (le_refl (inflateIdle list pos (list.getD pos default).period w))
  refine demand_const h.period_pos h1 fun x hx => ?_
  obtain ⟨hmem, -, hper⟩ := mem_rivals hx
  rcases h.mem_take_or hmem hper with htake | heq
  · exact h2.trans (hrel _ htake)
  · simp only [heq]
    rw [ceil_eq_one hw hle]
    omega

/-! ### The walk in closed form -/

/-- At the speed `k`/1000 the work of the tasks without a frequency is not done before `t`. -/
def SpeedFits (list : List TaskCt) (pmFreq : List ℤ) (pos : ℕ) (k t : ℤ) : Prop :=
  k * (t - fixedBefore list pmFreq pos t) ≤ freeBefore list pmFreq pos t * scaleUpFactor

/-- The speed `k`/1000 is not more than what the walk asks for. -/
structure LowSpeed (list : List TaskCt) (pmFreq : List ℤ) (pos : ℕ) (k : ℤ) : Prop where
  le : k ≤ scaleUpFactor
  fits : ∀ t, 0 < t → t ≤ (list.getD pos default).period → 0 < inflatedSpare list pmFreq pos t →
    SpeedFits list pmFreq pos k t

theorem Undecided.spare_le (h : Undecided list pmFreq pos) {t : ℤ} (ht : 0 < t) :
    inflatedSpare list pmFreq pos t < t - fixedBefore list pmFreq pos t := by
  have hb := h.budget_le_freeBefore ht
  have := h.positive.get h.lt
  unfold inflatedSpare
  omega

theorem SpeedFits.mono {k k' t : ℤ} (hfits : SpeedFits list pmFreq pos k' t) (hk : k ≤ k')
    (ht : 0 ≤ t - fixedBefore list pmFreq pos t) : SpeedFits list pmFreq pos k t :=
  le_trans (mul_le_mul_of_nonneg_right hk ht) hfits

/-- What the walk keeps. -/
structure InflateInv (list : List TaskCt) (pmFreq : List ℤ) (pos : ℕ) (x : Inflate) : Prop where
  started : 0 < x.w
  slack : 0 ≤ x.s
  nonneg : 0 ≤ x.alpha
  upper : x.alpha ≤ scaleUpFactor
  seen : ∀ t, 0 < t → t ≤ x.w → 0 < inflatedSpare list pmFreq pos t →
    SpeedFits list pmFreq pos x.alpha t
  lowest : ∀ k, LowSpeed list pmFreq pos k → k ≤ x.alpha
  bound : ∀ t, 0 < t → t ≤ x.w → inflatedSpare list pmFreq pos t ≤ x.s
  /-- the last instant the walk stopped at -/
  last : x.s = 0 ∨ ∃ u, 0 < u ∧ u ≤ x.w ∧ inflatedSpare list pmFreq pos u = x.s ∧
    SpeedFits list pmFreq pos x.alpha u
  idle : x.inBzp = false → (list.getD pos default).period ≤ x.w ∨ BusyEnd list pmFreq pos x

theorem inflateInv_start (h : Undecided list pmFreq pos) :
    InflateInv list pmFreq pos ⟨true, (list.getD pos default).budget, 0, 0, 0, 1000⟩ := by
  obtain ⟨hb, -⟩ := h.positive.get h.lt
  have hspare : ∀ t, 0 < t → t ≤ (list.getD pos default).budget →
      inflatedSpare list pmFreq pos t ≤ 0 := by
    intro t h1 h2
    have h3 := h.budget_le_freeBefore h1
    have h4 := h.fixedBefore_nonneg h1
    unfold inflatedSpare
    omega
  refine ⟨hb, le_rfl, by norm_num, by norm_num [scaleUpFactor], fun t h1 h2 h3 => ?_,
    fun k hk => hk.le, hspare, Or.inl rfl, Bool.noConfusion⟩
  have := hspare t h1 h2
  omega

/-- From the last stop on, the speed found so far fits wherever there is no more idle time. -/
theorem InflateInv.after_last (h : Undecided list pmFreq pos) {x : Inflate}
    (hx : InflateInv list pmFreq pos x) {t : ℤ} (ht : x.w ≤ t)
    (h1 : 0 < inflatedSpare list pmFreq pos t) (h2 : inflatedSpare list pmFreq pos t ≤ x.s) :
    SpeedFits list pmFreq pos x.alpha t := by
  rcases hx.last with hlast | ⟨u, -, huw, heq, hfits⟩
  · omega
  · have hmono := h.freeBefore_mono (huw.trans ht)
    have hnonneg := hx.nonneg
    have hupper := hx.upper
    unfold SpeedFits inflatedSpare at *
    rw [scaleUpFactor] at *
    have hu : u - fixedBefore list pmFreq pos u = x.s + freeBefore list pmFreq pos u := by omega
    have hle : t - fixedBefore list pmFreq pos t ≤ x.s + freeBefore list pmFreq pos t := by omega
    rw [hu] at hfits
    calc x.alpha * (t - fixedBefore list pmFreq pos t)
        ≤ x.alpha * (x.s + freeBefore list pmFreq pos t) := mul_le_mul_of_nonneg_left hle hnonneg
      _ = x.alpha * (x.s + freeBefore list pmFreq pos u) +
          x.alpha * (freeBefore list pmFreq pos t - freeBefore list pmFreq pos u) := by ring
      _ ≤ freeBefore list pmFreq pos u * 1000 +
          1000 * (freeBefore list pmFreq pos t - freeBefore list pmFreq pos u) :=
        add_le_add hfits (mul_le_mul_of_nonneg_right hupper (by omega))
      _ = freeBefore list pmFreq pos t * 1000 := by ring

/-- A busy period: up to its end the idle time does not grow. -/
theorem inflateInv_busy (h : Undecided list pmFreq pos) {x y : Inflate}
    (hx : InflateInv list pmFreq pos x) (hframe : y.s = x.s ∧ y.alpha = x.alpha) (hw : x.w ≤ y.w)
    (hbusy : ∀ u, x.w ≤ u → u < y.w → u < busyEnd list pmFreq pos x.s u)
    (hend : (list.getD pos default).period ≤ y.w ∨ BusyEnd list pmFreq pos y) :
    InflateInv list pmFreq pos { y with inBzp := false } := by
  obtain ⟨hs, halpha⟩ := hframe
  have hspare : ∀ t, x.w < t → t ≤ y.w → inflatedSpare list pmFreq pos t ≤ x.s := by
    intro t h1 h2
    have hlt := hbusy (t - 1) (by omega) (by omega)
    rw [busyEnd, sub_add_cancel] at hlt
    unfold inflatedSpare
    omega
  refine ⟨lt_of_lt_of_le hx.started hw, ?_, ?_, ?_, ?_, ?_, ?_, ?_,
    fun _ => hend.imp id fun hb => ⟨hb.fixed, hb.ib, hb.b⟩⟩ <;> simp only [hs, halpha]
  · exact hx.slack
  · exact hx.nonneg
  · exact hx.upper
  · intro t h1 h2 h3
    rcases le_or_gt t x.w with htw | htw
    · exact hx.seen t h1 htw h3
    · exact hx.after_last h htw.le h3 (hspare t htw h2)
  · exact hx.lowest
  · intro t h1 h2
    rcases le_or_gt t x.w with htw | htw
    · exact hx.bound t h1 htw
    · exact hspare t htw h2
  · refine hx.last.imp_right ?_
    rintro ⟨u, h1, h2, h3, h4⟩
    exact ⟨u, h1, h2.trans hw, h3, h4⟩

/-- What is known at the end of a busy period: nothing is released there, and the idle time is the
largest so far. -/
theorem BusyEnd.here (h : Undecided list pmFreq pos) {x : Inflate}
    (hx : InflateInv list pmFreq pos x) (hend : BusyEnd list pmFreq pos x) :
    x.ib = fixedBefore list pmFreq pos x.w ∧ x.b = freeBefore list pmFreq pos x.w ∧
      inflatedSpare list pmFreq pos x.w = x.s := by
  obtain ⟨hfixed, hib, hb⟩ := hend
  have hbound := hx.bound x.w hx.started le_rfl
  have h1 := h.fixedBefore_mono (t := x.w) (u := x.w + 1) (by omega)
  have h2 := h.freeBefore_mono (t := x.w) (u := x.w + 1) (by omega)
  unfold busyEnd at hfixed
  unfold inflatedSpare at *
  omega

/-- In the idle period after it no work is added, and the idle time grows with the clock. -/
theorem BusyEnd.idle (h : Undecided list pmFreq pos) {x : Inflate}
    (hx : InflateInv list pmFreq pos x) (hlt : x.w < (list.getD pos default).period)
    (hend : BusyEnd list pmFreq pos x) {t : ℤ} (h1 : x.w ≤ t)
    (h2 : t ≤ x.w + inflateIdle list pos (list.getD pos default).period x.w) :
    fixedBefore list pmFreq pos t = x.ib ∧ freeBefore list pmFreq pos t = x.b ∧
      inflatedSpare list pmFreq pos t = x.s + (t - x.w) := by
  obtain ⟨hib, hb, hspare⟩ := hend.here h hx
  have hfixed : fixedBefore list pmFreq pos t = fixedBefore list pmFreq pos x.w :=
    h.inflatedBefore_const true hx.started hlt.le h1 h2
  have hfree : freeBefore list pmFreq pos t = freeBefore list pmFreq pos x.w :=
    h.inflatedBefore_const false hx.started hlt.le h1 h2
  refine ⟨hfixed.trans hib.symm, hfree.trans hb.symm, ?_⟩
  unfold inflatedSpare at *
  omega

/-- An idle period: the walk stops at its end and takes the speed there. -/
theorem inflateInv_idle (h : Undecided list pmFreq pos) {x : Inflate}
    (hx : InflateInv list pmFreq pos x) (hlt : x.w < (list.getD pos default).period)
    (hend : BusyEnd list pmFreq pos x) {idle temp alpha : ℤ}
    (hidle : idle = inflateIdle list pos (list.getD pos default).period x.w)
    (htemp : temp = x.b * scaleUpFactor / (x.w + idle - x.ib))
    (halpha : alpha = if temp < x.alpha then temp else x.alpha) :
    0 ≤ idle ∧ x.w + idle ≤ (list.getD pos default).period ∧ InflateInv list pmFreq pos
      { x with s := x.s + idle, w := x.w + idle, inBzp := true, alpha := alpha } := by
  obtain ⟨-, hb, hspare⟩ := hend.here h hx
  have hpos := hx.started
  have hslack := hx.slack
  obtain ⟨hle, -⟩ := (le_inflateIdle_iff h.positive hpos.le pos _ _).1 hidle.le
  have hidle0 : 0 ≤ idle := hidle ▸ inflateIdle_nonneg h.positive hpos.le hlt.le pos
  have hgrow : ∀ t, x.w ≤ t → t ≤ x.w + idle → fixedBefore list pmFreq pos t = x.ib ∧
      freeBefore list pmFreq pos t = x.b ∧ inflatedSpare list pmFreq pos t = x.s + (t - x.w) :=
    fun t h1 h2 => hend.idle h hx hlt h1 (hidle ▸ h2)
  -- what is left of the time without the inflated work
  have hdel : 0 < x.b ∧ x.w + idle - x.ib = x.s + idle + x.b := by
    have h1 := h.budget_le_freeBefore hpos
    have h2 := h.positive.get h.lt
    have h3 := (hgrow x.w le_rfl (by omega)).1
    unfold inflatedSpare at hspare
    omega
  have hmin : ∀ k, k ≤ alpha ↔ k * (x.w + idle - x.ib) ≤ x.b * scaleUpFactor ∧ k ≤ x.alpha := by
    intro k
    rw [halpha, ← min_def_lt, le_min_iff, htemp, Int.le_ediv_iff_mul_le (by omega)]
  obtain ⟨hat, hle'⟩ := (hmin alpha).1 le_rfl
  have halpha0 : 0 ≤ alpha := by
    refine (hmin 0).2 ⟨?_, hx.nonneg⟩
    rw [zero_mul]
    exact mul_nonneg hdel.1.le (by norm_num [scaleUpFactor])
  have hfits : ∀ t, x.w ≤ t → t ≤ x.w + idle → SpeedFits list pmFreq pos alpha t := by
    intro t h1 h2
    obtain ⟨h3, h4, -⟩ := hgrow t h1 h2
    rw [SpeedFits, h3, h4]
    exact le_trans (mul_le_mul_of_nonneg_left (by omega) halpha0) hat
  refine ⟨hidle0, by omega, ?_, ?_, halpha0, hle'.trans hx.upper, ?_, ?_, ?_, ?_,
    Bool.noConfusion⟩
  · exact lt_of_lt_of_le hpos (le_add_of_nonneg_right hidle0)
  · exact add_nonneg hslack hidle0
  · intro t h1 h2 h3
    rcases le_or_gt t x.w with htw | htw
    · have := h.spare_le h1
      exact (hx.seen t h1 htw h3).mono hle' (by omega)
    · exact hfits t htw.le h2
  · intro k hk
    refine (hmin k).2 ⟨?_, hx.lowest k hk⟩
    rcases (add_nonneg hslack hidle0).eq_or_lt with hzero | hpos'
    · -- no idle time at all: any speed up to the maximum fits
      rw [hdel.2, ← hzero, zero_add, mul_comm x.b]
      exact mul_le_mul_of_nonneg_right hk.le hdel.1.le
    · obtain ⟨h3, h4, h5⟩ := hgrow (x.w + idle) (by omega) le_rfl
      have hfit := hk.fits (x.w + idle) (by omega) (by omega) (by omega)
      rwa [SpeedFits, h3, h4] at hfit
  · intro t h1 h2
    simp only at h2 ⊢
    rcases le_or_gt t x.w with htw | htw
    · have := hx.bound t h1 htw
      omega
    · have := (hgrow t htw.le h2).2.2
      omega
  · have := (hgrow (x.w + idle) (by omega) le_rfl).2.2
    refine Or.inr ⟨x.w + idle, by omega, le_rfl, ?_, hfits _ (by omega) le_rfl⟩
    simp only
    omega

/-- What the walk answers at the end of the period. -/
theorem InflateInv.result (h : Undecided list pmFreq pos) {x : Inflate}
    (hx : InflateInv list pmFreq pos x) (hend : (list.getD pos default).period ≤ x.w) (k : ℤ) :
    LowSpeed list pmFreq pos k ↔ k ≤ x.alpha := by
  refine ⟨hx.lowest k, fun hk => ⟨hk.trans hx.upper, fun t h1 h2 h3 => ?_⟩⟩
  have := h.spare_le h1
  exact (hx.seen t h1 (h2.trans hend) h3).mono hk (by omega)

/-! ### Where the walk stays -/

/-- An instant at which the idle time is as large as ever, one of the tasks `0 … pos` is released and
no work is: the next idle period has length zero. -/
structure StallsAt (list : List TaskCt) (pmFreq : List ℤ) (pos : ℕ) (w : ℤ) : Prop where
  started : 0 < w
  lt : w < (list.getD pos default).period
  release : ∃ d ∈ list.take (pos + 1), d.period ∣ w
  noWork : fixedBefore list pmFreq pos (w + 1) + freeBefore list pmFreq pos (w + 1) =
    fixedBefore list pmFreq pos w + freeBefore list pmFreq pos w
  slack : 0 ≤ inflatedSpare list pmFreq pos w
  largest : ∀ u, 0 < u → u < w → inflatedSpare list pmFreq pos u ≤ inflatedSpare list pmFreq pos w

/-- The walk never ends. -/
def Stalls (list : List TaskCt) (pmFreq : List ℤ) (pos : ℕ) : Prop :=
  ∃ w, StallsAt list pmFreq pos w

theorem stallsAt_of_idle (h : Undecided list pmFreq pos) {x : Inflate}
    (hx : InflateInv list pmFreq pos x) (hlt : x.w < (list.getD pos default).period)
    (hend : BusyEnd list pmFreq pos x)
    (hzero : inflateIdle list pos (list.getD pos default).period x.w < 1) :
    StallsAt list pmFreq pos x.w := by
  obtain ⟨hib, hb, hspare⟩ := hend.here h hx
  have hpos := hx.started
  rw [← not_le, le_inflateIdle_iff h.positive hpos.le, not_and] at hzero
  have hrelease := hzero (by omega)
  push Not at hrelease
  obtain ⟨d, hd, hceil⟩ := hrelease
  have hge := le_ceil_mul (t := x.w) (p := d.period) (by have := h.positive.take _ d hd; omega)
  refine ⟨hpos, hlt, ⟨d, hd, ?_⟩, ?_, ?_, fun u h1 h2 => ?_⟩
  · have heq : x.w = ⌈(x.w : ℚ) / d.period⌉ * d.period := by omega
    exact Dvd.intro_left _ heq.symm
  · rw [← hend.ib, ← hend.b, hib, hb]
  · rw [hspare]
    exact hx.slack
  · rw [hspare]
    exact hx.bound u h1 h2.le

/-- The walk does not get past an instant at which it stalls. -/
theorem StallsAt.busy_le {w₀ : ℤ} (hstall : StallsAt list pmFreq pos w₀) {x y : Inflate}
    (hx : InflateInv list pmFreq pos x) (hle : x.w ≤ w₀)
    (hbusy : ∀ u, x.w ≤ u → u < y.w → u < busyEnd list pmFreq pos x.s u) : y.w ≤ w₀ := by
  by_contra hlt
  have hwork := hbusy w₀ hle (by omega)
  have hmax : x.s ≤ inflatedSpare list pmFreq pos w₀ := by
    rcases hx.last with hlast | ⟨u, h1, h2, heq, -⟩
    · rw [hlast]
      exact hstall.slack
    · rw [← heq]
      rcases (h2.trans hle).eq_or_lt with rfl | hlt'
      · exact le_rfl
      · exact hstall.largest u h1 hlt'
  have := hstall.noWork
  unfold busyEnd at hwork
  unfold inflatedSpare at hmax
  omega

theorem StallsAt.idle_le (h : Undecided list pmFreq pos) {w₀ w : ℤ}
    (hstall : StallsAt list pmFreq pos w₀) (hw : 0 < w) (hle : w ≤ w₀) :
    w + inflateIdle list pos (list.getD pos default).period w ≤ w₀ := by
  obtain ⟨d, hd, c, hc⟩ := hstall.release
  have hp : 0 < d.period := by
    have := h.positive.take _ d hd
    omega
  obtain ⟨-, hrel⟩ := (le_inflateIdle_iff h.positive hw.le pos _ _).1
    (le_refl (inflateIdle list pos (list.getD pos default).period w))
  refine (hrel d hd).trans ?_
  have hceil : ⌈(w : ℚ) / d.period⌉ ≤ c := by
    rw [Int.ceil_le, div_le_iff₀ (by exact_mod_cast hp)]
    have : w ≤ c * d.period := by
      rw [mul_comm]
      omega
    exact_mod_cast this
  rw [hc, mul_comm d.period]
  exact mul_le_mul_of_nonneg_right hceil hp.le

/-! ### The two kinds of turns -/

theorem inflateTurn_busy (h : Undecided list pmFreq pos) {x : Inflate}
    (hx : InflateInv list pmFreq pos x) (hlt : x.w < (list.getD pos default).period)
    (hbzp : x.inBzp = true) {fuel : ℕ}
    (hfuel : (list.getD pos default).period.toNat + 1 < fuel) :
    ∃ y : Inflate, inflateTurn fuel list pmFreq pos (list.getD pos default).period x =
        some (.next { y with inBzp := false }) ∧
      InflateInv list pmFreq pos { y with inBzp := false } ∧ x.w ≤ y.w ∧
      ∀ u, x.w ≤ u → u < y.w → u < busyEnd list pmFreq pos x.s u := by
  have hpos := hx.started
  have hstart : x.w ≤ busyEnd list pmFreq pos x.s x.w := by
    have h1 := hx.bound x.w hpos le_rfl
    have h2 := h.fixedBefore_mono (t := x.w) (u := x.w + 1) (by omega)
    have h3 := h.freeBefore_mono (t := x.w) (u := x.w + 1) (by omega)
    unfold inflatedSpare at h1
    unfold busyEnd
    omega
  obtain ⟨y, hrun, hframe, hw, hbusy, hend⟩ := inflateBusy_spec h hstart
    (by omega : ((list.getD pos default).period - x.w).toNat + 1 < fuel)
  refine ⟨y, ?_, inflateInv_busy h hx hframe hw hbusy hend, hw, hbusy⟩
  have hdelta : decide ((list.getD pos default).period - x.w > 0) = true :=
    decide_eq_true (by omega)
  simp only [inflateTurn, if_pos hlt, hbzp, if_true, hdelta, hrun]
  rfl

theorem inflateTurn_idle {x : Inflate} (hlt : x.w < (list.getD pos default).period)
    (hbzp : x.inBzp = false) (fuel : ℕ) :
    inflateTurn fuel list pmFreq pos (list.getD pos default).period x =
      some (.next { x with
        s := x.s + inflateIdle list pos (list.getD pos default).period x.w
        w := x.w + inflateIdle list pos (list.getD pos default).period x.w
        inBzp := true
        alpha := if x.b * scaleUpFactor /
            (x.w + inflateIdle list pos (list.getD pos default).period x.w - x.ib) < x.alpha
          then x.b * scaleUpFactor /
            (x.w + inflateIdle list pos (list.getD pos default).period x.w - x.ib)
          else x.alpha }) := by
  simp only [inflateTurn, if_pos hlt, hbzp, Bool.false_eq_true, if_false]
  rfl

/-! ### The answer -/

open Classical in
/-- The greatest speed the walk allows, if it ends. -/
noncomputable def lowestSpeed (list : List TaskCt) (pmFreq : List ℤ) (pos : ℕ) : Option ℤ :=
  if Stalls list pmFreq pos then none else some (greatest (LowSpeed list pmFreq pos))

theorem inflatedFreq_none (h : Undecided list pmFreq pos) (hstall : Stalls list pmFreq pos)
    {fuel : ℕ} (hfuel : (list.getD pos default).period.toNat + 1 < fuel) :
    inflatedFreq fuel list pmFreq pos = none := by
  obtain ⟨w₀, hstall⟩ := hstall
  have hstart : (list.getD pos default).budget ≤ w₀ := by
    -- before its own budget there is no idle time
    by_contra hlt
    have h1 := h.budget_le_freeBefore hstall.started
    have h2 := h.fixedBefore_nonneg hstall.started
    have h3 := hstall.slack
    unfold inflatedSpare at h3
    omega
  have hrun : run (inflateTurn fuel list pmFreq pos (list.getD pos default).period) fuel
      ⟨true, (list.getD pos default).budget, 0, 0, 0, 1000⟩ = none := by
    refine run_eq_none (I := fun x => InflateInv list pmFreq pos x ∧ x.w ≤ w₀) (fun x hx => ?_)
      ⟨inflateInv_start h, hstart⟩ fuel
    obtain ⟨hx, hle⟩ := hx
    have hlt : x.w < (list.getD pos default).period := lt_of_le_of_lt hle hstall.lt
    cases hbzp : x.inBzp with
    | true =>
      obtain ⟨y, hturn, hy, -, hbusy⟩ := inflateTurn_busy h hx hlt hbzp hfuel
      exact ⟨_, hturn, hy, hstall.busy_le hx hle hbusy⟩
    | false =>
      have hend := (hx.idle hbzp).resolve_left (by omega)
      exact ⟨_, inflateTurn_idle hlt hbzp fuel, (inflateInv_idle h hx hlt hend rfl rfl rfl).2.2,
        hstall.idle_le h hx.started hle⟩
  rw [inflatedFreq, hrun]
  rfl

/-- **What `inflated_freq` computes.** -/
theorem inflatedFreq_eq (h : Undecided list pmFreq pos) {fuel : ℕ}
    (hfuel : 2 * (list.getD pos default).period.toNat + 2 < fuel) :
    inflatedFreq fuel list pmFreq pos = lowestSpeed list pmFreq pos := by
  by_cases hstall : Stalls list pmFreq pos
  · rw [lowestSpeed, if_pos hstall]
    exact inflatedFreq_none h hstall (by omega)
  rw [lowestSpeed, if_neg hstall]
  obtain ⟨hb, hbp⟩ := h.positive.get h.lt
  have hrun : ∃ x, run (inflateTurn fuel list pmFreq pos (list.getD pos default).period) fuel
      ⟨true, (list.getD pos default).budget, 0, 0, 0, 1000⟩ = some x ∧
      ∀ k, LowSpeed list pmFreq pos k ↔ k ≤ x.alpha := by
    -- a busy period clears the flag and an idle one moves the clock
    refine run_total (I := InflateInv list pmFreq pos)
      (fun x => 2 * ((list.getD pos default).period - x.w).toNat + if x.inBzp then 1 else 0)
      (fun x hx => ?_) (inflateInv_start h) ?_
    · rcases lt_or_ge x.w (list.getD pos default).period with hlt | hge
      · left
        cases hbzp : x.inBzp with
        | true =>
          obtain ⟨y, hturn, hy, hw, -⟩ :=
            inflateTurn_busy h hx hlt hbzp (by omega : _ + 1 < fuel)
          refine ⟨_, hturn, hy, ?_⟩
          simp only [if_true, Bool.false_eq_true, if_false]
          omega
        | false =>
          have hend := (hx.idle hbzp).resolve_left (by omega)
          obtain ⟨-, hle, hnext⟩ := inflateInv_idle h hx hlt hend rfl rfl rfl
          refine ⟨_, inflateTurn_idle hlt hbzp fuel, hnext, ?_⟩
          have hone : 1 ≤ inflateIdle list pos (list.getD pos default).period x.w := by
            by_contra hzero
            exact hstall ⟨x.w, stallsAt_of_idle h hx hlt hend (not_le.1 hzero)⟩
          simp only [if_true, Bool.false_eq_true, if_false]
          omega
      · right
        refine ⟨x, ?_, hx.result h hge⟩
        rw [inflateTurn, if_neg (not_lt.2 hge)]
    · simp only [if_true]
      omega
  obtain ⟨x, hrun, hx⟩ := hrun
  rw [inflatedFreq, hrun]
  exact congrArg some (greatest_eq hx).symm

end Inflated

end RtSched
