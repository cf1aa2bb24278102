import RtSched.Syscall

/-!
# What `sysclock` computes

The walk of `sysclock` over the busy and idle periods of the tasks `0 … i`, in closed form.  Entered
with `in_bzp = 1` it starts at time zero with no idle time; entered with the flag a previous task
left at zero, it takes the time from its own budget to the next release for idle.  From its start
it stops exactly where the idle time reaches a new maximum, so that

* its result is the lowest speed at these instants (`SpeedAtLeast`, `alphaOf_spec`);
* the flag it leaves says whether the last instant of the period is one of them (`EndsIdle`).

The frequency of `sysclock` is the one of the highest speed (`sysclockSpeeds_spec`), and the table
gives the least frequency that is not below it (`getTableFrequency_cases`).
-/

namespace RtSched

open TimeDemand Loop

/-! ### Work and idle time -/

/-- The work the tasks `0 … i` have released before `t`. -/
def workBefore (list : List TaskCt) (i : ℕ) (t : ℤ) : ℤ :=
  demand TaskCt.budget TaskCt.period (↑(list.take (i + 1)) : Multiset TaskCt) t

/-- The idle time up to `t`, if all work released before `t` is done by then. -/
def spare (list : List TaskCt) (i : ℕ) (t : ℤ) : ℤ := t - workBefore list i t

/-- Budgets and periods as `sys_setProcessBudget` admits them. -/
def Proper (list : List TaskCt) : Prop := ∀ c ∈ list, 0 < c.budget ∧ c.budget < c.period

/-- Budgets and periods of at least a microsecond, which is what the walk needs to make progress. -/
def Positive (list : List TaskCt) : Prop := ∀ c ∈ list, 0 < c.budget ∧ 0 < c.period

section Walk

variable {list : List TaskCt} {i : ℕ}

theorem Positive.wf (h : Positive list) : WfCts list := fun c hc => by
  have := h c hc
  omega

theorem Positive.take (h : Positive list) (n : ℕ) : Positive (list.take n) :=
  fun c hc => h c (List.mem_of_mem_take hc)

theorem Positive.get (h : Positive list) (hi : i < list.length) :
    0 < (list.getD i default).budget ∧ 0 < (list.getD i default).period :=
  h _ (getD_mem hi)

theorem Proper.positive (h : Proper list) : Positive list := fun c hc => by
  have := h c hc
  omega

theorem Proper.get (h : Proper list) (hi : i < list.length) :
    0 < (list.getD i default).budget ∧ (list.getD i default).budget < (list.getD i default).period :=
  h _ (getD_mem hi)

theorem getD_mem_take (hi : i < list.length) : list.getD i default ∈ list.take (i + 1) := by
  rw [take_succ_getD hi]
  simp

theorem releasedUpTo_eq (h : WfCts list) (c : ℤ) :
    releasedUpTo list i c = workBefore list i (c + 1) := by
  rw [releasedUpTo, workBefore, demand, Multiset.map_coe, Multiset.sum_coe]
  congr 1
  refine List.map_congr_left fun d hd => ?_
  rw [ceil_succ c (h.take _ d hd).2]

theorem workBefore_mono (h : WfCts list) {t u : ℤ} (htu : t ≤ u) :
    workBefore list i t ≤ workBefore list i u :=
  demand_mono_time (h.take _).cost (h.take _).period htu

theorem budget_le_workBefore (h : Positive list) (hi : i < list.length) {t : ℤ} (ht : 0 < t) :
    (list.getD i default).budget ≤ workBefore list i t :=
  cost_le_demand (h.take _).wf.cost (h.take _).wf.period ht
    (Multiset.mem_coe.2 (getD_mem_take hi))

/-! ### The busy period -/

/-- What the loop of a busy period keeps, from the instant `c` it started at. -/
structure BusyInv (list : List TaskCt) (i : ℕ) (slack c : ℤ) (x : ℤ × Bool) : Prop where
  after : c ≤ x.1
  up : x.1 ≤ slack + workBefore list i (x.1 + 1)
  busy : ∀ u, c ≤ u → u < x.1 → u < slack + workBefore list i (u + 1)
  fixed : x.2 = false → x.1 = slack + workBefore list i (x.1 + 1)

/-- The loop of a busy period comes back at its end: every instant before has work left. -/
theorem busy_spec (h : Positive list) {slack period c : ℤ}
    (hstart : c ≤ slack + workBefore list i (c + 1)) {fuel : ℕ}
    (hfuel : (period - c).toNat + 1 < fuel) :
    ∃ c', run (busyTurn list i slack period) fuel (c, true) = some c' ∧ c ≤ c' ∧
      (∀ u, c ≤ u → u < c' → u < slack + workBefore list i (u + 1)) ∧
      (period ≤ c' ∨ c' = slack + workBefore list i (c' + 1)) := by
  refine run_total (I := BusyInv list i slack c)
    (fun x => if x.2 then (period - x.1).toNat + 1 else 0) (fun x hx => ?_)
    ⟨le_rfl, hstart, fun u h1 h2 => by omega, Bool.noConfusion⟩ (by simpa using hfuel)
  obtain ⟨x, more⟩ := x
  by_cases hlt : x < period ∧ more = true
  · obtain ⟨hlt, rfl⟩ := hlt
    left
    have hup : x ≤ slack + workBefore list i (x + 1) := hx.up
    have hturn : busyTurn list i slack period (x, true) =
        some (.next (slack + workBefore list i (x + 1),
          decide (slack + workBefore list i (x + 1) - x ≠ 0))) := by
      rw [← releasedUpTo_eq h.wf]
      exact if_pos ⟨hlt, rfl⟩
    refine ⟨_, hturn, ⟨hx.after.trans hup, ?_, fun u h1 h2 => ?_, fun hd => ?_⟩, ?_⟩
    · have := workBefore_mono (i := i) h.wf (t := x + 1) (add_le_add_left hup 1)
      simp only at this ⊢
      omega
    · rcases lt_or_ge u x with hux | hux
      · exact hx.busy u h1 hux
      · have := workBefore_mono (i := i) h.wf (t := x + 1) (add_le_add_left hux 1)
        simp only at h2
        omega
    · -- the flag falls when the value repeats
      have heq : slack + workBefore list i (x + 1) = x := by
        simp only [decide_eq_false_iff_not, ne_eq, not_not] at hd
        omega
      simp only [heq]
    · by_cases heq : slack + workBefore list i (x + 1) - x = 0
      · simp [heq]
      · simp only [heq, ne_eq, not_false_eq_true, decide_true, if_true]
        omega
  · right
    refine ⟨x, if_neg hlt, hx.after, hx.busy, ?_⟩
    rcases lt_or_ge x period with hxp | hxp
    · exact Or.inr (hx.fixed (by simpa [hxp] using hlt))
    · exact Or.inl hxp

/-! ### The idle period -/

/-- `idleDuration`, with another limit for one step in the place of 234567. -/
def idleDurationWith (cap : ℤ) (list : List TaskCt) (i : ℕ) (period c : ℤ) : ℤ :=
  let idle := (list.take (i + 1)).foldl (fun idle d =>
    let temp := ceiling c d.period * d.period - c
    if temp < idle then temp else idle) cap
  if period - c < idle then period - c else idle

/-- `walkTurn`, with another limit for one idle step. -/
def walkTurnWith (cap : ℤ) (fuel : ℕ) (list : List TaskCt) (i : ℕ) (w : Walk) :
    Option (Loop.Turn Walk Walk) :=
  let period := (list.getD i default).period
  if w.c < period then
    if w.inBzp then do
      let c ← run (busyTurn list i w.slack period) fuel (w.c, true)
      some (.next { w with c := c, inBzp := false })
    else
      let idle := idleDurationWith cap list i period w.c
      let tW := w.c + idle
      let slack := w.slack + idle
      let speed := (tW - slack) * scaleUpFactor / tW
      some (.next { inBzp := true, c := tW, slack := slack,
                    alpha := if w.alpha < speed then w.alpha else speed })
  else some (.exit w)

theorem le_foldl_min_iff {α : Type*} (f : α → ℤ) (l : List α) (m x : ℤ) :
    x ≤ l.foldl (fun m a => if f a < m then f a else m) m ↔ x ≤ m ∧ ∀ a ∈ l, x ≤ f a := by
  induction l generalizing m with
  | nil => simp
  | cons a l ih =>
    rw [List.foldl_cons, ih, List.forall_mem_cons, ← and_assoc]
    refine and_congr_left fun _ => ?_
    split_ifs <;> omega

/-- The idle time goes up to the next release, the end of the period, or the limit, whatever comes
first. -/
theorem le_idleDurationWith_iff (h : WfCts list) {c : ℤ} (hc : 0 ≤ c) (i : ℕ)
    (cap period x : ℤ) :
    x ≤ idleDurationWith cap list i period c ↔ x ≤ cap ∧ x ≤ period - c ∧
      ∀ d ∈ list.take (i + 1), c + x ≤ ⌈(c : ℚ) / d.period⌉ * d.period := by
  have hfold := le_foldl_min_iff (fun d : TaskCt => ceiling c d.period * d.period - c)
    (list.take (i + 1)) cap x
  have hceil : (∀ d ∈ list.take (i + 1), x ≤ ceiling c d.period * d.period - c) ↔
      ∀ d ∈ list.take (i + 1), c + x ≤ ⌈(c : ℚ) / d.period⌉ * d.period := by
    refine forall₂_congr fun d hd => ?_
    rw [ceiling_eq hc (h.take _ d hd).2]
    omega
  rw [hceil] at hfold
  simp only [idleDurationWith]
  split_ifs with hlt
  · constructor
    · intro hx
      exact ⟨(hfold.1 (by omega)).1, hx, (hfold.1 (by omega)).2⟩
    · exact fun hx => hx.2.1
  · rw [hfold]
    constructor
    · intro hx
      have := hfold.2 hx
      exact ⟨hx.1, by omega, hx.2⟩
    · exact fun hx => ⟨hx.1, hx.2.2⟩

theorem le_idleDuration_iff (h : WfCts list) {c : ℤ} (hc : 0 ≤ c) (i : ℕ) (period x : ℤ) :
    x ≤ idleDuration list i period c ↔ x ≤ 234567 ∧ x ≤ period - c ∧
      ∀ d ∈ list.take (i + 1), c + x ≤ ⌈(c : ℚ) / d.period⌉ * d.period :=
  le_idleDurationWith_iff h hc i 234567 period x

theorem idleDuration_nonneg (h : WfCts list) {c period : ℤ} (hc : 0 ≤ c) (hle : c ≤ period)
    (i : ℕ) : 0 ≤ idleDuration list i period c := by
  rw [le_idleDuration_iff h hc]
  refine ⟨by norm_num, by omega, fun d hd => ?_⟩
  rw [add_zero]
  exact le_ceil_mul ((h.take _).period d (Multiset.mem_coe.2 hd))

/-- The first instant from `c` on at which one of the tasks `0 … i` is released, but at most
234567 later. -/
def nextRelease (list : List TaskCt) (i : ℕ) (c : ℤ) : ℤ :=
  (list.take (i + 1)).foldl (fun m d => if ⌈(c : ℚ) / d.period⌉ * d.period < m then
    ⌈(c : ℚ) / d.period⌉ * d.period else m) (c + 234567)

theorem nextRelease_eq (h : Positive list) (hi : i < list.length) {c : ℤ} (hc : 0 < c)
    (hle : c ≤ (list.getD i default).period) :
    c + idleDuration list i (list.getD i default).period c = nextRelease list i c := by
  refine eq_of_forall_le_iff fun x => ?_
  have hiff := le_idleDuration_iff h.wf hc.le i (list.getD i default).period (x - c)
  have hrel := le_foldl_min_iff (fun d : TaskCt => ⌈(c : ℚ) / d.period⌉ * d.period)
    (list.take (i + 1)) (c + 234567) x
  rw [nextRelease, hrel]
  have hsub : x ≤ c + idleDuration list i (list.getD i default).period c ↔
      x - c ≤ idleDuration list i (list.getD i default).period c := by omega
  rw [hsub, hiff]
  simp only [add_sub_cancel]
  constructor
  · exact fun hx => ⟨by omega, hx.2.2⟩
  · intro hx
    refine ⟨by omega, ?_, hx.2⟩
    -- the end of the period is a release of the task itself
    have := hx.2 _ (getD_mem_take hi)
    rw [ceil_eq_one hc hle] at this
    omega

/-! ### The walk in closed form -/

/-- Where the walk of task `i` starts, and the idle time it starts with. -/
def walkStart (list : List TaskCt) (i : ℕ) (fresh : Bool) : ℤ × ℤ :=
  if fresh then (0, 0)
  else (nextRelease list i (list.getD i default).budget,
    nextRelease list i (list.getD i default).budget - (list.getD i default).budget)

/-- The speed `k`/1000 is not more than what the walk asks for: at its start, and at every later
instant with more idle time than it started with. -/
structure SpeedAtLeast (list : List TaskCt) (i : ℕ) (start : ℤ × ℤ) (k : ℤ) : Prop where
  le : k ≤ 2 * scaleUpFactor
  first : k * start.1 ≤ (start.1 - start.2) * scaleUpFactor
  later : ∀ t, start.1 < t → t ≤ (list.getD i default).period → start.2 < spare list i t →
    k * t ≤ workBefore list i t * scaleUpFactor

/-- The walk ends in an idle period: at the end of the period the idle time is larger than ever. -/
def EndsIdle (list : List TaskCt) (i : ℕ) (start : ℤ × ℤ) : Prop :=
  start.1 = (list.getD i default).period ∨
    start.2 < spare list i (list.getD i default).period ∧
      ∀ u, start.1 < u → u < (list.getD i default).period →
        spare list i u < spare list i (list.getD i default).period

/-- What the walk keeps. -/
structure WalkInv (list : List TaskCt) (i : ℕ) (start : ℤ × ℤ) (w : Walk) : Prop where
  origin : 0 ≤ start.1 ∧ 0 ≤ start.2
  pos : 0 < w.c
  after : start.1 ≤ w.c
  grown : start.2 ≤ w.slack
  nonneg : 0 ≤ w.alpha
  upper : w.alpha ≤ 2 * scaleUpFactor
  first : w.alpha * start.1 ≤ (start.1 - start.2) * scaleUpFactor
  seen : ∀ t, start.1 < t → t ≤ w.c → start.2 < spare list i t →
    w.alpha * t ≤ workBefore list i t * scaleUpFactor
  lowest : ∀ k, SpeedAtLeast list i start k → k ≤ w.alpha
  bound : ∀ t, start.1 < t → t ≤ w.c → spare list i t ≤ w.slack
  here : spare list i w.c ≤ w.slack
  /-- the last instant the walk stopped at -/
  last : w.slack = start.2 ∨ ∃ u, start.1 < u ∧ u ≤ w.c ∧ spare list i u = w.slack ∧
    w.alpha * u ≤ (u - w.slack) * scaleUpFactor
  busy : w.inBzp = true → w.c ≤ (list.getD i default).period ∧
    (w.c < (list.getD i default).period ∨ EndsIdle list i start)
  idle : w.inBzp = false →
    w.c < (list.getD i default).period ∧ w.c = w.slack + workBefore list i (w.c + 1) ∨
    (list.getD i default).period ≤ w.c ∧ ¬ EndsIdle list i start

/-- From the last stop on, the speed found so far is enough for all work that leaves no more idle
time. -/
theorem WalkInv.after_last {start : ℤ × ℤ} {w : Walk} (hw : WalkInv list i start w) {t : ℤ}
    (ht : w.c ≤ t) (h1 : start.2 < spare list i t) (h2 : spare list i t ≤ w.slack) :
    w.alpha * t ≤ workBefore list i t * scaleUpFactor := by
  rcases hw.last with hlast | ⟨u, hu, huc, -, hle⟩
  · omega
  · obtain ⟨h3, h4⟩ := hw.origin
    have hgrown := hw.grown
    simp only [spare, scaleUpFactor] at *
    have halpha : w.alpha ≤ 1000 := by
      by_contra hgt
      nlinarith
    nlinarith

/-- A busy period: up to its end the idle time does not grow. -/
theorem walkInv_busy {start : ℤ × ℤ} {w : Walk} (hw : WalkInv list i start w)
    (hlt : w.c < (list.getD i default).period) {c : ℤ} (hc : w.c ≤ c)
    (hbusy : ∀ u, w.c ≤ u → u < c → u < w.slack + workBefore list i (u + 1))
    (hend : (list.getD i default).period ≤ c ∨ c = w.slack + workBefore list i (c + 1)) :
    WalkInv list i start { w with c := c, inBzp := false } := by
  have hspare : ∀ t, w.c < t → t ≤ c → spare list i t ≤ w.slack := by
    intro t h1 h2
    have := hbusy (t - 1) (by omega) (by omega)
    rw [sub_add_cancel] at this
    unfold spare
    omega
  have hbound : ∀ t, start.1 < t → t ≤ c → spare list i t ≤ w.slack := by
    intro t h1 h2
    rcases le_or_gt t w.c with htc | htc
    · exact hw.bound t h1 htc
    · exact hspare t htc h2
  refine ⟨hw.origin, lt_of_lt_of_le hw.pos hc, hw.after.trans hc, hw.grown, hw.nonneg, hw.upper,
    hw.first, fun t h1 h2 h3 => ?_, hw.lowest, hbound, ?_, ?_, Bool.noConfusion, fun _ => ?_⟩
  · rcases le_or_gt t w.c with htc | htc
    · exact hw.seen t h1 htc h3
    · exact hw.after_last htc.le h3 (hspare t htc h2)
  · rcases hc.eq_or_lt with rfl | hlt'
    · exact hw.here
    · exact hspare c hlt' le_rfl
  · refine hw.last.imp_right ?_
    rintro ⟨u, h1, h2, h3, h4⟩
    exact ⟨u, h1, h2.trans hc, h3, h4⟩
  · rcases lt_or_ge c (list.getD i default).period with hcp | hpc
    · exact Or.inl ⟨hcp, hend.resolve_left (by omega)⟩
    refine Or.inr ⟨hpc, ?_⟩
    -- at the end of the period the idle time is not larger than at the last stop
    have hle := hbound _ (lt_of_le_of_lt hw.after hlt) hpc
    rintro (heq | ⟨h1, h2⟩)
    · have := hw.after
      omega
    · rcases hw.last with hlast | ⟨u, hu, huc, heq, -⟩
      · omega
      · have := h2 u hu (by omega)
        omega

/-- An idle step from `c`: it does not pass a release or the end of the period. -/
structure IdleStep (list : List TaskCt) (i : ℕ) (c idle : ℤ) : Prop where
  pos : 1 ≤ idle
  period : idle ≤ (list.getD i default).period - c
  release : ∀ d ∈ list.take (i + 1), c + idle ≤ ⌈(c : ℚ) / d.period⌉ * d.period

/-- In an idle period nothing is released, and the idle time grows with the clock. -/
theorem IdleStep.spare {idle : ℤ} (h : Positive list) {slack c t : ℤ}
    (hstep : IdleStep list i c idle) (hhere : spare list i c ≤ slack)
    (hfix : c = slack + workBefore list i (c + 1)) (h1 : c ≤ t) (h2 : t ≤ c + idle) :
    workBefore list i t = c - slack ∧ spare list i t = slack + (t - c) := by
  have hconst : workBefore list i t = workBefore list i c :=
    demand_const (h.take _).wf.period h1 fun d hd =>
      h2.trans (hstep.release d (Multiset.mem_coe.1 hd))
  have hmono := workBefore_mono (i := i) h.wf (t := c) (u := c + 1) (by omega)
  unfold RtSched.spare at *
  omega

/-- At the end of a busy period there is an idle step, however short its limit. -/
theorem idleStep_with (h : Positive list) {cap slack c : ℤ} (hcap : 1 ≤ cap) (hc : 0 ≤ c)
    (hlt : c < (list.getD i default).period) (hhere : spare list i c ≤ slack)
    (hfix : c = slack + workBefore list i (c + 1)) :
    IdleStep list i c (idleDurationWith cap list i (list.getD i default).period c) := by
  have hstay : workBefore list i (c + 1) ≤ workBefore list i c := by
    unfold spare at hhere
    omega
  obtain ⟨-, hend, hrelease⟩ := (le_idleDurationWith_iff h.wf hc i cap _ _).1 le_rfl
  refine ⟨?_, hend, hrelease⟩
  rw [le_idleDurationWith_iff h.wf hc]
  refine ⟨hcap, by omega, fun d hd => ?_⟩
  exact next_release (fun a ha => (h.take _ a ha).1) (h.take _).wf.period hstay
    (Multiset.mem_coe.2 hd)

/-- The speed kept at a stop is the largest that neither exceeds the one kept so far nor takes more
than the work into the time. -/
theorem le_keptSpeed_iff {work t old speed alpha : ℤ} (ht : 0 < t) (hspeed : speed = work / t)
    (halpha : alpha = if old < speed then old else speed) (k : ℤ) :
    k ≤ alpha ↔ k ≤ old ∧ k * t ≤ work := by
  rw [halpha, ← min_def_lt, le_min_iff, hspeed, Int.le_ediv_iff_mul_le ht]

/-- An idle period: the walk stops at its end and takes the speed there. -/
theorem walkInv_idle (h : Positive list) {start : ℤ × ℤ} {w : Walk} (hw : WalkInv list i start w)
    (hlt : w.c < (list.getD i default).period)
    (hfix : w.c = w.slack + workBefore list i (w.c + 1)) {idle tW alpha speed : ℤ}
    (hstep : IdleStep list i w.c idle) (htW : tW = w.c + idle)
    (hspeed : speed = (w.c - w.slack) * scaleUpFactor / tW)
    (halpha : alpha = if w.alpha < speed then w.alpha else speed) :
    WalkInv list i start
      { inBzp := true, c := tW, slack := w.slack + (tW - w.c), alpha := alpha } := by
  have hpos := hw.pos
  have hone := hstep.pos
  have hend := hstep.period
  have hidle : ∀ t, w.c ≤ t → t ≤ tW →
      workBefore list i t = w.c - w.slack ∧ spare list i t = w.slack + (t - w.c) :=
    fun t h1 h2 => hstep.spare h hw.here hfix h1 (by omega)
  have hlt' : w.c < tW := by omega
  have hwork := (hidle tW hlt'.le le_rfl).1
  have hspare := (hidle tW hlt'.le le_rfl).2
  have hnonneg : 0 ≤ w.c - w.slack := by
    rw [← hwork]
    exact demand_nonneg (h.take _).wf.cost (h.take _).wf.period (by omega)
  have hmin := le_keptSpeed_iff (by omega) hspeed halpha
  obtain ⟨hle, hat⟩ := (hmin alpha).1 le_rfl
  have halpha0 : 0 ≤ alpha := by
    refine (hmin 0).2 ⟨hw.nonneg, ?_⟩
    rw [zero_mul]
    exact mul_nonneg hnonneg (by norm_num [scaleUpFactor])
  have horigin := hw.origin
  have hafter := hw.after
  have hgrown := hw.grown
  -- the idle time is that of the walk so far, or still growing
  have hbound : ∀ t, start.1 < t → t ≤ tW →
      spare list i t ≤ w.slack ∨ spare list i t = w.slack + (t - w.c) := by
    intro t h1 h2
    rcases le_or_gt t w.c with htc | htc
    · exact Or.inl (hw.bound t h1 htc)
    · exact Or.inr (hidle t htc.le h2).2
  refine ⟨horigin, ?_, ?_, ?_, halpha0, hle.trans hw.upper, ?_, ?_, ?_, ?_, hspare.le, ?_, ?_,
    Bool.noConfusion⟩
  · exact hpos.trans hlt'
  · exact hafter.trans hlt'.le
  · simp only
    omega
  · exact le_trans (mul_le_mul_of_nonneg_right hle horigin.1) hw.first
  · intro t h1 h2 h3
    rcases le_or_gt t w.c with htc | htc
    · exact le_trans (mul_le_mul_of_nonneg_right hle (by omega)) (hw.seen t h1 htc h3)
    · rw [(hidle t htc.le h2).1]
      exact le_trans (mul_le_mul_of_nonneg_left h2 halpha0) hat
  · intro k hk
    refine (hmin k).2 ⟨hw.lowest k hk, ?_⟩
    rw [← hwork]
    exact hk.later tW (by omega) (by omega) (by omega)
  · intro t h1 h2
    have := hbound t h1 h2
    simp only at h2 ⊢
    omega
  · refine Or.inr ⟨tW, by omega, le_rfl, hspare, ?_⟩
    have : tW - (w.slack + (tW - w.c)) = w.c - w.slack := by omega
    rw [this]
    exact hat
  · intro _
    simp only
    refine ⟨by omega, ?_⟩
    rcases lt_or_ge tW (list.getD i default).period with htp | htp
    · exact Or.inl htp
    · have heq : tW = (list.getD i default).period := by omega
      refine Or.inr (Or.inr ⟨by rw [← heq]; omega, fun u h1 h2 => ?_⟩)
      have := hbound u h1 (by omega)
      rw [← heq, hspare]
      omega

/-- A task entered with the flag set starts at time zero. -/
theorem walkInv_fresh (h : Positive list) (hi : i < list.length)
    (hbp : (list.getD i default).budget < (list.getD i default).period) :
    WalkInv list i (0, 0) ⟨true, (list.getD i default).budget, 0, 2 * scaleUpFactor⟩ := by
  obtain ⟨hb, -⟩ := h.get hi
  have hspare : ∀ t, 0 < t → t ≤ (list.getD i default).budget → spare list i t ≤ 0 := by
    intro t h1 h2
    have := budget_le_workBefore h hi h1
    unfold spare
    omega
  refine ⟨⟨le_rfl, le_rfl⟩, hb, hb.le, le_rfl, by norm_num [scaleUpFactor], le_rfl, by simp,
    fun t h1 h2 h3 => ?_, fun k hk => hk.le, hspare, hspare _ hb le_rfl, Or.inl rfl,
    fun _ => ⟨hbp.le, Or.inl hbp⟩, Bool.noConfusion⟩
  have := hspare t h1 h2
  simp only at h3
  omega

/-- A task entered with the flag cleared takes the time up to the next release for idle. -/
theorem walkInv_stale (h : Positive list) (hi : i < list.length)
    (hbp : (list.getD i default).budget < (list.getD i default).period) {tW alpha speed : ℤ}
    (htW : tW = nextRelease list i (list.getD i default).budget)
    (hspeed : speed = (list.getD i default).budget * scaleUpFactor / tW)
    (halpha : alpha = if 2 * scaleUpFactor < speed then 2 * scaleUpFactor else speed) :
    WalkInv list i (tW, tW - (list.getD i default).budget)
      ⟨true, tW, tW - (list.getD i default).budget, alpha⟩ := by
  obtain ⟨hb, -⟩ := h.get hi
  have heq := nextRelease_eq h hi hb hbp.le
  have hidle := idleDuration_nonneg h.wf hb.le hbp.le i
  obtain ⟨-, hend, -⟩ := (le_idleDuration_iff h.wf hb.le i _ _).1
    (le_refl (idleDuration list i (list.getD i default).period (list.getD i default).budget))
  have hpos : 0 < tW := by omega
  have hmin := le_keptSpeed_iff hpos hspeed halpha
  obtain ⟨hle, hat⟩ := (hmin alpha).1 le_rfl
  have hscale : (0 : ℤ) ≤ scaleUpFactor := by norm_num [scaleUpFactor]
  have halpha0 : 0 ≤ alpha := by
    refine (hmin 0).2 ⟨by omega, ?_⟩
    rw [zero_mul]
    exact mul_nonneg hb.le hscale
  have hsub : tW - (tW - (list.getD i default).budget) = (list.getD i default).budget := by omega
  refine ⟨⟨hpos.le, by simp only; omega⟩, hpos, le_rfl, le_rfl, halpha0, hle, ?_, ?_, ?_, ?_, ?_,
    Or.inl rfl, ?_, Bool.noConfusion⟩
  · simp only [hsub]
    exact hat
  · intro t h1 h2
    simp only at h1 h2
    omega
  · intro k hk
    refine (hmin k).2 ⟨hk.le, ?_⟩
    have := hk.first
    simpa only [hsub] using this
  · intro t h1 h2
    simp only at h1 h2
    omega
  · have := budget_le_workBefore h hi hpos
    simp only [spare]
    omega
  · intro _
    simp only
    refine ⟨by omega, ?_⟩
    rcases lt_or_ge tW (list.getD i default).period with hlt | hge
    · exact Or.inl hlt
    · exact Or.inr (Or.inl (by simp only; omega))

/-- No walk asks for less than nothing. -/
theorem speedAtLeast_zero (h : Positive list) (hi : i < list.length)
    (hbp : (list.getD i default).budget < (list.getD i default).period) (fresh : Bool) :
    SpeedAtLeast list i (walkStart list i fresh) 0 := by
  obtain ⟨hb, -⟩ := h.get hi
  have hstart : 0 ≤ (walkStart list i fresh).1 ∧
      (walkStart list i fresh).2 ≤ (walkStart list i fresh).1 := by
    cases fresh with
    | true => exact ⟨le_rfl, le_rfl⟩
    | false =>
      refine ⟨(walkInv_stale h hi hbp rfl rfl rfl).origin.1, ?_⟩
      simp only [walkStart, Bool.false_eq_true, if_false]
      omega
  refine ⟨by norm_num [scaleUpFactor], ?_, fun t ht _ _ => ?_⟩
  · simp only [zero_mul, scaleUpFactor]
    omega
  · have := budget_le_workBefore h hi (by omega : 0 < t)
    simp only [zero_mul, scaleUpFactor]
    omega

/-- What the walk of a task answers. -/
structure WalkResult (list : List TaskCt) (i : ℕ) (start : ℤ × ℤ) (w : Walk) : Prop where
  speed : ∀ k, SpeedAtLeast list i start k ↔ k ≤ w.alpha
  flag : w.inBzp = true ↔ EndsIdle list i start

theorem WalkInv.result {start : ℤ × ℤ} {w : Walk} (hw : WalkInv list i start w)
    (hend : (list.getD i default).period ≤ w.c) : WalkResult list i start w := by
  obtain ⟨h1, h2⟩ := hw.origin
  refine ⟨fun k => ⟨hw.lowest k, fun hk => ⟨hk.trans hw.upper, ?_, fun t ht htp hs => ?_⟩⟩, ?_⟩
  · exact le_trans (mul_le_mul_of_nonneg_right hk h1) hw.first
  · exact le_trans (mul_le_mul_of_nonneg_right hk (by omega)) (hw.seen t ht (by omega) hs)
  · cases hb : w.inBzp with
    | true =>
      refine ⟨fun _ => ?_, fun _ => rfl⟩
      exact (hw.busy hb).2.resolve_left (by omega)
    | false =>
      refine ⟨Bool.noConfusion, fun hidle => ?_⟩
      rcases hw.idle hb with ⟨hlt, -⟩ | ⟨-, hnot⟩
      · omega
      · exact absurd hidle hnot

/-- Every turn before the end of the task is defined and moves on: a busy period clears the flag, and
an idle one moves the clock. -/
theorem walkInv_turnWith (h : Positive list) {cap : ℤ} (hcap : 1 ≤ cap) {start : ℤ × ℤ} {w : Walk}
    (hw : WalkInv list i start w) (hlt : w.c < (list.getD i default).period) {fuel : ℕ}
    (hfuel : (list.getD i default).period.toNat + 1 < fuel) :
    ∃ w', walkTurnWith cap fuel list i w = some (.next w') ∧ WalkInv list i start w' ∧
      (2 * ((list.getD i default).period - w'.c).toNat + if w'.inBzp then 1 else 0) <
        2 * ((list.getD i default).period - w.c).toNat + if w.inBzp then 1 else 0 := by
  have hpos := hw.pos
  cases hb : w.inBzp with
  | true =>
    have hstart : w.c ≤ w.slack + workBefore list i (w.c + 1) := by
      have h1 := hw.here
      have h2 := workBefore_mono (i := i) h.wf (t := w.c) (u := w.c + 1) (by omega)
      unfold spare at h1
      omega
    have hturns : ((list.getD i default).period - w.c).toNat + 1 < fuel := by omega
    obtain ⟨c, hrun, hc, hbusy, hend⟩ := busy_spec h hstart hturns
    refine ⟨{ w with c := c, inBzp := false }, ?_, walkInv_busy hw hlt hc hbusy hend, ?_⟩
    · simp only [walkTurnWith, if_pos hlt, hb, if_true, hrun]
      rfl
    · simp only [if_true, Bool.false_eq_true, if_false]
      omega
  | false =>
    have hfix := ((hw.idle hb).resolve_right fun hge => by omega).2
    have hstep := idleStep_with h hcap hpos.le hlt hw.here hfix
    have hone := hstep.pos
    refine ⟨_, ?_, walkInv_idle h hw hlt hfix hstep rfl rfl rfl, ?_⟩
    · simp only [walkTurnWith, if_pos hlt, hb, Bool.false_eq_true, if_false, add_sub_cancel_left,
        add_sub_add_right_eq_sub]
    · simp only [if_true, Bool.false_eq_true, if_false]
      omega

theorem walkInv_turn (h : Positive list) {start : ℤ × ℤ} {w : Walk} (hw : WalkInv list i start w)
    (hlt : w.c < (list.getD i default).period) {fuel : ℕ}
    (hfuel : (list.getD i default).period.toNat + 1 < fuel) :
    ∃ w', walkTurn fuel list i w = some (.next w') ∧ WalkInv list i start w' := by
  obtain ⟨w', hturn, hw', -⟩ := walkInv_turnWith h (by norm_num : (1 : ℤ) ≤ 234567) hw hlt hfuel
  exact ⟨w', hturn, hw'⟩

/-- From any state of its walk, `sysclock` comes to the end of the task, however short the limit for
one idle step. -/
theorem walk_specWith (h : Positive list) {cap : ℤ} (hcap : 1 ≤ cap) {start : ℤ × ℤ} {w : Walk}
    (hw : WalkInv list i start w) {fuel n : ℕ}
    (hfuel : (list.getD i default).period.toNat + 1 < fuel)
    (hn : 2 * (list.getD i default).period.toNat + 1 < n) :
    ∃ w', run (walkTurnWith cap fuel list i) n w = some w' ∧ WalkResult list i start w' := by
  refine run_total (I := WalkInv list i start)
    (fun w => 2 * ((list.getD i default).period - w.c).toNat + if w.inBzp then 1 else 0)
    (fun w hw => ?_) hw ?_
  · rcases lt_or_ge w.c (list.getD i default).period with hlt | hge
    · exact Or.inl (walkInv_turnWith h hcap hw hlt hfuel)
    · exact Or.inr ⟨w, by simp only [walkTurnWith, if_neg (not_lt.2 hge)], hw.result hge⟩
  · have := hw.pos
    split_ifs <;> omega

theorem walk_spec (h : Positive list) {start : ℤ × ℤ} {w : Walk} (hw : WalkInv list i start w)
    {fuel n : ℕ} (hfuel : (list.getD i default).period.toNat + 1 < fuel)
    (hn : 2 * (list.getD i default).period.toNat + 1 < n) :
    ∃ w', run (walkTurn fuel list i) n w = some w' ∧ WalkResult list i start w' :=
  walk_specWith h (by norm_num : (1 : ℤ) ≤ 234567) hw hfuel hn

/-- The first turn of a task entered with the flag cleared. -/
theorem walkTurn_stale (h : Positive list) (hi : i < list.length)
    (hbp : (list.getD i default).budget < (list.getD i default).period) (fuel : ℕ) :
    walkTurn fuel list i ⟨false, (list.getD i default).budget, 0, 2 * scaleUpFactor⟩ = some (.next
      ⟨true, nextRelease list i (list.getD i default).budget,
        nextRelease list i (list.getD i default).budget - (list.getD i default).budget,
        if 2 * scaleUpFactor < (list.getD i default).budget * scaleUpFactor /
            nextRelease list i (list.getD i default).budget then 2 * scaleUpFactor
        else (list.getD i default).budget * scaleUpFactor /
          nextRelease list i (list.getD i default).budget⟩) := by
  rw [← nextRelease_eq h hi (h.get hi).1 hbp.le]
  simp only [walkTurn, if_pos hbp, Bool.false_eq_true, if_false, zero_add, add_sub_cancel_left,
    add_sub_cancel_right]

/-- **The walk in closed form.**  `sysclock` comes to the end of every task, with the speed and the
flag described above. -/
theorem alphaOf_spec (h : Positive list) (hi : i < list.length)
    (hbp : (list.getD i default).budget < (list.getD i default).period) (fresh : Bool) {fuel : ℕ}
    (hfuel : 2 * (list.getD i default).period.toNat + 2 < fuel) :
    ∃ w, alphaOf fuel list i fresh = some w ∧ WalkResult list i (walkStart list i fresh) w := by
  cases fresh with
  | true => exact walk_spec h (walkInv_fresh h hi hbp) (by omega) (by omega)
  | false =>
    obtain ⟨n, rfl⟩ : ∃ n, fuel = n + 1 := ⟨fuel - 1, by omega⟩
    have hturns : (list.getD i default).period.toNat + 1 < n + 1 := by omega
    have hstep := walk_spec h (walkInv_stale h hi hbp rfl rfl rfl) hturns
      (by omega : 2 * (list.getD i default).period.toNat + 1 < n)
    rw [alphaOf, run_succ_next (walkTurn_stale h hi hbp _)]
    exact hstep

end Walk

/-! ### All tasks -/

open Classical in
/-- Whether task `i` is entered with `in_bzp = 1`: the walk before it ended in an idle period. -/
noncomputable def fresh (list : List TaskCt) : ℕ → Bool
  | 0 => true
  | i + 1 => decide (EndsIdle list i (walkStart list i (fresh list i)))

/-- The walk of task `i` asks for at least the speed `k`/1000. -/
def NeedsSpeed (list : List TaskCt) (i : ℕ) (k : ℤ) : Prop :=
  SpeedAtLeast list i (walkStart list i (fresh list i)) k

section Speeds

variable {list : List TaskCt}

/-- The greatest integer with a property. -/
noncomputable def greatest (p : ℤ → Prop) : ℤ := sSup {k | p k}

theorem greatest_eq {p : ℤ → Prop} {a : ℤ} (h : ∀ k, p k ↔ k ≤ a) : greatest p = a := by
  have hset : {k | p k} = Set.Iic a := Set.ext h
  rw [greatest, hset, csSup_Iic]

/-- The speed of task `i`. -/
noncomputable def sysSpeed (list : List TaskCt) (i : ℕ) : ℤ := greatest (NeedsSpeed list i)

theorem needsSpeed_iff (h : Proper list) {i : ℕ} (hi : i < list.length) (k : ℤ) :
    NeedsSpeed list i k ↔ k ≤ sysSpeed list i := by
  obtain ⟨w, -, hres⟩ := alphaOf_spec h.positive hi (h.get hi).2 (fresh list i)
    (Nat.lt_succ_self _)
  have heq : sysSpeed list i = w.alpha := greatest_eq hres.speed
  rw [heq]
  exact hres.speed k

theorem sysSpeed_nonneg (h : Proper list) {i : ℕ} (hi : i < list.length) :
    0 ≤ sysSpeed list i := by
  rw [← needsSpeed_iff h hi]
  exact speedAtLeast_zero h.positive hi (h.get hi).2 (fresh list i)

/-- The loop over the tasks, for any walk of one task. -/
def alphasFromBy (walk : ℕ → Bool → Option Walk) : ℕ → ℕ → Bool → Option (List ℤ)
  | 0, _, _ => some []
  | n + 1, i, inBzp => do
      let w ← walk i inBzp
      let rest ← alphasFromBy walk n (i + 1) w.inBzp
      some (w.alpha :: rest)

theorem alphasFrom_eq_by (fuel : ℕ) (list : List TaskCt) (n i : ℕ) (inBzp : Bool) :
    alphasFrom fuel list n i inBzp = alphasFromBy (alphaOf fuel list) n i inBzp := by
  induction n generalizing i inBzp with
  | zero => rfl
  | succ n ih => simp only [alphasFrom, alphasFromBy, ih]

/-- The speeds of the walks, if each of them leaves the flag as the closed form has it. -/
theorem alphasFromBy_eq {walk : ℕ → Bool → Option Walk} {a : ℕ → ℤ}
    (hwalk : ∀ i < list.length, ∃ w, walk i (fresh list i) = some w ∧ w.alpha = a i ∧
      w.inBzp = fresh list (i + 1)) {n i : ℕ} (hn : i + n ≤ list.length) :
    alphasFromBy walk n i (fresh list i) = some ((List.range' i n).map a) := by
  induction n generalizing i with
  | zero => rfl
  | succ n ih =>
    obtain ⟨w, hw, halpha, hflag⟩ := hwalk i (by omega)
    have hrest := ih (i := i + 1) (by omega)
    simp only [alphasFromBy, hw, hflag, hrest, Option.bind_eq_bind, Option.bind_some,
      List.range'_succ, List.map_cons, halpha]

theorem WalkResult.flag_fresh {i : ℕ} {w : Walk}
    (h : WalkResult list i (walkStart list i (fresh list i)) w) : w.inBzp = fresh list (i + 1) := by
  rw [Bool.eq_iff_iff, h.flag]
  simp [fresh]

/-- `sysclock` finds the speed of every task. -/
theorem alphasFrom_eq (h : Proper list) {fuel : ℕ}
    (hfuel : ∀ c ∈ list, 2 * c.period.toNat + 2 < fuel) {n i : ℕ} (hn : i + n ≤ list.length) :
    alphasFrom fuel list n i (fresh list i) = some ((List.range' i n).map (sysSpeed list)) := by
  rw [alphasFrom_eq_by]
  refine alphasFromBy_eq (fun j hj => ?_) hn
  obtain ⟨w, hw, hres⟩ := alphaOf_spec h.positive hj (h.get hj).2 (fresh list j)
    (hfuel _ (getD_mem hj))
  exact ⟨w, hw, (greatest_eq hres.speed).symm, hres.flag_fresh⟩

theorem le_foldl_max_iff (l : List ℤ) (m x : ℤ) :
    x ≤ l.foldl (fun m a => if a > m then a else m) m ↔ x ≤ m ∨ ∃ a ∈ l, x ≤ a := by
  induction l generalizing m with
  | nil => simp
  | cons a l ih =>
    rw [List.foldl_cons, ih, List.exists_mem_cons_iff, ← or_assoc]
    refine or_congr_left ?_
    split_ifs <;> omega

/-- As many turns as are enough for every task. -/
theorem turns_lt {fuel : ℕ} (hfuel : 2 * (list.map fun c => c.period.toNat).sum + 3 ≤ fuel) :
    ∀ c ∈ list, 2 * c.period.toNat + 2 < fuel := by
  intro c hc
  have hle : c.period.toNat ≤ (list.map fun c => c.period.toNat).sum :=
    List.single_le_sum (fun _ _ => Nat.zero_le _) _
      (List.mem_map_of_mem (f := fun c : TaskCt => c.period.toNat) hc)
  omega

/-- The speeds of all tasks. -/
noncomputable def sysSpeeds (list : List TaskCt) : List ℤ :=
  (List.range' 0 list.length).map (sysSpeed list)

theorem sysSpeeds_length (cts : List TaskCt) : (sysSpeeds cts).length = cts.length := by
  simp [sysSpeeds]

theorem sysSpeeds_getD (cts : List TaskCt) {i : ℕ} (hi : i < cts.length) :
    (sysSpeeds cts).getD i 0 = sysSpeed cts i := by
  rw [List.getD_eq_getElem _ _ (by rwa [sysSpeeds_length])]
  simp [sysSpeeds]

/-- The frequency of the highest of `n` speeds is above `f` exactly when one of the speeds needed
gives one. -/
theorem lt_maxFrequency_iff {needs : ℕ → ℤ → Prop} {a : ℕ → ℤ} {n : ℕ}
    (ha : ∀ i < n, ∀ k, needs i k ↔ k ≤ a i) (maxFrequency f : ℕ) :
    (f : ℤ) < maxFrequency *
        ((List.range' 0 n).map a).foldl (fun m a => if a > m then a else m) 0 ↔
      ∃ i < n, ∃ k, needs i k ∧ (f : ℤ) < maxFrequency * k := by
  have hmax := le_foldl_max_iff ((List.range' 0 n).map a) 0
  set m := ((List.range' 0 n).map a).foldl (fun m a => if a > m then a else m) 0
  constructor
  · intro hf
    rcases (hmax m).1 le_rfl with h0 | ⟨x, hx, hle⟩
    · have hm : m = 0 := le_antisymm h0 ((hmax 0).2 (Or.inl le_rfl))
      rw [hm, mul_zero] at hf
      omega
    · obtain ⟨j, hj, rfl⟩ := List.mem_map.1 hx
      have hlt : j < n := by simpa using List.mem_range'_1.1 hj
      exact ⟨j, hlt, m, (ha j hlt m).2 hle, hf⟩
  · rintro ⟨j, hj, k, hneed, hf⟩
    have hle : k ≤ m := by
      refine (hmax k).2 (Or.inr ⟨a j, List.mem_map_of_mem ?_, (ha j hj k).1 hneed⟩)
      simpa [List.mem_range'_1] using hj
    exact lt_of_lt_of_le hf (mul_le_mul_of_nonneg_left hle (by positivity))

theorem sysclockSpeeds_eq (h : Proper list) {fuel : ℕ}
    (hfuel : ∀ c ∈ list, 2 * c.period.toNat + 2 < fuel) (maxFrequency : ℕ) :
    sysclockSpeeds fuel maxFrequency list list.length = some (sysSpeeds list,
      (maxFrequency * (sysSpeeds list).foldl (fun m a => if a > m then a else m) 0).toNat) := by
  have halphas := alphasFrom_eq h hfuel (n := list.length) (i := 0) (by omega)
  rw [fresh] at halphas
  simp only [sysclockSpeeds, halphas, sysSpeeds, Option.bind_eq_bind, Option.bind_some]

/-- `sysclock` comes back, with a frequency above `f` exactly when some task needs a speed that
gives one. -/
theorem sysclockSpeeds_spec (h : Proper list) {fuel : ℕ}
    (hfuel : ∀ c ∈ list, 2 * c.period.toNat + 2 < fuel) (maxFrequency : ℕ) :
    ∃ alphas freq, sysclockSpeeds fuel maxFrequency list list.length = some (alphas, freq) ∧
      ∀ f : ℕ, f < freq ↔
        ∃ i < list.length, ∃ k, NeedsSpeed list i k ∧ (f : ℤ) < maxFrequency * k := by
  refine ⟨_, _, sysclockSpeeds_eq h hfuel maxFrequency, fun f => ?_⟩
  rw [Int.lt_toNat]
  exact lt_maxFrequency_iff (fun i hi => needsSpeed_iff h hi) maxFrequency f

/-! ### Answers do not depend on the fuel -/

theorem walkTurn_mono {m n i : ℕ} (hmn : m ≤ n) {w : Walk} {r : Loop.Turn Walk Walk}
    (h : walkTurn m list i w = some r) : walkTurn n list i w = some r := by
  simp only [walkTurn] at h ⊢
  by_cases hc : w.c < (list.getD i default).period
  · rw [if_pos hc] at h ⊢
    cases hb : w.inBzp with
    | true =>
      rw [hb] at h
      obtain ⟨c, hrun, hr⟩ := Option.bind_eq_some_iff.1 h
      exact Option.bind_eq_some_iff.2 ⟨c, run_mono hmn hrun, hr⟩
    | false =>
      rw [hb] at h
      exact h
  · rw [if_neg hc] at h ⊢
    exact h

theorem alphaOf_mono {m n i : ℕ} (hmn : m ≤ n) {inBzp : Bool} {w : Walk}
    (h : alphaOf m list i inBzp = some w) : alphaOf n list i inBzp = some w :=
  run_mono_of (fun _ _ ht => walkTurn_mono hmn ht) hmn h

theorem alphasFrom_mono {m n : ℕ} (hmn : m ≤ n) {k i : ℕ} {inBzp : Bool} {alphas : List ℤ}
    (h : alphasFrom m list k i inBzp = some alphas) : alphasFrom n list k i inBzp = some alphas := by
  induction k generalizing i inBzp alphas with
  | zero => exact h
  | succ k ih =>
    obtain ⟨w, hw, h⟩ := Option.bind_eq_some_iff.1 h
    obtain ⟨rest, hrest, hr⟩ := Option.bind_eq_some_iff.1 h
    refine Option.bind_eq_some_iff.2 ⟨w, alphaOf_mono hmn hw, ?_⟩
    exact Option.bind_eq_some_iff.2 ⟨rest, ih hrest, hr⟩

theorem sysclockSpeeds_mono {m n maxFrequency size : ℕ} (hmn : m ≤ n) {x : List ℤ × ℕ}
    (h : sysclockSpeeds m maxFrequency list size = some x) :
    sysclockSpeeds n maxFrequency list size = some x := by
  obtain ⟨alphas, halphas, hx⟩ := Option.bind_eq_some_iff.1 h
  exact Option.bind_eq_some_iff.2 ⟨alphas, alphasFrom_mono hmn halphas, hx⟩

/-- What `sysclock` answers, whenever it does. -/
theorem sysclockSpeeds_answer (h : Proper list) {fuel maxFrequency : ℕ} {x : List ℤ × ℕ}
    (hx : sysclockSpeeds fuel maxFrequency list list.length = some x) (f : ℕ) :
    f < x.2 ↔ ∃ i < list.length, ∃ k, NeedsSpeed list i k ∧ (f : ℤ) < maxFrequency * k := by
  obtain ⟨alphas, freq, hspec, hiff⟩ :=
    sysclockSpeeds_spec h (turns_lt (le_max_right fuel _)) maxFrequency
  rw [sysclockSpeeds_mono (le_max_left _ _) hx] at hspec
  obtain rfl := Option.some.inj hspec
  exact hiff f

end Speeds

/-! ### The enforced budgets -/

/-- The budgets `apply_sysclock` enforces at frequency `f`. -/
def enforcedBudgets (list : List TaskCt) (maxFreq f : ℕ) : List TaskCt :=
  list.map fun c => { c with budget := c.budget * maxFreq / f }

section Enforced

variable {list : List TaskCt} {maxFreq : ℕ}

theorem enforced_passes_iff (h : Proper list) (hs : list.Pairwise fun a b => a.period ≤ b.period)
    (f : ℕ) : Passes (enforcedBudgets list maxFreq f) ↔
      Feasible (fun c : TaskCt => c.budget * maxFreq / f) TaskCt.period
        (↑list : Multiset TaskCt) := by
  have hw : WfCts (enforcedBudgets list maxFreq f) := by
    intro c hc
    obtain ⟨d, hd, rfl⟩ := List.mem_map.1 hc
    have := h d hd
    exact ⟨Int.ediv_nonneg (mul_nonneg this.1.le (by positivity)) (by positivity),
      by simp only; omega⟩
  have hs' : (enforcedBudgets list maxFreq f).Pairwise fun a b => a.period ≤ b.period := by
    rw [enforcedBudgets, List.pairwise_map]
    exact hs
  rw [passes_iff_feasible hw hs', enforcedBudgets, ← Multiset.map_coe, feasible_map]

theorem ediv_anti {a : ℤ} (ha : 0 ≤ a) {f g : ℕ} (hf : 0 < f) (hfg : f ≤ g) :
    a / (g : ℤ) ≤ a / (f : ℤ) := by
  rw [Int.le_ediv_iff_mul_le (by exact_mod_cast hf)]
  calc a / (g : ℤ) * f ≤ a / (g : ℤ) * g :=
        mul_le_mul_of_nonneg_left (by exact_mod_cast hfg) (Int.ediv_nonneg ha (by positivity))
    _ ≤ a := Int.ediv_mul_le _ (by omega)

/-- A higher frequency is at least as safe. -/
theorem enforced_mono (h : Proper list) (hs : list.Pairwise fun a b => a.period ≤ b.period)
    {f g : ℕ} (hf : 0 < f) (hfg : f ≤ g) (hpass : Passes (enforcedBudgets list maxFreq f)) :
    Passes (enforcedBudgets list maxFreq g) := by
  rw [enforced_passes_iff h hs] at hpass ⊢
  refine Feasible.mono_cost hpass (fun c hc => ?_) h.positive.wf.period
  have hb := (h c (Multiset.mem_coe.1 hc)).1
  exact ediv_anti (by positivity) hf hfg

/-- At the maximum frequency the reserved budgets are enforced. -/
theorem enforced_max (hmax : 0 < maxFreq) : enforcedBudgets list maxFreq maxFreq = list := by
  refine (List.map_congr_left fun c _ => ?_).trans (List.map_id list)
  rw [Int.mul_ediv_cancel _ (by positivity)]
  rfl

end Enforced

/-! ### The table -/

/-- A table of frequencies in ascending order that ends with the maximum. -/
structure SortedTable (e : Env) : Prop where
  sorted : (e.table.filterMap id).Pairwise (· ≤ ·)
  last : (e.table.filterMap id).getLast? = some e.maxFreq

/-- Such a table, without a frequency of zero. -/
structure CpufreqTable (e : Env) : Prop extends SortedTable e where
  positive : ∀ f ∈ e.table.filterMap id, 0 < f

theorem cpufreqTable_twoSpeeds : CpufreqTable twoSpeeds :=
  ⟨⟨by decide, by decide⟩, by decide⟩

theorem SortedTable.mem {e : Env} (h : SortedTable e) : e.maxFreq ∈ e.table.filterMap id :=
  List.mem_of_getLast? h.last

/-- The table gives the least of its frequencies that is high enough. -/
theorem getTableFrequency_cases {e : Env} (htable : SortedTable e) (freq : ℕ) :
    (getTableFrequency e freq ∈ e.table.filterMap id ∧ freq ≤ getTableFrequency e freq ∧
      ∀ f ∈ e.table.filterMap id, freq ≤ f → getTableFrequency e freq ≤ f) ∨
    getTableFrequency e freq = freq ∧ ∀ f ∈ e.table.filterMap id, f < freq := by
  unfold getTableFrequency
  cases hf : (e.table.filterMap id).find? fun f => decide (freq ≤ f) with
  | none =>
    right
    refine ⟨rfl, fun f hmem => ?_⟩
    have := List.find?_eq_none.1 hf f hmem
    simpa using this
  | some g =>
    left
    obtain ⟨hg, l, r, hlr, hl⟩ := List.find?_eq_some_iff_append.1 hf
    have hasc := htable.sorted
    refine ⟨by rw [hlr]; simp, by simpa using hg, fun f hmem hle => ?_⟩
    rw [hlr, List.mem_append, List.mem_cons] at hmem
    rw [hlr, List.pairwise_append, List.pairwise_cons] at hasc
    rcases hmem with hmem | rfl | hmem
    · have := hl f hmem
      simp only [Bool.not_eq_true', decide_eq_false_iff_not] at this
      exact absurd hle this
    · exact le_rfl
    · exact hasc.2.1.1 f hmem

section Lookup

variable {e : Env} {f : ℕ}

theorem SortedTable.le (h : SortedTable e) {x : ℕ} (hx : x ∈ e.table.filterMap id) :
    x ≤ e.maxFreq := by
  obtain ⟨l, hl⟩ := List.getLast?_eq_some_iff.1 h.last
  have hasc := h.sorted
  rw [hl] at hx hasc
  rcases List.mem_append.1 hx with hx | hx
  · exact (List.pairwise_append.1 hasc).2.2 x hx _ (List.mem_singleton_self _)
  · exact (List.mem_singleton.1 hx).le

/-- Up to the maximum frequency, the table gives the lowest entry that is high enough. -/
theorem SortedTable.lookup_of_le (h : SortedTable e) (hf : f ≤ e.maxFreq) :
    getTableFrequency e f ∈ e.table.filterMap id ∧ f ≤ getTableFrequency e f ∧
      ∀ x ∈ e.table.filterMap id, x < f ∨ getTableFrequency e f ≤ x := by
  rcases getTableFrequency_cases h f with ⟨hmem, hle, hleast⟩ | ⟨-, habove⟩
  · exact ⟨hmem, hle, fun x hx => (lt_or_ge x f).imp_right (hleast x hx)⟩
  · exact absurd hf (not_le.2 (habove _ h.mem))

/-- Above it, the table gives the frequency back. -/
theorem SortedTable.lookup_of_gt (h : SortedTable e) (hf : e.maxFreq < f) :
    getTableFrequency e f = f := by
  rcases getTableFrequency_cases h f with ⟨hmem, hle, -⟩ | ⟨heq, -⟩
  · exact absurd (hle.trans (h.le hmem)) (not_le.2 hf)
  · exact heq

end Lookup

end RtSched
