import RtSched.AdmissionExact
import RtSched.ClockRun
import RtSched.PmClock

/-!
# When the clock computation comes back

`sysclock` and `inflated_freq` walk until the clock has reached the end of a period, and divide by
the periods, by the frequencies chosen so far and by the time that has passed.  `alphaOfChecked` and
`inflatedFreqChecked` are the same walks, which die at a turn that divides by zero.

* With budgets and periods of at least a microsecond `sysclock` always comes back, and never divides
  by zero (`alphasFromBy_total`).
* `inflated_freq` comes back as well, as long as no frequency is above the maximum
  (`walks_terminate`).  It rounds the work of the tasks that have their frequency down, and `pmclock`
  may choose twice the maximum: a budget of one microsecond becomes nothing, and the walk may stall.
  From two microseconds on it comes back (`pmclockWith_total`).
* `clockComputation_total`: so it is in every run whose reservations are that large.  A reservation
  of less than a microsecond's cycles is stored with a budget of zero, and if it comes first on the
  list the walk divides by zero and never ends (`clockComputation_hangs`).
-/

namespace RtSched

open Call TimeDemand Loop LinkRing

/-! ### Walks that die at a division by zero -/

/-- What one turn of the walk of `sysclock` divides by: the periods, and after an idle period the
time that has passed. -/
def walkDivisors (list : List TaskCt) (i : ℕ) (w : Walk) : List ℤ :=
  let period := (list.getD i default).period
  if w.c < period then
    (list.take (i + 1)).map TaskCt.period ++
      if w.inBzp then [] else [w.c + idleDuration list i period w.c]
  else []

/-- `alphaOf`, with every divisor looked at first. -/
def alphaOfChecked (fuel : ℕ) (list : List TaskCt) (i : ℕ) (inBzp : Bool) : Option Walk :=
  run (guarded (fun w => 0 ∉ walkDivisors list i w) (walkTurn fuel list i)) fuel
    ⟨inBzp, (list.getD i default).budget, 0, 2 * scaleUpFactor⟩

/-- What one turn of the walk of `inflated_freq` divides by: in a busy period the periods and the
frequencies of the tasks that have one, and in an idle one the periods and the time that has passed
without the inflated work. -/
def inflateDivisors (list : List TaskCt) (pmFreq : List ℤ) (pos : ℕ) (period : ℤ) (x : Inflate) :
    List ℤ :=
  if x.w < period then
    if x.inBzp then
      (rivals true list pmFreq period).map Prod.snd ++
        (list.filter fun c => c.period ≤ period).map TaskCt.period
    else (list.take (pos + 1)).map TaskCt.period ++
      [x.w + inflateIdle list pos period x.w - x.ib]
  else []

/-- `inflatedFreq`, with every divisor looked at first. -/
def inflatedFreqChecked (fuel : ℕ) (list : List TaskCt) (pmFreq : List ℤ) (pos : ℕ) : Option ℤ :=
  let curr := list.getD pos default
  (run (guarded (fun x => 0 ∉ inflateDivisors list pmFreq pos curr.period x)
    (inflateTurn fuel list pmFreq pos curr.period)) fuel
    ⟨true, curr.budget, 0, 0, 0, 1000⟩).map Inflate.alpha

/-- `sysclock`, whatever walks over a task. -/
def sysclockWith (walk : ℕ → Bool → Option Walk) (e : Env) (list : List TaskCt) (s : KState) :
    Call KState (KState × ℕ) :=
  if s.periodicTasksSize ≤ 0 then pure (s, 0)
  else do
    let alphas ← ofOption s (alphasFromBy walk s.periodicTasksSize 0 true)
    let maxAlpha := alphas.foldl (fun m a => if a > m then a else m) 0
    pure ((list.zip alphas).foldl writeAlpha s, (e.maxFrequency * maxAlpha).toNat)

/-- `sysclock`, with every divisor looked at first. -/
def sysclockChecked (e : Env) (list : List TaskCt) (s : KState) : Call KState (KState × ℕ) :=
  sysclockWith (alphaOfChecked e.fuel list) e list s

/-- `pmclock`, with every divisor of `inflated_freq` looked at first. -/
def pmclockChecked (e : Env) (list : List TaskCt) (s : KState) : Call KState KState := do
  let freqs ← ofOption s (pmclockWith (inflatedFreqChecked e.fuel list) list.length
    (list.map fun c => ((s.task c.task).alpha : ℤ)))
  pure ((list.zip freqs).foldl (writePmclockFreq e) s)

theorem sysclock_with (e : Env) (list : List TaskCt) (s : KState) :
    sysclock e list s = sysclockWith (alphaOf e.fuel list) e list s := by
  rw [sysclock, sysclockPerCpu, sysclockWith]
  simp only [sysclockSpeeds, alphasFrom_eq_by]
  cases alphasFromBy (alphaOf e.fuel list) s.periodicTasksSize 0 true <;> rfl

theorem pmclock_with (e : Env) (list : List TaskCt) (s : KState) :
    pmclock e list s = (do
      let freqs ← ofOption s (pmclockWith (inflatedFreq e.fuel list) list.length
        (list.map fun c => ((s.task c.task).alpha : ℤ)))
      pure ((list.zip freqs).foldl (writePmclockFreq e) s)) := by
  rw [pmclock, pmclockFreqs_with]

/-! ### `sysclock` comes back -/

section SysClock

variable {list : List TaskCt} {i : ℕ}

/-- Once the clock has moved, no turn divides by zero. -/
theorem walkDivisors_ne (h : Positive list) {w : Walk} (hpos : 0 < w.c) :
    0 ∉ walkDivisors list i w := by
  simp only [walkDivisors]
  split_ifs with hlt hb
  · rw [List.append_nil, List.mem_map]
    rintro ⟨d, hd, hzero⟩
    exact (h.take _ d hd).2.ne' hzero
  · have hidle := idleDuration_nonneg h.wf hpos.le hlt.le i
    rw [List.mem_append, List.mem_map, List.mem_singleton]
    rintro (⟨d, hd, hzero⟩ | hzero)
    · exact (h.take _ d hd).2.ne' hzero
    · omega
  · exact List.not_mem_nil

/-- The divisors are never zero, so looking at them changes nothing. -/
theorem alphaOfChecked_eq (h : Positive list) (hi : i < list.length) (inBzp : Bool) {fuel : ℕ}
    (hfuel : (list.getD i default).period.toNat + 1 < fuel) :
    alphaOfChecked fuel list i inBzp = alphaOf fuel list i inBzp := by
  obtain ⟨hb, -⟩ := h.get hi
  -- a task entered with the flag cleared has one turn before the invariant of the walk holds
  refine run_guarded (I := fun w =>
      w = ⟨inBzp, (list.getD i default).budget, 0, 2 * scaleUpFactor⟩ ∨ ∃ start, WalkInv list i start w)
    (fun w hw => ?_) (fun w w' hw hturn => ?_) (Or.inl rfl) fuel
  · rcases hw with rfl | ⟨start, hw⟩
    · exact walkDivisors_ne h hb
    · exact walkDivisors_ne h hw.pos
  · rcases lt_or_ge w.c (list.getD i default).period with hlt | hge
    · have hnext : ∀ {start : ℤ × ℤ}, WalkInv list i start w → ∃ start, WalkInv list i start w' := by
        intro start hw
        obtain ⟨w₁, hturn₁, hw₁⟩ := walkInv_turn h hw hlt hfuel
        rw [hturn₁] at hturn
        cases hturn
        exact ⟨start, hw₁⟩
      rcases hw with rfl | ⟨start, hw⟩
      · cases inBzp with
        | true => exact Or.inr (hnext (walkInv_fresh h hi hlt))
        | false =>
          rw [walkTurn_stale h hi hlt] at hturn
          cases hturn
          exact Or.inr ⟨_, walkInv_stale h hi hlt rfl rfl rfl⟩
      · exact Or.inr (hnext hw)
    · simp only [walkTurn, if_neg (not_lt.2 hge)] at hturn
      cases hturn

/-- The walk over one task comes back, with a speed of at most twice the maximum. -/
theorem alphaOf_total (h : Positive list) (hi : i < list.length) (inBzp : Bool) {fuel : ℕ}
    (hfuel : 2 * (list.getD i default).period.toNat + 2 < fuel) :
    ∃ w, alphaOf fuel list i inBzp = some w ∧ 0 ≤ w.alpha ∧ w.alpha ≤ 2 * scaleUpFactor := by
  rcases lt_or_ge (list.getD i default).budget (list.getD i default).period with hbp | hbp
  · obtain ⟨w, hw, hres⟩ := alphaOf_spec h hi hbp inBzp hfuel
    exact ⟨w, hw, (hres.speed 0).1 (speedAtLeast_zero h hi hbp inBzp),
      ((hres.speed w.alpha).2 le_rfl).le⟩
  · obtain ⟨n, rfl⟩ : ∃ n, fuel = n + 1 := ⟨fuel - 1, by omega⟩
    have hexit : walkTurn (n + 1) list i ⟨inBzp, (list.getD i default).budget, 0, 2 * scaleUpFactor⟩ =
        some (.exit ⟨inBzp, (list.getD i default).budget, 0, 2 * scaleUpFactor⟩) :=
      if_neg (not_lt.2 hbp)
    exact ⟨_, run_succ_exit hexit n, by norm_num [scaleUpFactor], le_rfl⟩

/-- **`sysclock` comes back.**  Whatever order the tasks have and whether or not they fit. -/
theorem alphasFromBy_total (h : Positive list) {fuel : ℕ}
    (hfuel : ∀ c ∈ list, 2 * c.period.toNat + 2 < fuel) {n : ℕ} (hn : i + n ≤ list.length)
    (inBzp : Bool) :
    ∃ alphas, alphasFromBy (alphaOfChecked fuel list) n i inBzp = some alphas ∧
      alphasFromBy (alphaOf fuel list) n i inBzp = some alphas ∧ alphas.length = n ∧
      ∀ a ∈ alphas, 0 ≤ a ∧ a ≤ 2 * scaleUpFactor := by
  induction n generalizing i inBzp with
  | zero => exact ⟨[], rfl, rfl, rfl, by simp⟩
  | succ n ih =>
    have hi : i < list.length := by omega
    have hturns := hfuel _ (getD_mem hi)
    obtain ⟨w, hw, hbounds⟩ := alphaOf_total h hi inBzp hturns
    obtain ⟨rest, hchecked, hplain, hlen, hrest⟩ := ih (i := i + 1) (by omega) w.inBzp
    have hsame := alphaOfChecked_eq h hi inBzp (by omega : _ + 1 < fuel)
    refine ⟨w.alpha :: rest, ?_, ?_, by rw [List.length_cons, hlen], ?_⟩
    · simp only [alphasFromBy, hsame, hw, hchecked, Option.bind_eq_bind, Option.bind_some]
    · simp only [alphasFromBy, hw, hplain, Option.bind_eq_bind, Option.bind_some]
    · exact List.forall_mem_cons.2 ⟨hbounds, hrest⟩

end SysClock

/-! ### `inflated_freq` comes back -/

section PmClock

variable {list : List TaskCt} {pmFreq : List ℤ} {pos : ℕ}

/-- What is left of the time without the inflated work is at least the task's own budget. -/
theorem BusyEnd.rest_pos (h : Undecided list pmFreq pos) {x : Inflate}
    (hx : InflateInv list pmFreq pos x) (hlt : x.w < (list.getD pos default).period)
    (hend : BusyEnd list pmFreq pos x) :
    0 < x.w + inflateIdle list pos (list.getD pos default).period x.w - x.ib := by
  have hpos := hx.started
  obtain ⟨hib, -, hspare⟩ := hend.here h hx
  have hidle := inflateIdle_nonneg h.positive hpos.le hlt.le pos
  have hfree := h.budget_le_freeBefore hpos
  have hb := (h.positive.get h.lt).1
  have hslack := hx.slack
  unfold inflatedSpare at hspare
  omega

theorem inflateDivisors_ne (h : Undecided list pmFreq pos) {x : Inflate}
    (hx : InflateInv list pmFreq pos x) :
    0 ∉ inflateDivisors list pmFreq pos (list.getD pos default).period x := by
  unfold inflateDivisors
  split_ifs with hlt hb
  · rw [List.mem_append, List.mem_map, List.mem_map]
    rintro (⟨y, hy, hzero⟩ | ⟨c, hc, hzero⟩)
    · have hset := (of_decide_eq_true (List.mem_filter.1 hy).2).2
      exact of_decide_eq_true hset hzero
    · exact (h.positive c (List.mem_filter.1 hc).1).2.ne' hzero
  · rw [List.mem_append, List.mem_map, List.mem_singleton]
    rintro (⟨d, hd, hzero⟩ | hzero)
    · exact (h.positive.take _ d hd).2.ne' hzero
    · have hend := (hx.idle (Bool.eq_false_iff.2 hb)).resolve_left (by omega)
      have := hend.rest_pos h hx hlt
      omega
  · exact List.not_mem_nil

/-- The divisors are never zero, so looking at them changes nothing. -/
theorem inflatedFreqChecked_eq (h : Undecided list pmFreq pos) {fuel : ℕ}
    (hfuel : (list.getD pos default).period.toNat + 1 < fuel) :
    inflatedFreqChecked fuel list pmFreq pos = inflatedFreq fuel list pmFreq pos := by
  refine congrArg (Option.map Inflate.alpha) ?_
  refine run_guarded (I := InflateInv list pmFreq pos) (fun x hx => inflateDivisors_ne h hx)
    (fun x x' hx hturn => ?_) (inflateInv_start h) fuel
  rcases lt_or_ge x.w (list.getD pos default).period with hlt | hge
  · cases hb : x.inBzp with
    | true =>
      obtain ⟨y, hturn', hy, -⟩ := inflateTurn_busy h hx hlt hb hfuel
      rw [hturn'] at hturn
      cases hturn
      exact hy
    | false =>
      have hend := (hx.idle hb).resolve_left (by omega)
      rw [inflateTurn_idle hlt hb] at hturn
      cases hturn
      exact (inflateInv_idle h hx hlt hend rfl rfl rfl).2.2
  · simp only [inflateTurn, if_neg (not_lt.2 hge)] at hturn
    cases hturn

/-- A budget that is not rounded to nothing at the frequency the task has got. -/
theorem inflatedCost_pos {x : TaskCt × ℤ} (hb : 0 < x.1.budget) (hnonneg : 0 ≤ x.2)
    (hle : x.2 ≤ x.1.budget * scaleUpFactor) : 0 < inflatedCost x := by
  unfold inflatedCost
  split_ifs with hset
  · have hpos : 0 < x.2 := lt_of_le_of_ne hnonneg (Ne.symm hset)
    have hone : 1 ≤ x.1.budget * scaleUpFactor / x.2 := by
      rwa [Int.le_ediv_iff_mul_le hpos, one_mul]
    omega
  · exact hb

/-- If every release brings some work, the walk does not stall. -/
theorem not_stalls (h : Undecided list pmFreq pos) (hcost : ∀ x ∈ list.zip pmFreq, 0 < inflatedCost x) :
    ¬ Stalls list pmFreq pos := by
  rintro ⟨w, hstall⟩
  obtain ⟨d, hd, hdvd⟩ := hstall.release
  have hnoWork := hstall.noWork
  have hfixed := h.fixedBefore_mono (t := w) (u := w + 1) (by omega)
  have hfree := h.freeBefore_mono (t := w) (u := w + 1) (by omega)
  have hp : 0 < d.period := (h.positive.take _ d hd).2
  -- the released task is one of those that count
  obtain ⟨j, hj, rfl⟩ := List.mem_take_iff_getElem.1 hd
  have hjl : j < list.length := by omega
  have hjz : j < (list.zip pmFreq).length := by
    rw [List.length_zip, h.length]
    omega
  have hle : list[j].period ≤ (list.getD pos default).period := by
    rw [List.getD_eq_getElem _ _ h.lt]
    rcases (by omega : j ≤ pos).eq_or_lt with rfl | hlt
    · exact le_rfl
    · exact List.pairwise_iff_getElem.1 h.sorted j pos hjl h.lt hlt
  have hmem : (list.zip pmFreq)[j] ∈ (↑(rivals (decide ((list.zip pmFreq)[j].2 ≠ 0)) list pmFreq
      (list.getD pos default).period) : Multiset (TaskCt × ℤ)) := by
    refine Multiset.mem_coe.2 (List.mem_filter.2 ⟨List.getElem_mem hjz, ?_⟩)
    rw [List.getElem_zip]
    exact decide_eq_true ⟨hle, rfl⟩
  -- so its work is added at `w`
  have hstay : ∀ fixed, inflatedBefore fixed list pmFreq (list.getD pos default).period (w + 1) ≤
      inflatedBefore fixed list pmFreq (list.getD pos default).period w := by
    intro fixed
    unfold fixedBefore freeBefore at *
    cases fixed <;> omega
  have hnext := next_release (fun x hx => hcost x (List.mem_filter.1 (Multiset.mem_coe.1 hx)).1)
    h.period_pos (hstay _) hmem
  rw [List.getElem_zip] at hnext
  obtain ⟨k, rfl⟩ := hdvd
  have hceil : ⌈((list[j].period * k : ℤ) : ℚ) / list[j].period⌉ = k := by
    have hne : (list[j].period : ℚ) ≠ 0 := by exact_mod_cast hp.ne'
    rw [Int.cast_mul, mul_div_cancel_left₀ _ hne, Int.ceil_intCast]
  simp only [hceil] at hnext
  rw [mul_comm k] at hnext
  omega

/-- **The walks come back.**  On budgets and periods of at least a microsecond, sorted by period but
not necessarily schedulable, the walk of `sysclock` over every task ends, whatever flag it is entered
with, and so does that of `inflated_freq` over every task, if the tasks before some `k` have got a
speed between 1 and 1000 and the others none.  None of them divides by zero. -/
theorem walks_terminate (list : List TaskCt) (h : ∀ c ∈ list, 1 ≤ c.budget ∧ 1 ≤ c.period)
    (hs : list.Pairwise fun a b => a.period ≤ b.period) :
    ∃ n, ∀ fuel, n ≤ fuel →
      (∀ i < list.length, ∀ inBzp, ∃ w, alphaOfChecked fuel list i inBzp = some w ∧
        alphaOf fuel list i inBzp = some w) ∧
      ∀ (pmFreq : List ℤ) (pos k : ℕ), pmFreq.length = list.length → pos < list.length → k ≤ pos →
        (∀ j < k, 1 ≤ pmFreq.getD j 0 ∧ pmFreq.getD j 0 ≤ 1000) →
        (∀ j, k ≤ j → j < list.length → pmFreq.getD j 0 = 0) →
        ∃ v, inflatedFreqChecked fuel list pmFreq pos = some v ∧
          inflatedFreq fuel list pmFreq pos = some v := by
  have hpositive : Positive list := h
  refine ⟨2 * (list.map fun c => c.period.toNat).sum + 3, fun fuel hfuel => ⟨?_, ?_⟩⟩
  · intro i hi inBzp
    have hturns := turns_lt hfuel _ (getD_mem hi)
    obtain ⟨w, hw, -⟩ := alphaOf_total hpositive hi inBzp hturns
    refine ⟨w, ?_, hw⟩
    rw [alphaOfChecked_eq hpositive hi inBzp (by omega), hw]
  · intro pmFreq pos k hlen hpos hk hset hunset
    have hturns := turns_lt hfuel _ (getD_mem hpos)
    have hspeed : ∀ v ∈ pmFreq, 0 ≤ v ∧ v ≤ 1000 := by
      intro v hv
      obtain ⟨j, hj, rfl⟩ := List.mem_iff_getElem.1 hv
      rw [← List.getD_eq_getElem _ 0 hj]
      rcases lt_or_ge j k with hjk | hjk
      · have := hset j hjk
        omega
      · rw [hunset j hjk (by omega)]
        norm_num
    have hu : Undecided list pmFreq pos :=
      ⟨hpositive, hs, hlen, fun v hv => (hspeed v hv).1, hpos, hunset pos hk hpos⟩
    have hstall : ¬ Stalls list pmFreq pos := not_stalls hu fun x hx => by
      obtain ⟨hmem, hmem'⟩ := List.of_mem_zip hx
      have hbudget := (h _ hmem).1
      have hv := hspeed _ hmem'
      refine inflatedCost_pos (by omega) hv.1 ?_
      rw [scaleUpFactor]
      omega
    have hfreq := inflatedFreq_eq hu hturns
    rw [lowestSpeed, if_neg hstall] at hfreq
    refine ⟨_, ?_, hfreq⟩
    rw [inflatedFreqChecked_eq hu (by omega), hfreq]

/-- Two tasks that do not fit, and the second one's speed after the first has got 800. -/
theorem walks_terminate_pair :
    ∃ n, ∀ fuel, n ≤ fuel →
      (∃ w, alphaOfChecked fuel [⟨3, 4, 0, 0⟩, ⟨3, 6, 0, 0⟩] 1 false = some w ∧
        alphaOf fuel [⟨3, 4, 0, 0⟩, ⟨3, 6, 0, 0⟩] 1 false = some w) ∧
      ∃ v, inflatedFreqChecked fuel [⟨3, 4, 0, 0⟩, ⟨3, 6, 0, 0⟩] [800, 0] 1 = some v ∧
        inflatedFreq fuel [⟨3, 4, 0, 0⟩, ⟨3, 6, 0, 0⟩] [800, 0] 1 = some v := by
  obtain ⟨n, hn⟩ := walks_terminate [⟨3, 4, 0, 0⟩, ⟨3, 6, 0, 0⟩] (by decide) (by decide)
  refine ⟨n, fun fuel hfuel => ⟨(hn fuel hfuel).1 1 (by decide) false, ?_⟩⟩
  refine (hn fuel hfuel).2 [800, 0] 1 1 rfl (by decide) le_rfl (by decide) fun j h1 h2 => ?_
  obtain rfl : j = 1 := by
    simp only [List.length_cons, List.length_nil] at h2
    omega
  rfl

/-- What the choice keeps: no speed is more than twice the maximum. -/
structure Capped (list : List TaskCt) (i : ℕ) (x : List ℤ × List ℤ) : Prop where
  choosing : Choosing list i x
  lowest : ∀ v ∈ x.1, v ≤ 2 * scaleUpFactor
  chosen : ∀ v ∈ x.2, v ≤ 2 * scaleUpFactor

theorem getMax_le {freqs : List ℤ} {m : ℤ} (hm : 0 ≤ m) (h : ∀ v ∈ freqs, v ≤ m) (pos : ℕ) :
    getMax freqs pos ≤ m := by
  by_contra hlt
  have hmax : m + 1 ≤ getMax freqs pos := by omega
  rcases (le_foldl_max_iff _ _ _).1 hmax with hfirst | ⟨a, ha, hlater⟩
  · rcases lt_or_ge pos freqs.length with hp | hp
    · rw [List.getD_eq_getElem _ _ hp] at hfirst
      have := h _ (List.getElem_mem hp)
      omega
    · rw [List.getD_eq_default _ _ hp] at hfirst
      omega
  · have := h a (List.mem_of_mem_drop ha)
    omega

theorem Capped.set {i : ℕ} {x : List ℤ × List ℤ} (hx : Capped list i x) {minFreq : List ℤ}
    (hmin : ∀ v ∈ minFreq, 0 ≤ v ∧ v ≤ 2 * scaleUpFactor) :
    Capped list (i + 1) (minFreq, x.2.set i (getMax minFreq i)) := by
  have hnonneg : ∀ v ∈ minFreq, 0 ≤ v := fun v hv => (hmin v hv).1
  have hle : ∀ v ∈ minFreq, v ≤ 2 * scaleUpFactor := fun v hv => (hmin v hv).2
  refine ⟨hx.choosing.set hnonneg (getMax_nonneg hnonneg i), hle, fun u hu => ?_⟩
  rcases List.mem_or_eq_of_mem_set hu with hu | rfl
  · exact hx.chosen u hu
  · exact getMax_le (by norm_num [scaleUpFactor]) hle i

section Total

variable (h : Positive list) (hs : list.Pairwise fun a b => a.period ≤ b.period)
  (htwo : ∀ c ∈ list, 2 ≤ c.budget)

include htwo in
theorem lowestSpeed_total (hu : Undecided list pmFreq pos)
    (hcap : ∀ v ∈ pmFreq, v ≤ 2 * scaleUpFactor) :
    ∃ v, lowestSpeed list pmFreq pos = some v ∧ 0 ≤ v ∧ v ≤ 2 * scaleUpFactor := by
  have hstall : ¬ Stalls list pmFreq pos := not_stalls hu fun x hx => by
    obtain ⟨hmem, hmem'⟩ := List.of_mem_zip hx
    have hbudget := htwo _ hmem
    have hle := hcap _ hmem'
    refine inflatedCost_pos (by omega) (hu.nonneg _ hmem') ?_
    rw [scaleUpFactor] at hle ⊢
    omega
  have heq : lowestSpeed list pmFreq pos = some (greatest (LowSpeed list pmFreq pos)) :=
    if_neg hstall
  obtain ⟨hnonneg, hle⟩ := lowestSpeed_le hu heq
  refine ⟨_, heq, hnonneg, hle.trans ?_⟩
  norm_num [scaleUpFactor]

include htwo in
/-- The speeds from task `i` on are computed again, and each of these walks ends. -/
theorem reinflateWith_total {i : ℕ} (hu : ∀ j, i ≤ j → j < list.length → Undecided list pmFreq j)
    (hcap : ∀ v ∈ pmFreq, v ≤ 2 * scaleUpFactor) {minFreq : List ℤ}
    (hmin : ∀ v ∈ minFreq, 0 ≤ v ∧ v ≤ 2 * scaleUpFactor) :
    ∃ freqs, reinflateWith (lowestSpeed list) list.length pmFreq i minFreq = some freqs ∧
      ∀ v ∈ freqs, 0 ≤ v ∧ v ≤ 2 * scaleUpFactor := by
  have hstep : ∀ j (l : List ℤ), j < i + (list.length - i) →
      (i ≤ j ∧ ∀ v ∈ l, 0 ≤ v ∧ v ≤ 2 * scaleUpFactor) →
      ∃ l', (do
        let freq ← lowestSpeed list pmFreq j
        some (l.set j freq)) = some l' ∧
        (i ≤ j + 1 ∧ ∀ v ∈ l', 0 ≤ v ∧ v ≤ 2 * scaleUpFactor) := by
    intro j l hj hl
    obtain ⟨v, hv, hbounds⟩ := lowestSpeed_total htwo (hu j hl.1 (by omega)) hcap
    refine ⟨l.set j v, by rw [hv]; rfl, by omega, fun u hmem => ?_⟩
    rcases List.mem_or_eq_of_mem_set hmem with hmem | rfl
    · exact hl.2 u hmem
    · exact hbounds
  obtain ⟨freqs, hre, -, hfreqs⟩ := foldlM_total hstep le_rfl ⟨le_rfl, hmin⟩
  exact ⟨freqs, hre, hfreqs⟩

include h hs htwo in
theorem Capped.next {i : ℕ} {x : List ℤ × List ℤ} (hx : Capped list i x) :
    ∃ y, pmclockStepWith (lowestSpeed list) list.length x i = some y ∧ Capped list (i + 1) y := by
  have hmin : ∀ v ∈ x.1, 0 ≤ v ∧ v ≤ 2 * scaleUpFactor :=
    fun v hv => ⟨hx.choosing.lowest v hv, hx.lowest v hv⟩
  simp only [pmclockStepWith]
  split_ifs
  · have hcap : ∀ v ∈ (x.2.set i (getMax x.1 i)).set i 0, v ≤ 2 * scaleUpFactor := by
      intro v hv
      rw [List.set_set] at hv
      rcases List.mem_or_eq_of_mem_set hv with hv | rfl
      · exact hx.chosen v hv
      · norm_num [scaleUpFactor]
    obtain ⟨minFreq, hre, hmin'⟩ := reinflateWith_total htwo
      (fun j hij hj => hx.choosing.undecided h hs hij hj (getMax x.1 i)) hcap hmin
    refine ⟨(minFreq, x.2.set i (getMax minFreq i)), ?_, hx.set hmin'⟩
    rw [hre, Option.map_some, List.set_set, List.set_set]
  · refine ⟨_, rfl, ?_⟩
    rw [List.set_set]
    exact hx.set hmin

include h hs htwo in
/-- **`inflated_freq` comes back**, whenever `pmclock` calls it. -/
theorem pmclockWith_total {minFreq : List ℤ}
    (hmin : ∀ v ∈ minFreq, 0 ≤ v ∧ v ≤ 2 * scaleUpFactor) {fuel : ℕ}
    (hfuel : ∀ c ∈ list, 2 * c.period.toNat + 2 < fuel) :
    ∃ freqs, pmclockWith (inflatedFreqChecked fuel list) list.length minFreq = some freqs ∧
      pmclockWith (inflatedFreq fuel list) list.length minFreq = some freqs := by
  have hnonneg : ∀ v ∈ minFreq, 0 ≤ v := fun v hv => (hmin v hv).1
  have hstart : Capped list 0 (minFreq, List.replicate list.length 0) := by
    refine ⟨choosing_start hnonneg, fun v hv => (hmin v hv).2, fun v hv => ?_⟩
    rw [List.eq_of_mem_replicate hv]
    norm_num [scaleUpFactor]
  obtain ⟨x, hloop, -⟩ := foldlM_total (I := Capped list) (m := list.length)
    (fun i x _ hx => hx.next h hs htwo) (by omega : 0 + list.length ≤ _) hstart
  have hlow : pmclockWith (lowestSpeed list) list.length minFreq = some x.2 := by
    rw [pmclockWith, hloop]
    rfl
  have hplain : ∀ pmFreq pos, Undecided list pmFreq pos →
      inflatedFreq fuel list pmFreq pos = lowestSpeed list pmFreq pos :=
    fun pmFreq pos hu => inflatedFreq_eq hu (hfuel _ (getD_mem hu.lt))
  refine ⟨x.2, ?_, ?_⟩
  · rw [← hlow]
    refine pmclockWith_eq h hs (fun pmFreq pos hu => ?_) hnonneg
    have := hfuel _ (getD_mem hu.lt)
    rw [inflatedFreqChecked_eq hu (by omega), hplain pmFreq pos hu]
  · rw [← hlow]
    exact pmclockWith_eq h hs hplain hnonneg

end Total

end PmClock

/-! ### The computation a call makes -/

/-- The call comes to the computation of the clock in the state `s₂`: it is not refused, has changed
the list and has set the priorities. -/
inductive Retunes (e : Env) (s s₂ : KState) : Cmd → Prop
  | set {pid : ℤ} {budget : ℕ} {period : Timespec} {curr : Tid} {s₁ : KState} {r : ℤ}
      (hset : period.isSet = true) (hpid : 0 < pid)
      (hlt : timespecCompare (taskBudgetOf e budget) period < 0)
      (hadmits : admits e (taskBudgetOf e budget) period s = .ok true)
      (hfind : s.findTaskByVpid pid = some curr)
      (hreserve : reserve e curr (taskBudgetOf e budget) period s = .ok s₁)
      (hoff : s₁.isBinPackingSet = false) (hprio : setRtPriorities e.fuel s₁ = .ok (s₂, r)) :
      Retunes e s s₂ (.setProcessBudget pid budget period)
  | cancel {pid : ℤ} {curr : Tid} {s₀ s₁ : KState} {r : ℤ} (hpid : 0 < pid)
      (hfind : s.findTaskByVpid pid = some curr)
      (hdel : delPeriodicTask curr (eraseReservation curr s) = .ok s₀)
      (hleave : leaveCpu e curr s₀ = .ok s₁) (hoff : s₁.isBinPackingSet = false)
      (hprio : setRtPriorities e.fuel (s₁.eachThread curr wakeUpProcess) = .ok (s₂, r)) :
      Retunes e s s₂ (.cancelBudget pid)
  | exit {tsk : Tid} {autoreap : Bool} {s₀ s₁ : KState} {r : ℤ}
      (hflag : (s.task tsk).isBudgetSet = true) (hlead : tsk = (s.task tsk).tgid)
      (hdel : delPeriodicTask tsk (clearReservation tsk s) = .ok s₀)
      (hleave : leaveCpu e tsk s₀ = .ok s₁) (hoff : s₁.isBinPackingSet = false)
      (hprio : setRtPriorities e.fuel s₁ = .ok (s₂, r)) : Retunes e s s₂ (.exit tsk autoreap)

/-- The array, `sysclock`, and under PM-Clock `pmclock`. -/
def computeClock (e : Env) (s : KState) : Call KState (KState × ℕ) := do
  let list ← makeTaskCtStruct e s
  let (s', freq) ← sysclock e list s
  if s.powerScheme = .pmClock then do
    let s' ← pmclock e list s'
    pure (s', freq)
  else pure (s', freq)

section Rest

variable {e : Env} {s s₁ s₂ : KState} {r : ℤ}

/-- The call begins with the computation of the clock in the state `s`. -/
def BeginsWithClock (e : Env) (s : KState) {α : Type} (call : Call KState α) : Prop :=
  ∃ rest, call = computeClock e s >>= rest

theorem BeginsWithClock.bind {α β : Type} {call : Call KState α} (h : BeginsWithClock e s call)
    (f : α → Call KState β) : BeginsWithClock e s (call >>= f) := by
  obtain ⟨rest, rfl⟩ := h
  exact ⟨fun x => rest x >>= f, bind_assoc _ _ _⟩

theorem beginsWithClock_sysclock (hpow : s.powerScheme = .sysClock) :
    BeginsWithClock e s (retuneSysclock e s) := by
  refine ⟨fun x => do
    let (s, retFreq) ← applySysclock e x.2 x.1
    pure { s with cpuFreq := retFreq }, ?_⟩
  simp [retuneSysclock, computeClock, hpow]

theorem beginsWithClock_pmclock (hpow : s.powerScheme = .pmClock) :
    BeginsWithClock e s (computePmclock e s) :=
  ⟨pure, by simp [computePmclock, computeClock, hpow]⟩

/-- The branches of the power schemes that compute a frequency. -/
theorem beginsWithClock_scheme (hpow : s.powerScheme ≠ .noPm) {noPm : Call KState KState}
    {next : KState × ℕ → Call KState KState} :
    BeginsWithClock e s (match s.powerScheme with
      | .noPm => noPm
      | .sysClock => retuneSysclock e s
      | .pmClock => computePmclock e s >>= next) := by
  cases hp : s.powerScheme with
  | noPm => exact absurd hp hpow
  | sysClock => exact beginsWithClock_sysclock hp
  | pmClock => exact (beginsWithClock_pmclock hp).bind _

section Numbered

variable (hprio : setRtPriorities e.fuel s₁ = .ok (s₂, r)) (hpow : s₂.powerScheme ≠ .noPm)

include hprio hpow

theorem beginsWithClock_launch (curr : Tid) (budget : ℕ) :
    BeginsWithClock e s₂ (launchReservation e curr budget s₁) := by
  rw [launchReservation, hprio, ok_bind]
  exact beginsWithClock_scheme hpow

theorem beginsWithClock_cancel : BeginsWithClock e s₂ (retuneAfterCancel e s₁) := by
  rw [retuneAfterCancel, hprio, ok_bind]
  exact beginsWithClock_scheme hpow

theorem beginsWithClock_exit : BeginsWithClock e s₂ (retuneAfterExit e s₁) := by
  rw [retuneAfterExit, hprio, ok_bind]
  exact beginsWithClock_scheme hpow

end Numbered

/-- What is left of the call then is the computation of the clock, and what follows it. -/
theorem Retunes.beginsWithClock {c : Cmd} (h : Retunes e s s₂ c) (hpow : s₂.powerScheme ≠ .noPm) :
    BeginsWithClock e s₂ (exec e s c) := by
  cases h with
  | @set pid budget period curr s₁ r hset hpid hlt hadmits hfind hreserve hoff hprio =>
    have hcall : exec e s (.setProcessBudget pid budget period) =
        launchReservation e curr budget s₁ >>= fun s => pure (s, 0) := by
      show setProcessBudget e pid budget period s = _
      rw [setProcessBudget, if_neg (not_not.2 hset), if_neg (not_le.2 hpid), if_neg (not_le.2 hlt),
        hadmits, ok_bind, if_neg Bool.true_eq_false_eq_False, hfind]
      simp only [setReservation, hreserve, ok_bind, hoff, Bool.false_eq_true, if_false]
    rw [hcall]
    exact (beginsWithClock_launch hprio hpow curr budget).bind _
  | @cancel pid curr s₀ s₁ r hpid hfind hdel hleave hoff hprio =>
    have hoff' : (s₁.eachThread curr wakeUpProcess).isBinPackingSet = false := hoff
    have hcall : exec e s (.cancelBudget pid) =
        retuneAfterCancel e (s₁.eachThread curr wakeUpProcess) >>= fun s => pure (s, 0) := by
      show cancelBudget e pid s = _
      rw [cancelBudget, if_neg (not_le.2 hpid), hfind]
      simp only [cancelReservation, hdel, hleave, ok_bind, hoff', Bool.false_eq_true, if_false]
    rw [hcall]
    exact (beginsWithClock_cancel hprio hpow).bind _
  | @exit tsk autoreap s₀ s₁ r hflag hlead hdel hleave hoff hprio =>
    have hcall : exec e s (.exit tsk autoreap) =
        retuneAfterExit e s₁ >>= fun s => pure (finishExit tsk autoreap s, 0) := by
      show doExit e tsk autoreap s = _
      rw [doExit, if_pos hflag]
      simp only [exitReservation, if_pos hlead, hdel, hleave, ok_bind, hoff, Bool.false_eq_true,
        if_false]
    rw [hcall]
    exact (beginsWithClock_exit hprio hpow).bind _

end Rest

/-! ### The states the computation is made in -/

/-- `sysclock` and, under PM-Clock, every call of `inflated_freq` come back, and no division is by
zero. -/
def ClockReturns (e : Env) (s : KState) (arr : List TaskCt) : Prop :=
  ∃ x, sysclockChecked e arr s = .ok x ∧ sysclock e arr s = .ok x ∧
    (s.powerScheme = .pmClock → ∃ s', pmclockChecked e arr x.1 = .ok s' ∧ pmclock e arr x.1 = .ok s')

/-- With enough turns the computation comes back; so does `sysclock` with the registers of the
target. -/
def ComesBack (e : Env) (s : KState) (arr : List TaskCt) : Prop :=
  ∃ n, ∀ fuel, n ≤ fuel → ClockReturns { e with fuel := fuel } s arr ∧
    ∃ x, sysclock32 { e with fuel := fuel } (arr.map TaskCt.word) s = .ok x

/-- The budgets, in microseconds, with which every walk comes back. -/
def leastBudget : PowerScheme → ℕ
  | .noPm => 0
  | .sysClock => 1
  | .pmClock => 2

/-- Stored reservations that pass the test together, with budgets for the clock and periods that the
target converts without loss. -/
structure LargeInv (s : KState) (list : List Tid) : Prop where
  inv : StoredInv s list
  sized : ∀ t ∈ list, leastBudget s.powerScheme ≤ convertToUsecs (s.task t).minBudgetTime ∧
    convertToUsecs (s.task t).minBudgetTime ≤ convertToUsecs (s.task t).timePeriod ∧
    convertToUsecs (s.task t).timePeriod < 2 ^ 31
  feasible : FeasibleList s list

section Run

variable {e : Env} {s s' s₁ s₂ : KState} {list : List Tid} {t : Tid} {b p : Timespec}

/-- The speeds `sysclock` leaves in the tasks. -/
theorem writeAlpha_bounds (h : Kept s list) {alphas : List ℤ} (hlen : alphas.length = list.length)
    (hbounds : ∀ a ∈ alphas, 0 ≤ a ∧ a ≤ 2 * scaleUpFactor) :
    ∀ v ∈ (timedCts s list).map (fun c =>
      (((((timedCts s list).zip alphas).foldl writeAlpha s).task c.task).alpha : ℤ)),
      0 ≤ v ∧ v ≤ 2 * scaleUpFactor := by
  intro v hv
  obtain ⟨c, hc, rfl⟩ := List.mem_map.1 hv
  obtain ⟨t, ht, rfl⟩ := List.mem_map.1 hc
  obtain ⟨i, hi, rfl⟩ := List.getElem_of_mem ht
  have hwrite := foldl_timedCts h s hlen (fun x p => { p with alpha := x.2.toNat }) hi
  have halpha : ((((timedCts s list).zip alphas).foldl writeAlpha s).task list[i]).alpha =
      (alphas.getD i 0).toNat := congrArg TaskStruct.alpha hwrite
  have hmem : alphas.getD i 0 ∈ alphas := by
    rw [List.getD_eq_getElem _ _ (by omega)]
    exact List.getElem_mem _
  obtain ⟨h0, h1⟩ := hbounds _ hmem
  simp only [halpha, Int.toNat_of_nonneg h0]
  exact ⟨h0, h1⟩

section Sized

variable (h : LargeInv s list) (hpow : s.powerScheme ≠ .noPm)

include h

theorem LargeInv.positive (hpow : s.powerScheme ≠ .noPm) : Positive (timedCts s list) := by
  intro c hc
  obtain ⟨t, ht, rfl⟩ := List.mem_map.1 hc
  have hone : 1 ≤ leastBudget s.powerScheme := by
    cases hp : s.powerScheme with
    | noPm => exact absurd hp hpow
    | sysClock => exact le_rfl
    | pmClock => exact one_le_two
  have hbudget : (leastBudget s.powerScheme : ℤ) ≤ (ctOf s t).budget := (h.sized t ht).1
  have hpos : 0 < (ctOf s t).budget := by omega
  exact ⟨hpos, (h.inv.stored t ht).period⟩

theorem LargeInv.sorted : (timedCts s list).Pairwise fun a b => a.period ≤ b.period := by
  have hcts := listCts_sorted h.inv.kept.sorted h.inv.stored
  rw [listCts, List.pairwise_map] at hcts
  rw [timedCts, List.pairwise_map]
  exact hcts

theorem LargeInv.passes (hpow : s.powerScheme ≠ .noPm) : Passes (timedCts s list) := by
  rw [passes_iff_feasible (h.positive hpow).wf h.sorted, timedCts, ← Multiset.map_coe, feasible_map]
  have hfeasible := h.feasible
  rw [FeasibleList, listCts, ← Multiset.map_coe, feasible_map] at hfeasible
  exact hfeasible

include hpow

/-- **The computation comes back** whenever the budgets are large enough. -/
theorem LargeInv.clockReturns {e : Env}
    (hfuel : 2 * ((timedCts s list).map fun c => c.period.toNat).sum + 3 ≤ e.fuel) :
    ClockReturns e s (timedCts s list) := by
  have hk := h.inv.kept
  have hlen : (timedCts s list).length = list.length := List.length_map _
  have hturns := turns_lt hfuel
  rw [ClockReturns, sysclock_with, sysclockChecked, sysclockWith, sysclockWith]
  by_cases hnil : list = []
  · -- nothing is computed for an empty list
    have hsize : s.periodicTasksSize ≤ 0 := by
      rw [hk.size, hnil]
      exact le_rfl
    rw [if_pos hsize, if_pos hsize]
    refine ⟨(s, 0), rfl, rfl, fun _ => ⟨s, ?_⟩⟩
    rw [hnil]
    exact ⟨rfl, rfl⟩
  · have hsize : s.periodicTasksSize = (timedCts s list).length := hk.size.trans hlen.symm
    have hpos : ¬ (timedCts s list).length ≤ 0 := by
      rw [hlen, not_le]
      exact List.length_pos_iff.2 hnil
    obtain ⟨alphas, hchecked, hplain, hcount, hbounds⟩ := alphasFromBy_total (i := 0)
      (h.positive hpow) hturns (by omega : 0 + (timedCts s list).length ≤ _) true
    rw [hsize, if_neg hpos, if_neg hpos, hchecked, hplain]
    refine ⟨_, rfl, rfl, fun hpm => ?_⟩
    have htwo : ∀ c ∈ timedCts s list, 2 ≤ c.budget := by
      intro c hc
      obtain ⟨t, ht, rfl⟩ := List.mem_map.1 hc
      have hbudget := (h.sized t ht).1
      rw [hpm] at hbudget
      exact hbudget
    obtain ⟨freqs, hchecked', hplain'⟩ := pmclockWith_total (h.positive hpow) h.sorted htwo
      (writeAlpha_bounds hk (hcount.trans hlen) hbounds) hturns
    rw [pmclock_with, pmclockChecked, hchecked', hplain']
    exact ⟨_, rfl, rfl⟩

/-- In the registers of the target the walks of `sysclock` come back as well. -/
theorem LargeInv.sysclock32_returns (e : Env) : ∃ n, ∀ fuel, n ≤ fuel →
    ∃ x, sysclock32 { e with fuel := fuel } ((timedCts s list).map TaskCt.word) s = .ok x := by
  have hread : ((timedCts s list).map TaskCt.word).map TaskCt32.ct = timedCts s list := by
    refine map_ct_word (fun c hc => ?_) (fun c hc => ?_) fun c hc => ?_
    · refine ⟨((h.positive hpow) c hc).1.le, ?_⟩
      obtain ⟨t, ht, rfl⟩ := List.mem_map.1 hc
      exact (h.sized t ht).2.1
    · obtain ⟨t, -, rfl⟩ := List.mem_map.1 hc
      rfl
    · obtain ⟨t, ht, rfl⟩ := List.mem_map.1 hc
      exact (h.sized t ht).2.2
  have hpass := h.passes hpow
  have hpositive := h.positive hpow
  have hlen : s.periodicTasksSize = ((timedCts s list).map TaskCt.word).length := by
    rw [h.inv.kept.size, timedCts, List.length_map, List.length_map]
  have hlt : ∀ c ∈ (timedCts s list).map TaskCt.word, c.period.toNat < 2 ^ 31 := by
    intro c hc
    have hmem : c.ct ∈ timedCts s list := by
      rw [← hread]
      exact List.mem_map_of_mem hc
    obtain ⟨t, ht, hct⟩ := List.mem_map.1 hmem
    have hsmall : convertToUsecs (s.task t).timePeriod < 2 ^ 31 := (h.sized t ht).2.2
    have hperiod : convertToUsecs (s.task t).timePeriod = c.period.toNat :=
      congrArg TaskCt.period hct
    omega
  rw [← hread] at hpass hpositive
  obtain ⟨n, a, a32, hspeeds⟩ := exists_speedsOf hpositive hpass
  refine ⟨n, fun fuel hfuel => ?_⟩
  have hwrapped := hspeeds.wrapped fuel hfuel
  rw [List.length_map] at hwrapped
  have hmap := sysclockSpeeds32_eq (alphaOf32_mod (longPeriods_of_proper hlt hpositive) hpass fuel)
    (BitVec.ofNat 32 e.maxFrequency)
  rw [hwrapped, Option.map_some] at hmap
  obtain ⟨x, hx, -⟩ := Option.map_eq_some_iff.1 hmap
  rw [sysclock32, sysclockPerCpu32, hlen]
  split_ifs
  · exact ⟨_, rfl⟩
  · have hx' : sysclockSpeeds32 fuel (BitVec.ofNat 32 (Env.maxFrequency { e with fuel := fuel }))
        ((timedCts s list).map TaskCt.word) ((timedCts s list).map TaskCt.word).length = some x := hx
    rw [hx']
    exact ⟨_, rfl⟩

theorem LargeInv.comesBack (e : Env) : ComesBack e s (timedCts s list) := by
  obtain ⟨n, hn⟩ := h.sysclock32_returns hpow e
  refine ⟨max n (2 * ((timedCts s list).map fun c => c.period.toNat).sum + 3), fun fuel hfuel => ?_⟩
  exact ⟨h.clockReturns hpow (le_of_max_le_right hfuel), hn fuel (le_of_max_le_left hfuel)⟩

end Sized

/-- Removals, and whatever leaves the periods and budgets alone, keep the invariant. -/
theorem LargeInv.sublist (h : LargeInv s list) {list' : List Tid} (hsub : list'.Sublist list)
    (hk : Kept s' list') (hbin : s'.isBinPackingSet = s.isBinPackingSet)
    (hpow : s'.powerScheme = s.powerScheme)
    (hsame : ∀ u ∈ list', (s'.task u).timePeriod = (s.task u).timePeriod ∧
      (s'.task u).minBudgetTime = (s.task u).minBudgetTime) : LargeInv s' list' := by
  refine ⟨⟨hk, hbin.trans h.inv.binOff, fun u hu => ?_⟩, fun u hu => ?_,
    h.feasible.sublist h.inv.stored hsub hsame⟩
  · exact (h.inv.stored u (hsub.subset hu)).congr (hsame u hu).1 (hsame u hu).2
  · rw [hpow, (hsame u hu).1, (hsame u hu).2]
    exact h.sized u (hsub.subset hu)

theorem LargeInv.quiet (h : LargeInv s list) (hq : Quiet s s') : LargeInv s' list :=
  h.sublist (List.Sublist.refl list) (h.inv.kept.of_quiet hq) (registry_bin hq.registry)
    (registry_power hq.registry) fun u _ => ⟨(registry_task hq.registry u).timePeriod,
      congrArg TaskReg.minBudgetTime (registry_task hq.registry u)⟩

theorem LargeInv.ended (h : LargeInv s list) (he : Ended s s') : LargeInv s' list :=
  h.sublist (List.Sublist.refl list) (he.kept h.inv.kept) he.bin he.power
    fun u _ => ⟨he.timePeriod u, he.minBudgetTime u⟩

/-- A removal leaves the other reservations as they are. -/
theorem LargeInv.erased (h : LargeInv s list) (hk : Kept s₁ (list.erase t)) (hstep : ListStep s s₁)
    (hkeep : ∀ u ∈ list.erase t, (s₁.task u).timePeriod = (s.task u).timePeriod ∧
      (s₁.task u).minBudgetTime = (s.task u).minBudgetTime) : LargeInv s₁ (list.erase t) :=
  h.sublist List.erase_sublist hk hstep.bin hstep.power hkeep

/-- A reservation that was admitted, with a budget for the clock. -/
theorem LargeInv.reserved (h : LargeInv s list) (hk : Kept s₁ (reservedList s t p list))
    (hr : Reserved t b p s s₁) (hp : p.Normalised) (hp1 : 1 ≤ convertToUsecs p)
    (hsmall : convertToUsecs p < 2 ^ 31) (hb : leastBudget s.powerScheme ≤ convertToUsecs b)
    (hle : convertToUsecs b ≤ convertToUsecs p) (hadm : Admitted s list b p) :
    LargeInv s₁ (reservedList s t p list) := by
  have hb0 : 0 ≤ convertToUsecs b := by omega
  refine ⟨⟨hk, hr.step.bin.trans h.inv.binOff, hr.stored h.inv.kept h.inv.stored hp1 hb0 hp⟩,
    fun u hu => ?_, hr.feasible h.inv.kept h.inv.stored hp1 hb0 hle hadm⟩
  rw [hr.step.power, hr.minBudgetTime, hr.timePeriod]
  rcases mem_reservedList.1 hu with rfl | hu
  · rw [if_pos rfl, if_pos rfl]
    exact ⟨hb, hle, hsmall⟩
  · have hne := h.inv.kept.ne_of_mem_erase hu
    rw [if_neg hne, if_neg hne]
    exact h.sized u (List.mem_of_mem_erase hu)

/-- Reservations of at least one microsecond's cycles under SysClock, and of two under PM-Clock, next
to what the list needs. -/
def LargeOk (e : Env) (s : KState) : Cmd → Prop
  | .setProcessBudget pid budget p => leastBudget s.powerScheme ≤ budget / e.maxFrequency ∧
      ListedOk s (.setProcessBudget pid budget p)
  | c => ListedOk s c

theorem exec_largeInv (h : ∃ list, LargeInv s list) {c : Cmd} (hok : LargeOk e s c) :
    Sat (fun x => ∃ list, LargeInv x.1 list) (fun _ => True) (exec e s c) := by
  obtain ⟨list, h⟩ := h
  have hk := h.inv.kept
  have hoff := h.inv.binOff
  cases c with
  | setProcessBudget pid budget p =>
    obtain ⟨hb, hp, hp1, hsmall, hok⟩ := hok
    refine setProcessBudget_rule (Q := fun s' => ∃ list, LargeInv s' list) hk ⟨list, h⟩
      fun t ht hlt hadm => ?_
    refine (setReservation_off hk (hok t ht list hk.onList) hoff budget _ p).mono ?_
      fun _ _ => trivial
    rintro s' ⟨s₁, hk₁, hr, hl⟩
    have hlarge := h.reserved hk₁ hr hp hp1 hsmall (by rw [usecs_taskBudgetOf]; exact_mod_cast hb)
      (taskBudgetOf_le hp hlt) (hadm hoff)
    exact ⟨_, hlarge.quiet hl.update.quiet_of_numbered⟩
  | cancelBudget pid =>
    refine cancelBudget_rule (Q := fun s' => ∃ list, LargeInv s' list) ⟨list, h⟩ fun t ht => ?_
    refine (cancelReservation_off hk (hok t ht list hk.onList) hoff).mono ?_ fun _ _ => trivial
    rintro s' ⟨s₁, hk₁, hu, hup, -, -⟩
    exact ⟨_, (h.erased hk₁ hu.step (hu.keeps hk)).quiet hup.quiet_of_numbered⟩
  | exit t autoreap =>
    refine doExit_ended (Q := fun s' => ∃ list, LargeInv s' list)
      (fun s' he => ⟨list, h.ended he⟩) fun hf hlead => ?_
    refine (exitReservation_off hk (hok hf hlead list hk.onList) hoff hlead).mono ?_
      fun _ _ => trivial
    rintro s' ⟨s₁, hk₁, hd, hup, -, -⟩
    exact ⟨_, ((h.erased hk₁ hd.step fun u _ => hd.keeps u).quiet hup.quiet_of_numbered).ended
      (ended_finishExit t autoreap s')⟩
  | _ => exact hok.elim

/-- The list the computation of the clock is made for. -/
theorem Retunes.largeInv {c : Cmd} (hret : Retunes e s s₂ c) (h : LargeInv s list)
    (hok : LargeOk e s c) : ∃ list', LargeInv s₂ list' := by
  have hk := h.inv.kept
  -- the priorities are not part of the reservations
  have hnumber : ∀ {s₁ : KState} {list' : List Tid} {r : ℤ}, LargeInv s₁ list' →
      setRtPriorities e.fuel s₁ = .ok (s₂, r) → ∃ list', LargeInv s₂ list' := by
    intro s₁ list' r h₁ hprio
    have hnum : s₂ = numberTasks s₁ list' := sat_of_eq (Q := fun x => x.1 = numberTasks s₁ list')
      (setRtPriorities_kept h₁.inv.kept e.fuel) hprio
    rw [hnum]
    exact ⟨list', h₁.quiet (numberTasks_update s₁ list').quiet_of_prio⟩
  cases hret with
  | @set pid budget p curr s₁ r hset hpid hlt hadmits hfind hreserve hoff hprio =>
    obtain ⟨hb, hp, hp1, hsmall, hok⟩ := hok
    obtain ⟨hk₁, hr⟩ := sat_of_eq (reserve_sat hk (hok curr hfind list hk.onList)
      (taskBudgetOf e budget) p) hreserve
    have hadm := sat_of_eq (admits_sat hk (taskBudgetOf e budget) p) hadmits rfl h.inv.binOff
    refine hnumber (h.reserved hk₁ hr hp hp1 hsmall ?_ (taskBudgetOf_le hp hlt) hadm) hprio
    rw [usecs_taskBudgetOf]
    exact_mod_cast hb
  | @cancel pid curr s₀ s₁ r hpid hfind hdel hleave hoff hprio =>
    obtain ⟨s', hdel', hk₁, hu⟩ := unreserve_sat hk (hok curr hfind list hk.onList)
    obtain rfl : s' = s₀ := Except.ok.inj (hdel'.symm.trans hdel)
    rw [leaveCpu_off (hu.step.bin.trans h.inv.binOff)] at hleave
    obtain rfl : s' = s₁ := Except.ok.inj hleave
    exact hnumber (h.erased (hk₁.wake curr) hu.wake.step (hu.wake.keeps hk)) hprio
  | @exit tsk autoreap s₀ s₁ r hflag hlead hdel hleave hoff hprio =>
    obtain ⟨s', hdel', hk₁, hd⟩ := drop_sat hk (hok hflag hlead list hk.onList)
    obtain rfl : s' = s₀ := Except.ok.inj (hdel'.symm.trans hdel)
    rw [leaveCpu_off (hd.step.bin.trans h.inv.binOff)] at hleave
    obtain rfl : s' = s₁ := Except.ok.inj hleave
    exact hnumber (h.erased hk₁ hd.step fun u _ => hd.keeps u) hprio

theorem largeInv_booted (h : Booted s) : LargeInv s [] :=
  ⟨⟨kept_booted h, h.binOff, by simp⟩, by simp, (admInv_booted h).feasible⟩

/-- What every run of such calls keeps. -/
theorem reach_largeInv (h : Reach Booted (LargeOk e) (exec e) s) : ∃ list, LargeInv s list :=
  h.inv (I := fun s => ∃ list, LargeInv s list) (fun _ hs => ⟨[], largeInv_booted hs⟩)
    fun _ _ hs hok => exec_largeInv hs hok

end Run

/-! ### A budget of nothing -/

section Zero

variable {c : TaskCt} {rest : List TaskCt}

/-- At time zero every task is just being released. -/
theorem idleDuration_zero (hp : 0 < c.period) : idleDuration (c :: rest) 0 c.period 0 = 0 := by
  simp only [idleDuration, List.take_succ_cons, List.take_zero, List.foldl_cons, List.foldl_nil,
    ceiling, Int.zero_tmod, Int.zero_tdiv]
  norm_num
  omega

theorem busyTurn_zero (hb : c.budget = 0) (hp : 0 < c.period) (n : ℕ) :
    run (busyTurn (c :: rest) 0 0 c.period) (n + 2) (0, true) = some 0 := by
  have hfirst : busyTurn (c :: rest) 0 0 c.period (0, true) = some (.next (0, false)) := by
    simp [busyTurn, releasedUpTo, hb, hp]
  have hsecond : busyTurn (c :: rest) 0 0 c.period (0, false) = some (.exit 0) := by
    simp [busyTurn]
  rw [run_succ_next hfirst, run_succ_exit hsecond]

/-- With a first budget of zero the clock of the first walk never leaves zero. -/
theorem alphaOf_zero (hb : c.budget = 0) (hp : 0 < c.period) (fuel : ℕ) :
    alphaOf fuel (c :: rest) 0 true = none := by
  by_contra hsome
  obtain ⟨w, hw⟩ := Option.ne_none_iff_exists'.1 hsome
  -- more fuel does not change an answer, and with two more turns the inner loop has one
  have hlarge := alphaOf_mono (by omega : fuel ≤ fuel + 2) hw
  have hnone : alphaOf (fuel + 2) (c :: rest) 0 true = none := by
    refine run_eq_none (I := fun w => w.c = 0 ∧ w.slack = 0) (fun w hw => ?_) ⟨hb, rfl⟩ _
    obtain ⟨inBzp, _, _, alpha⟩ := w
    obtain ⟨rfl, rfl⟩ : _ = 0 ∧ _ = 0 := hw
    cases inBzp with
    | true =>
      refine ⟨⟨false, 0, 0, alpha⟩, ?_, rfl, rfl⟩
      simp only [walkTurn, List.getD_cons_zero, if_pos hp, if_true, busyTurn_zero hb hp fuel]
      rfl
    | false =>
      refine ⟨⟨true, 0, 0, if alpha < 0 then alpha else 0⟩, ?_, rfl, rfl⟩
      simp only [walkTurn, List.getD_cons_zero, if_pos hp, Bool.false_eq_true, if_false,
        idleDuration_zero hp]
      rfl
  rw [hnone] at hlarge
  cases hlarge

/-- So `sysclock` is never left, whatever else is on the list. -/
theorem sysclock_hangs (hb : c.budget = 0) (hp : 0 < c.period) (e : Env) {s : KState}
    (hsize : 0 < s.periodicTasksSize) (x : KState × ℕ) : sysclock e (c :: rest) s ≠ .ok x := by
  obtain ⟨n, hn⟩ : ∃ n, s.periodicTasksSize = n + 1 := ⟨s.periodicTasksSize - 1, by omega⟩
  have hnone : alphasFromBy (alphaOf e.fuel (c :: rest)) s.periodicTasksSize 0 true = none := by
    rw [hn, alphasFromBy, alphaOf_zero hb hp]
    rfl
  rw [sysclock_with, sysclockWith, if_neg (by omega), hnone]
  intro hok
  cases hok

/-- The idle period of its second turn has no length, and it divides by the time that has passed. -/
theorem walkDivisors_zero (hp : 0 < c.period) (alpha : ℤ) :
    0 ∈ walkDivisors (c :: rest) 0 ⟨false, 0, 0, alpha⟩ := by
  simp only [walkDivisors, List.getD_cons_zero, if_pos hp, Bool.false_eq_true, if_false,
    idleDuration_zero hp]
  exact List.mem_append_right _ (List.mem_singleton.2 rfl)

end Zero

/-- Any reservation with a period of at least a microsecond, any cancellation and any exit. -/
def TimedCall : Cmd → Prop
  | .setProcessBudget _ _ p => p.Normalised ∧ 1 ≤ convertToUsecs p
  | .cancelBudget _ => True
  | .exit _ _ => True
  | _ => False

end RtSched
