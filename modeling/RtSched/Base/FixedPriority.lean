import RtSched.Base.Demand

/-!
# Fixed priorities on one processor

Tasks of an arbitrary type have a budget each, which is filled up from time to time; a filled task
is awake until it is put to sleep.  The processor works on the task that is awake with the smallest
priority value.  Nothing is said of when the fillings happen, except that those of one task are at
least its period apart, and a task may be put to sleep before its budget is used up.

* `Ledger`: who is awake, what is left of the budgets, and when they were last filled;
* `Step`: the processor works or idles, a budget is filled, a task is put to sleep;
* `Busy`: since `start` the processor has worked on the tasks `L` only;
* `windowed_step`: every step keeps such an account, for the tasks up to some priority value;
* `Windowed.asleep`: if the demand of `L` leaves a rest of `t`, a task of `L` is asleep `t` after it
  was filled.
-/

namespace FixedPriority

open TimeDemand

variable {α : Type*}

/-- The budgets at an instant. -/
@[ext]
structure Ledger (α : Type*) where
  now : ℤ
  awake : α → Prop
  left : α → ℤ
  /-- when the budget was last filled -/
  last : α → ℤ

variable {cost period prio : α → ℤ} {tasks L : Finset α} {s s' : Ledger α} {a : α}

/-- A task has at least nothing left, and was filled in the past. -/
structure Ledger.Wf (tasks : Finset α) (s : Ledger α) : Prop where
  nonneg : ∀ a ∈ tasks, 0 ≤ s.left a
  last_le : ∀ a ∈ tasks, s.last a ≤ s.now

/-! ### Busy windows -/

/-- The processor has worked on `L` without a break since `start`; each task of `L` has been filled
`jobs` times since then. -/
structure Busy (cost period : α → ℤ) (L : Finset α) (s : Ledger α) (start : ℤ) (jobs : α → ℕ) :
    Prop where
  start_le : start ≤ s.now
  /-- all the time has gone into the work that was released -/
  work : ∑ a ∈ L, s.left a + (s.now - start) ≤ ∑ a ∈ L, (jobs a : ℤ) * cost a
  fills : ∀ a ∈ L, 0 < jobs a → start + ((jobs a : ℤ) - 1) * period a ≤ s.last a
  unfilled : ∀ a ∈ L, jobs a = 0 → ¬ s.awake a
  /-- at every instant there had been work for all the time up to then -/
  filled : ∀ t, start < t → t ≤ s.now → t - start ≤ demand cost period L.val (t - start)

/-- No task of `L` is awake, or a busy window is under way. -/
def Windowed (cost period : α → ℤ) (L : Finset α) (s : Ledger α) : Prop :=
  (∀ a ∈ L, ¬ s.awake a) ∨ ∃ start jobs, Busy cost period L s start jobs

/-- A task is asleep when the tasks before it have left a rest of the time since it was filled. -/
theorem Windowed.asleep (h : Windowed cost period L s) (ha : a ∈ L) {t : ℤ} (ht : 0 < t)
    (hfit : demand cost period L.val t < t) (hlast : s.last a + t ≤ s.now) (hp : 0 < period a) :
    ¬ s.awake a := by
  rcases h with hidle | ⟨start, jobs, hbusy⟩
  · exact hidle a ha
  · rcases Nat.eq_zero_or_pos (jobs a) with hnone | hsome
    · exact hbusy.unfilled a ha hnone
    · -- the window began before the budget was filled, so it has lasted for `t`
      have hfill := hbusy.fills a ha hsome
      have hjobs : 0 ≤ ((jobs a : ℤ) - 1) * period a := mul_nonneg (by omega) hp.le
      have hfilled := hbusy.filled (start + t) (by omega) (by omega)
      rw [add_sub_cancel_left] at hfilled
      omega

/-- Filled at least a period apart, a task has been filled at most so often. -/
theorem Busy.jobs_le {start : ℤ} {jobs : α → ℕ} (h : Busy cost period L s start jobs) (ha : a ∈ L)
    (hlast : s.last a ≤ s.now) (hp : 0 < period a) {t : ℤ} (ht : s.now < t) :
    (jobs a : ℤ) ≤ ⌈((t - start : ℤ) : ℚ) / period a⌉ := by
  rcases Nat.eq_zero_or_pos (jobs a) with hnone | hsome
  · rw [hnone]
    have := one_le_ceil (t := t - start) (by have := h.start_le; omega) hp
    push_cast at this ⊢
    omega
  · have hfill := h.fills a ha hsome
    have hlt : ((jobs a : ℤ) - 1) * period a < t - start := by omega
    refine Int.le_ceil_iff.2 ?_
    rw [lt_div_iff₀ (by exact_mod_cast hp)]
    exact_mod_cast hlt

/-- While there is work left, the demand covers the time. -/
theorem Busy.le_demand {start : ℤ} {jobs : α → ℕ} (h : Busy cost period L s start jobs)
    (hlast : ∀ a ∈ L, s.last a ≤ s.now) (hp : ∀ a ∈ L, 0 < period a) (hc : ∀ a ∈ L, 0 ≤ cost a)
    {t : ℤ} (ht : s.now < t) (hleft : t - s.now ≤ ∑ a ∈ L, s.left a) :
    t - start ≤ demand cost period L.val (t - start) := by
  have hreleased : ∑ a ∈ L, (jobs a : ℤ) * cost a ≤ demand cost period L.val (t - start) := by
    refine Finset.sum_le_sum fun a ha => ?_
    exact mul_le_mul_of_nonneg_right (h.jobs_le ha (hlast a ha) (hp a ha) ht) (hc a ha)
  have hwork := h.work
  omega

/-- What happens to the other tasks does not matter. -/
theorem Windowed.congr (h : Windowed cost period L s) (hnow : s'.now = s.now)
    (hawake : ∀ a ∈ L, s'.awake a ↔ s.awake a) (hleft : ∀ a ∈ L, s'.left a = s.left a)
    (hlast : ∀ a ∈ L, s'.last a = s.last a) : Windowed cost period L s' := by
  rcases h with hidle | ⟨start, jobs, h⟩
  · exact Or.inl fun a ha hawake' => hidle a ha ((hawake a ha).1 hawake')
  · refine Or.inr ⟨start, jobs, ?_, ?_, fun a ha hjob => ?_, fun a ha hnone hawake' => ?_, ?_⟩
    · rw [hnow]
      exact h.start_le
    · rw [hnow, Finset.sum_congr rfl hleft]
      exact h.work
    · rw [hlast a ha]
      exact h.fills a ha hjob
    · exact h.unfilled a ha hnone ((hawake a ha).1 hawake')
    · rw [hnow]
      exact h.filled

/-- A window begins when all budgets have just been filled. -/
theorem windowed_critical (hleft : ∀ a ∈ L, s.left a ≤ cost a) (hlast : ∀ a ∈ L, s.now ≤ s.last a) :
    Windowed cost period L s := by
  refine Or.inr ⟨s.now, fun _ => 1, le_rfl, ?_, fun a ha _ => ?_, fun a _ hnone => ?_,
    fun t ht hle => absurd ht (not_lt.2 hle)⟩
  · rw [sub_self, add_zero]
    refine Finset.sum_le_sum fun a ha => ?_
    rw [Nat.cast_one, one_mul]
    exact hleft a ha
  · rw [Nat.cast_one, sub_self, zero_mul, add_zero]
    exact hlast a ha
  · cases hnone

/-! ### Steps -/

variable [DecidableEq α]

/-- What can happen to the budgets. -/
inductive Step (cost period prio : α → ℤ) (tasks : Finset α) (s : Ledger α) : Ledger α → Prop
  /-- nothing is to be done for `d` -/
  | idle (d : ℕ) (hidle : ∀ a ∈ tasks, ¬ s.awake a) :
      Step cost period prio tasks s { s with now := s.now + d }
  /-- the processor works on `x` for `d` -/
  | work (x : α) (d : ℕ) (hx : x ∈ tasks) (hd : (d : ℤ) ≤ s.left x)
      (hbest : ∀ a ∈ tasks, s.awake a → prio x ≤ prio a) :
      Step cost period prio tasks s
        { s with now := s.now + d, left := Function.update s.left x (s.left x - d) }
  /-- the budget of `x` is filled -/
  | fill (x : α) (hx : x ∈ tasks) (hdue : s.last x + period x ≤ s.now) :
      Step cost period prio tasks s { s with
        awake := Function.update s.awake x True
        left := Function.update s.left x (cost x)
        last := Function.update s.last x s.now }
  /-- `x` is put to sleep, and gives up what it has left -/
  | sleep (x : α) (hx : x ∈ tasks) :
      Step cost period prio tasks s { s with
        awake := Function.update s.awake x False
        left := Function.update s.left x 0 }

theorem sum_update (left : α → ℤ) {x : α} (hx : x ∈ L) (v : ℤ) :
    ∑ a ∈ L, Function.update left x v a = ∑ a ∈ L, left a - left x + v := by
  have hrest := Finset.sum_update_of_mem hx left v
  have hall := Finset.add_sum_erase L left hx
  rw [Finset.sdiff_singleton_eq_erase] at hrest
  omega

section Step

variable {start : ℤ} {jobs : α → ℕ} {x : α}

/-- The processor works on a task of `L`. -/
theorem Busy.work_step (h : Busy cost period L s start jobs) (hw : s.Wf L)
    (hp : ∀ a ∈ L, 0 < period a) (hc : ∀ a ∈ L, 0 ≤ cost a) {d : ℕ} (hx : x ∈ L)
    (hd : (d : ℤ) ≤ s.left x) : Busy cost period L
      { s with now := s.now + d, left := Function.update s.left x (s.left x - d) } start jobs := by
  have hsum := sum_update s.left hx (s.left x - d)
  have hwork := h.work
  have hstart := h.start_le
  refine ⟨?_, ?_, h.fills, h.unfilled, fun t ht hle => ?_⟩
  · show start ≤ s.now + d
    omega
  · show ∑ a ∈ L, Function.update s.left x (s.left x - d) a + (s.now + d - start) ≤ _
    omega
  · rcases le_or_gt t s.now with hold | hnew
    · exact h.filled t ht hold
    · have hle' : t ≤ s.now + d := hle
      have hsingle : s.left x ≤ ∑ a ∈ L, s.left a := Finset.single_le_sum hw.nonneg hx
      exact h.le_demand hw.last_le hp hc hnew (by omega)

/-- A window begins with a budget that is filled. -/
theorem busy_start (hidle : ∀ a ∈ L, ¬ s.awake a) (hleft : ∀ a ∈ L, ¬ s.awake a → s.left a = 0)
    (hx : x ∈ L) : Busy cost period L { s with
      awake := Function.update s.awake x True
      left := Function.update s.left x (cost x)
      last := Function.update s.last x s.now } s.now fun a => if a = x then 1 else 0 := by
  refine ⟨le_rfl, ?_, fun a _ hjob => ?_, fun a ha hnone => ?_, fun t ht hle => ?_⟩
  · have hzero : ∑ a ∈ L, s.left a = 0 :=
      Finset.sum_eq_zero fun a ha => hleft a ha (hidle a ha)
    have hone : ∑ a ∈ L, ((if a = x then 1 else 0 : ℕ) : ℤ) * cost a = cost x := by simp [hx]
    have hx0 := hleft x hx (hidle x hx)
    show ∑ a ∈ L, Function.update s.left x (cost x) a + (s.now - s.now) ≤ _
    rw [hone, sum_update s.left hx, hzero]
    omega
  · have hax : a = x := by
      by_contra hne
      simp [hne] at hjob
    subst hax
    simp
  · have hax : a ≠ x := by
      rintro rfl
      simp at hnone
    show ¬ Function.update s.awake x True a
    rw [Function.update_of_ne hax]
    exact hidle a ha
  · have hle' : t ≤ s.now := hle
    omega

theorem sum_jobs_update (jobs : α → ℕ) (hx : x ∈ L) :
    ∑ a ∈ L, (Function.update jobs x (jobs x + 1) a : ℤ) * cost a =
      ∑ a ∈ L, (jobs a : ℤ) * cost a + cost x := by
  have hcongr : ∀ a ∈ L, (Function.update jobs x (jobs x + 1) a : ℤ) * cost a =
      (jobs a : ℤ) * cost a + if a = x then cost a else 0 := by
    intro a _
    rw [Function.update_apply]
    split_ifs with hax
    · subst hax
      push_cast
      ring
    · ring
  rw [Finset.sum_congr rfl hcongr, Finset.sum_add_distrib, Finset.sum_ite_eq' L x cost, if_pos hx]

/-- A budget of `L` is filled. -/
theorem Busy.fill_step (h : Busy cost period L s start jobs) (hw : s.Wf L) (hx : x ∈ L)
    (hdue : s.last x + period x ≤ s.now) : Busy cost period L { s with
      awake := Function.update s.awake x True
      left := Function.update s.left x (cost x)
      last := Function.update s.last x s.now } start (Function.update jobs x (jobs x + 1)) := by
  refine ⟨h.start_le, ?_, fun a ha hjob => ?_, fun a ha hnone => ?_, h.filled⟩
  · have hsum := sum_update s.left hx (cost x)
    have hx0 := hw.nonneg x hx
    have hwork := h.work
    show ∑ a ∈ L, Function.update s.left x (cost x) a + (s.now - start) ≤ _
    rw [sum_jobs_update jobs hx]
    omega
  · show start + ((Function.update jobs x (jobs x + 1) a : ℕ) - 1 : ℤ) * period a ≤
      Function.update s.last x s.now a
    by_cases hax : a = x
    · subst hax
      rw [Function.update_self, Function.update_self]
      push_cast
      rcases Nat.eq_zero_or_pos (jobs a) with hnone | hsome
      · have hstart := h.start_le
        rw [hnone]
        push_cast
        omega
      · have hfill := h.fills a ha hsome
        have hnext : ((jobs a : ℤ) + 1 - 1) * period a =
            ((jobs a : ℤ) - 1) * period a + period a := by ring
        omega
    · rw [Function.update_of_ne hax, Function.update_of_ne hax]
      rw [Function.update_of_ne hax] at hjob
      exact h.fills a ha hjob
  · have hax : a ≠ x := by
      rintro rfl
      rw [Function.update_self] at hnone
      omega
    rw [Function.update_of_ne hax] at hnone
    show ¬ Function.update s.awake x True a
    rw [Function.update_of_ne hax]
    exact h.unfilled a ha hnone

/-- A task of `L` is put to sleep. -/
theorem Busy.sleep_step (h : Busy cost period L s start jobs) (hw : s.Wf L) (hx : x ∈ L) :
    Busy cost period L { s with
      awake := Function.update s.awake x False, left := Function.update s.left x 0 } start jobs := by
  refine ⟨h.start_le, ?_, h.fills, fun a ha hnone => ?_, h.filled⟩
  · have hsum := sum_update s.left hx 0
    have hwork := h.work
    have hx0 := hw.nonneg x hx
    show ∑ a ∈ L, Function.update s.left x 0 a + (s.now - start) ≤ _
    omega
  · show ¬ Function.update s.awake x False a
    rw [Function.update_apply]
    split_ifs
    · exact not_false
    · exact h.unfilled a ha hnone

end Step

/-- Every step keeps the account of the tasks up to a priority value. -/
theorem windowed_step (hw : s.Wf tasks) (hleft : ∀ a ∈ tasks, ¬ s.awake a → s.left a = 0)
    (hp : ∀ a ∈ tasks, 0 < period a) (hc : ∀ a ∈ tasks, 0 ≤ cost a) (v : ℤ)
    (hstep : Step cost period prio tasks s s')
    (h : Windowed cost period (tasks.filter fun a => prio a ≤ v) s) :
    Windowed cost period (tasks.filter fun a => prio a ≤ v) s' := by
  have hsub : ∀ a ∈ tasks.filter (fun a => prio a ≤ v), a ∈ tasks := fun a ha =>
    (Finset.mem_filter.1 ha).1
  have hwL : s.Wf (tasks.filter fun a => prio a ≤ v) :=
    ⟨fun a ha => hw.nonneg a (hsub a ha), fun a ha => hw.last_le a (hsub a ha)⟩
  -- a task that is not in `L` is not one of those that change
  have hne : ∀ x a, ¬ prio x ≤ v → a ∈ tasks.filter (fun a => prio a ≤ v) → a ≠ x := by
    rintro x a hxv ha rfl
    exact hxv (Finset.mem_filter.1 ha).2
  cases hstep with
  | idle d hidle => exact Or.inl fun a ha => hidle a (hsub a ha)
  | work x d hx hd hbest =>
    rcases h with hidle | ⟨start, jobs, hbusy⟩
    · exact Or.inl hidle
    · by_cases hxv : prio x ≤ v
      · exact Or.inr ⟨start, jobs, hbusy.work_step hwL (fun a ha => hp a (hsub a ha))
          (fun a ha => hc a (hsub a ha)) (Finset.mem_filter.2 ⟨hx, hxv⟩) hd⟩
      · -- a task below works, so those of `L` are asleep
        refine Or.inl fun a ha hawake => hxv ?_
        exact (hbest a (hsub a ha) hawake).trans (Finset.mem_filter.1 ha).2
  | fill x hx hdue =>
    by_cases hxv : prio x ≤ v
    · have hxL : x ∈ tasks.filter fun a => prio a ≤ v := Finset.mem_filter.2 ⟨hx, hxv⟩
      rcases h with hidle | ⟨start, jobs, hbusy⟩
      · exact Or.inr ⟨_, _, busy_start hidle (fun a ha => hleft a (hsub a ha)) hxL⟩
      · exact Or.inr ⟨_, _, hbusy.fill_step hwL hxL hdue⟩
    · refine h.congr rfl (fun a ha => ?_) (fun a ha => ?_) fun a ha => ?_
      · show Function.update s.awake x True a ↔ s.awake a
        rw [Function.update_of_ne (hne x a hxv ha)]
      · exact Function.update_of_ne (hne x a hxv ha) _ _
      · exact Function.update_of_ne (hne x a hxv ha) _ _
  | sleep x hx =>
    by_cases hxv : prio x ≤ v
    · rcases h with hidle | ⟨start, jobs, hbusy⟩
      · refine Or.inl fun a ha => ?_
        show ¬ Function.update s.awake x False a
        rw [Function.update_apply]
        split_ifs
        · exact not_false
        · exact hidle a ha
      · exact Or.inr ⟨_, _, hbusy.sleep_step hwL (Finset.mem_filter.2 ⟨hx, hxv⟩)⟩
    · refine h.congr rfl (fun a ha => ?_) (fun a ha => ?_) fun a _ => rfl
      · show Function.update s.awake x False a ↔ s.awake a
        rw [Function.update_of_ne (hne x a hxv ha)]
      · exact Function.update_of_ne (hne x a hxv ha) _ _

end FixedPriority
