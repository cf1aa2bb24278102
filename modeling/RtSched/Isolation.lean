import RtSched.ClockRun

/-!
# Isolation without power management

With `power_scheme` 0 nobody scales a budget, except `sys_cancelBudget`: it calls `apply_sysclock`
with frequency 0 whatever the scheme, which writes to every task that is left the budget of the
lowest frequency of the table.  The other calls leave the others alone (`budgets_isolated_iff`).
-/

namespace RtSched

open Call

variable {e : Env} {s s' : KState} {list : List Tid} {t u : Tid}

/-- The task a call is about. -/
def KState.target (s : KState) : Cmd → Option Tid
  | .setProcessBudget pid _ _ | .cancelBudget pid => s.findTaskByVpid pid
  | .exit t _ => some t
  | _ => none

/-- Every other listed task has the enforced budget it had. -/
def Isolated (s s' : KState) (c : Cmd) : Prop :=
  ∀ list, OnList s list → ∀ u ∈ list, s.target c ≠ some u →
    (s'.task u).budgetTime = (s.task u).budgetTime

/-- The other listed tasks have the budget of the lowest frequency already. -/
def LowestBudgets (e : Env) (s : KState) (t : Tid) : Prop :=
  ∀ list, OnList s list → ∀ u ∈ list, u ≠ t →
    (s.task u).budgetTime =
      updatedBudget e.maxFreq (getTableFrequency e 0) (s.task u).minBudgetTime

/-- The calls after which the others have their budgets: all but cancellations, and those where
`apply_sysclock` writes what is there. -/
def KeepsBudgets (e : Env) (s : KState) : Cmd → Prop
  | .cancelBudget pid => 0 < pid → ∀ t, s.findTaskByVpid pid = some t → LowestBudgets e s t
  | _ => True

/-! ### One call -/

/-- Without power management a cancellation scales the tasks that are left. -/
theorem cancelReservation_noPm (h : Kept s list) (hmem : t ∈ list ∨ list = [])
    (hoff : s.isBinPackingSet = false) (hpow : s.powerScheme = .noPm) :
    Sat (fun s' => ∀ u ∈ list.erase t, (s'.task u).budgetTime =
        updatedBudget e.maxFreq (getTableFrequency e 0) (s.task u).minBudgetTime)
      (fun _ => True) (cancelReservation e t s) := by
  obtain ⟨s₁, hk, hu, hdef⟩ := cancelReservation_eq (e := e) h hmem hoff
  rw [hdef]
  refine sat_numbered hk fun r => ?_
  have hq := (numberTasks_update s₁ (list.erase t)).quiet_of_prio
  dsimp only
  rw [numberTasks_power, hu.step.power, hpow]
  refine Sat.bind ((applySysclock_sat (hk.numberTasks _) 0).mono (fun _ h => h)
    fun _ _ => trivial) ?_
  rintro ⟨s₂, f⟩ ⟨rfl, hr⟩ u hmem'
  rw [hr.budget u hmem']
  exact congrArg _ (Eq.trans (congrArg TaskReg.minBudgetTime (registry_task hq.registry u))
    (hu.minBudgetTime u))

/-- Outside bin-packing mode and without power management. -/
structure NoPmInv (s : KState) (list : List Tid) : Prop where
  kept : Kept s list
  binOff : s.isBinPackingSet = false
  noPm : s.powerScheme = .noPm

theorem NoPmInv.of_step {list' : List Tid} {s₁ : KState} (h : NoPmInv s list) (hk : Kept s₁ list')
    (hstep : ListStep s s₁) (hup : TaskUpdate ClockOnly (numberTasks s₁ list') s') :
    NoPmInv s' list' := by
  have hq := hup.quiet_of_numbered
  exact ⟨hk.of_quiet hq, ((registry_bin hq.registry).trans hstep.bin).trans h.binOff,
    ((registry_power hq.registry).trans hstep.power).trans h.noPm⟩

theorem NoPmInv.ended (h : NoPmInv s list) (he : Ended s s') : NoPmInv s' list :=
  ⟨he.kept h.kept, he.bin.trans h.binOff, he.power.trans h.noPm⟩

/-- Reservations, cancellations and exits that find the task on the list when the flag says so. -/
def NoPmOk (s : KState) : Cmd → Prop
  | .setProcessBudget pid budget p => GlobalOk s (.setProcessBudget pid budget p)
  | .cancelBudget pid => GlobalOk s (.cancelBudget pid)
  | .exit t autoreap => GlobalOk s (.exit t autoreap)
  | _ => False

theorem isolated_refl (s : KState) (c : Cmd) : Isolated s s c := fun _ _ _ _ _ => rfl

/-- One call: what it keeps, and when it leaves the others alone. -/
theorem exec_isolated (h : NoPmInv s list) {c : Cmd} (hok : NoPmOk s c) :
    Sat (fun x => (∃ list', NoPmInv x.1 list') ∧ (Isolated s x.1 c ↔ KeepsBudgets e s c))
      (fun _ => True) (exec e s c) := by
  have hk := h.kept
  cases c with
  | setProcessBudget pid budget p =>
    refine setProcessBudget_rule (Q := fun s' => (∃ list', NoPmInv s' list') ∧
      (Isolated s s' (.setProcessBudget pid budget p) ↔ True)) hk
      ⟨⟨list, h⟩, iff_of_true (isolated_refl s _) trivial⟩ fun t ht _ _ => ?_
    refine (setReservation_off hk (hok t ht list hk.onList) h.binOff budget _ p).mono ?_
      fun _ _ => trivial
    rintro s' ⟨s₁, hk₁, hr, hl⟩
    refine ⟨⟨_, h.of_step hk₁ hr.step hl.update⟩, iff_of_true (fun l hlist u hu hne => ?_) trivial⟩
    have hut : u ≠ t := by
      rintro rfl
      exact hne ht
    rw [(hl.noPm (hr.step.power.trans h.noPm)).2 u hut, hr.budget u hut]
  | cancelBudget pid =>
    refine sat_ite (fun hpid => ⟨⟨list, h⟩, ?_⟩) fun hpid => ?_
    · exact iff_of_true (isolated_refl s _) fun hpos => absurd hpos (not_lt.2 hpid)
    cases hf : s.findTaskByVpid pid with
    | none =>
      refine ⟨⟨list, h⟩, iff_of_true (isolated_refl s _) fun _ t ht => ?_⟩
      rw [hf] at ht
      cases ht
    | some t =>
      have hmem := hok t hf list hk.onList
      refine Sat.bind (((cancelReservation_off hk hmem h.binOff).and
        (cancelReservation_noPm hk hmem h.binOff h.noPm)).mono (fun _ h => h) fun _ _ => trivial) ?_
      rintro s' ⟨⟨s₁, hk₁, hu, hup, -, -⟩, hbudget⟩
      refine ⟨⟨_, h.of_step hk₁ hu.step hup⟩, ?_⟩
      -- what is left of the list has the lowest budgets now; had it them before?
      have hother : ∀ u ∈ list, u ≠ t → u ∈ list.erase t := fun u hu hne =>
        (List.mem_erase_of_ne hne).2 hu
      constructor
      · intro hiso _ t' ht' l hl u hu hne
        obtain rfl : t = t' := Option.some.inj (hf.symm.trans ht')
        obtain rfl := hl.unique hk.onList
        rw [← hbudget u (hother u hu hne)]
        refine (hiso l hl u hu fun htarget => hne ?_).symm
        exact (Option.some.inj (hf.symm.trans htarget)).symm
      · intro hlow l hl u hu hne
        have hut : u ≠ t := by
          rintro rfl
          exact hne hf
        obtain rfl := hl.unique hk.onList
        rw [hlow (not_le.1 hpid) t hf l hl u hu hut]
        exact hbudget u (hother u hu hut)
  | exit t autoreap =>
    refine doExit_ended (Q := fun s' => (∃ list', NoPmInv s' list') ∧
      (Isolated s s' (.exit t autoreap) ↔ True)) (fun s' he => ?_) fun hf hlead => ?_
    · refine ⟨⟨_, h.ended he⟩, iff_of_true (fun _ _ u _ _ => ?_) trivial⟩
      exact he.budgetTime u
    · refine (exitReservation_off hk (hok hf hlead list hk.onList) h.binOff hlead).mono ?_
        fun _ _ => trivial
      rintro s' ⟨s₁, hk₁, hd, hup, -, hbudget⟩
      have he := ended_finishExit t autoreap s'
      refine ⟨⟨_, (h.of_step hk₁ hd.step hup).ended he⟩, iff_of_true (fun _ _ u _ _ => ?_) trivial⟩
      rw [he.budgetTime]
      exact hbudget (by rw [h.noPm]; decide) u
  | _ => exact hok.elim

/-! ### Runs -/

/-- A system that has just started, without power management. -/
def BootedNoPm (s : KState) : Prop := Booted s ∧ s.powerScheme = .noPm

/-- **Isolation without power management.**  In every run of reservations, cancellations and exits a
call leaves the enforced budgets of the other listed tasks alone, unless it is a cancellation and one
of them has not the budget of the lowest frequency of the table. -/
theorem budgets_isolated_iff (e : Env) {s s' : KState} {c : Cmd} {r : ℤ}
    (h : Reach BootedNoPm NoPmOk (exec e) s) (hok : NoPmOk s c) (hexec : exec e s c = .ok (s', r)) :
    Isolated s s' c ↔ KeepsBudgets e s c := by
  obtain ⟨list, hinv⟩ := h.inv (I := fun s => ∃ list, NoPmInv s list)
    (fun s hs => ⟨[], kept_booted hs.1, hs.1.binOff, hs.2⟩)
    fun s c hs hok => by
      obtain ⟨list, hs⟩ := hs
      exact (exec_isolated (e := e) hs hok).mono (fun _ h => h.1) fun _ h => h
  exact (sat_of_eq (exec_isolated hinv hok) hexec).2

/-- Two tasks of 100 ms in 1 s.  When the second is cancelled, the first is scaled to the lowest
frequency; the second reserves again and is cancelled again, and this time the first keeps its
budget. -/
theorem budgets_isolated_iff_second :
    ∃ s s' r, Reach BootedNoPm NoPmOk (exec twoSpeeds) s ∧ OnList s [1, 2] ∧
      exec twoSpeeds s (.cancelBudget 2) = .ok (s', r) ∧ OnList s' [1] ∧
      Isolated s s' (.cancelBudget 2) := by
  have hboot : BootedNoPm (bootState [1, 2] .noPm) := ⟨booted_bootState [1, 2] .noPm, rfl⟩
  obtain ⟨w, hw, hlist₁, hflag₁, hfind₁, htest⟩ : ∃ w, exec twoSpeeds (bootState [1, 2] .noPm)
      (.setProcessBudget 1 100000000 ⟨1, 0⟩) = .ok w ∧ OnList w.1 [1] ∧
      (w.1.task 2).isBudgetSet = false ∧ w.1.findTaskByVpid 2 = some 2 ∧
      (exec twoSpeeds w.1 (.setProcessBudget 2 100000000 ⟨1, 0⟩)).test (fun x => decide
        (OnList x.1 [1, 2] ∧ x.1.findTaskByVpid 2 = some 2 ∧
        (exec twoSpeeds x.1 (.cancelBudget 2)).test (fun y => decide
          (OnList y.1 [1] ∧ (y.1.task 2).isBudgetSet = false ∧ y.1.findTaskByVpid 2 = some 2 ∧
          (exec twoSpeeds y.1 (.setProcessBudget 2 100000000 ⟨1, 0⟩)).test (fun z => decide
            (OnList z.1 [1, 2] ∧ z.1.findTaskByVpid 2 = some 2 ∧
            (z.1.task 1).budgetTime = updatedBudget twoSpeeds.maxFreq
              (getTableFrequency twoSpeeds 0) (z.1.task 1).minBudgetTime ∧
            (exec twoSpeeds z.1 (.cancelBudget 2)).test (fun v => decide (OnList v.1 [1]))
              = true)) = true)) = true)) = true :=
    exists_ok_of_test (by decide +kernel)
  obtain ⟨x, hx, hlist₂, hfind₂, htest⟩ := exists_ok_of_test htest
  obtain ⟨y, hy, hlist₃, hflag₃, hfind₃, htest⟩ := exists_ok_of_test htest
  obtain ⟨z, hz, hlist₄, hfind₄, hlowest, htest⟩ := exists_ok_of_test htest
  obtain ⟨v, hv, hlist₅⟩ := exists_ok_of_test htest
  -- the second task reserves off the list `[1]` and is cancelled on the list `[1, 2]`, both twice
  have hset : ∀ {s : KState}, OnList s [1] → (s.task 2).isBudgetSet = false →
      s.findTaskByVpid 2 = some 2 → NoPmOk s (.setProcessBudget 2 100000000 ⟨1, 0⟩) :=
    fun hlist hflag hfind => hlist.setOk_found hfind (by decide) hflag
  have hcancel : ∀ {s : KState}, OnList s [1, 2] → s.findTaskByVpid 2 = some 2 →
      NoPmOk s (.cancelBudget 2) := by
    intro s hlist hfind t ht list hl
    obtain rfl : 2 = t := Option.some.inj (hfind.symm.trans ht)
    rw [hl.unique hlist]
    exact Or.inl (by decide)
  have hkeeps : KeepsBudgets twoSpeeds z.1 (.cancelBudget 2) := by
    intro _ t ht list hl u hu hne
    obtain rfl : 2 = t := Option.some.inj (hfind₄.symm.trans ht)
    rw [hl.unique hlist₄] at hu
    rcases List.mem_pair.1 hu with rfl | rfl
    · exact hlowest
    · exact absurd rfl hne
  have hok : NoPmOk (bootState [1, 2] .noPm) (.setProcessBudget 1 100000000 ⟨1, 0⟩) :=
    fun _ _ _ hl => (kept_booted hboot.1).onList.setOk_nil hl
  have hreach := ((((Reach.start hboot).step hok hw).step (hset hlist₁ hflag₁ hfind₁) hx).step
    (hcancel hlist₂ hfind₂) hy).step (hset hlist₃ hflag₃ hfind₃) hz
  exact ⟨z.1, v.1, v.2, hreach, hlist₄, hv, hlist₅,
    (budgets_isolated_iff twoSpeeds hreach (hcancel hlist₄ hfind₄) hv).2 hkeeps⟩

/-- Two tasks of 100 ms in 1 s; when the second is cancelled, the first gets 200 ms. -/
theorem budgets_not_isolated :
    ¬ ∀ e s c s' r, Reach BootedNoPm ClockCall (exec e) s → ClockCall s c →
      exec e s c = .ok (s', r) → Isolated s s' c := by
  intro h
  obtain ⟨x, hx, htest⟩ : ∃ x, exec twoSpeeds (bootState [1, 2] .noPm)
      (.setProcessBudget 1 100000000 ⟨1, 0⟩) = .ok x ∧
      (exec twoSpeeds x.1 (.setProcessBudget 2 100000000 ⟨1, 0⟩)).test (fun y => decide (
        OnList y.1 [1, 2] ∧ y.1.findTaskByVpid 2 = some 2 ∧
        (exec twoSpeeds y.1 (.cancelBudget 2)).test (fun z => decide
          ((z.1.task 1).budgetTime ≠ (y.1.task 1).budgetTime)) = true)) = true :=
    exists_ok_of_test (by decide)
  obtain ⟨y, hy, hlist, hfind, htest⟩ := exists_ok_of_test htest
  obtain ⟨z, hz, hne⟩ := exists_ok_of_test htest
  have hok : ClockCall y.1 (.cancelBudget 2) := by
    intro t ht
    obtain rfl : 2 = t := Option.some.inj (hfind.symm.trans ht)
    exact ⟨[1, 2], hlist, by decide⟩
  have hreach : Reach BootedNoPm ClockCall (exec twoSpeeds) y.1 := by
    refine Reach.step (Reach.step (.start ⟨booted_bootState [1, 2] .noPm, rfl⟩) ?_ hx) ?_ hy
    all_goals exact trivial
  refine hne (h twoSpeeds y.1 _ z.1 z.2 hreach hok hz [1, 2] hlist 1 (by decide) ?_)
  rw [KState.target, hfind]
  decide

end RtSched
