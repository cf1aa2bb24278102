import RtSched.Leader
import RtSched.ListInvariant

/-!
# Budgets and frequencies over whole runs

Every reservation is stretched to the frequency its task runs at.  `sys_setProcessBudget` does this
for the whole list under both schemes, and so do all calls under SysClock.  Under PM-Clock
`sys_cancelBudget` stretches the budgets to the frequency of `sysclock` instead, and `do_exit` only
computes new frequencies: the budgets of the tasks that are left are wrong until the next
reservation (`clock_incoherent`), unless none is left (`clock_coherent`).
-/

namespace RtSched

open Call

variable {e : Env} {s s' : KState} {list : List Tid} {t u : Tid}

/-- The frequency the task runs at: its own under PM-Clock, else the one `apply_sysclock` returned
last. -/
def runFreq (s : KState) (t : Tid) : ℕ :=
  if s.powerScheme = .pmClock then (s.task t).pmclockFreq else s.cpuFreq

/-- The task has its reserved cycles at the frequency it runs at. -/
def Stretched (e : Env) (s : KState) (t : Tid) : Prop :=
  timespecToNs (s.task t).budgetTime =
    timespecToNs (s.task t).minBudgetTime * e.maxFreq / (runFreq s t : ℕ)

instance (e : Env) (s : KState) (t : Tid) : Decidable (Stretched e s t) := by
  unfold Stretched
  infer_instance

/-- Every task of the list has its reserved cycles. -/
def ClockCoherent (e : Env) (s : KState) : Prop :=
  ∃ list, OnList s list ∧ ∀ t ∈ list, Stretched e s t

/-! ### The invariant -/

/-- Outside bin-packing mode and under a power scheme, every listed task is stretched. -/
structure ClockInv (e : Env) (s : KState) (list : List Tid) : Prop where
  kept : Kept s list
  binOff : s.isBinPackingSet = false
  power : s.powerScheme ≠ .noPm
  stretched : ∀ t ∈ list, Stretched e s t

theorem SysCoherent.stretched (h : SysCoherent e s list) (hp : s.powerScheme = .sysClock) :
    ∀ t ∈ list, Stretched e s t := by
  intro t ht
  rw [Stretched, runFreq, if_neg (by rw [hp]; decide), h t ht, updatedBudget,
    timespecToNs_nsToTimespec]

theorem PmCoherent.stretched (h : PmCoherent e s list) (hp : s.powerScheme = .pmClock) :
    ∀ t ∈ list, Stretched e s t := by
  intro t ht
  rw [Stretched, runFreq, if_pos hp, h t ht, updatedBudget, timespecToNs_nsToTimespec]

/-- What `Stretched` depends on. -/
theorem Stretched.congr (h : Stretched e s t) (hpow : s'.powerScheme = s.powerScheme)
    (hcpu : s'.cpuFreq = s.cpuFreq)
    (htask : (s'.task t).budgetTime = (s.task t).budgetTime ∧
      (s'.task t).minBudgetTime = (s.task t).minBudgetTime ∧
      (s'.task t).pmclockFreq = (s.task t).pmclockFreq) : Stretched e s' t := by
  obtain ⟨hb, hm, hf⟩ := htask
  rw [Stretched, runFreq, hpow, hcpu, hb, hm, hf]
  exact h

/-- A call that has left the mode and the scheme alone, and has stretched the new list under the
scheme that is in force. -/
theorem ClockInv.next {s₁ : KState} {list' : List Tid} (h : ClockInv e s list)
    (hk : Kept s₁ list') (hstep : ListStep s s₁)
    (hup : TaskUpdate ClockOnly (numberTasks s₁ list') s')
    (hsys : s.powerScheme = .sysClock → SysCoherent e s' list')
    (hpm : s.powerScheme = .pmClock → PmCoherent e s' list') : ClockInv e s' list' := by
  have hq := hup.quiet_of_numbered
  have hpow : s'.powerScheme = s.powerScheme := (registry_power hq.registry).trans hstep.power
  have hbin : s'.isBinPackingSet = false :=
    ((congrArg Registry.isBinPackingSet hq.registry).trans hstep.bin).trans h.binOff
  refine ⟨hk.of_quiet hq, hbin, hpow ▸ h.power, ?_⟩
  cases hp : s.powerScheme with
  | noPm => exact absurd hp h.power
  | sysClock => exact (hsys hp).stretched (hpow.trans hp)
  | pmClock => exact (hpm hp).stretched (hpow.trans hp)

theorem ClockInv.ended (h : ClockInv e s list) (he : Ended s s') : ClockInv e s' list := by
  refine ⟨he.kept h.kept, he.bin.trans h.binOff, he.power ▸ h.power, fun u hu => ?_⟩
  exact (h.stretched u hu).congr he.power he.cpuFreq
    ⟨he.budgetTime u, he.minBudgetTime u, he.pmclockFreq u⟩

/-! ### Runs -/

/-- No other task is on the list. -/
def Alone (s : KState) (t : Tid) : Prop := ∀ u, Holds s u → u = t

theorem Alone.erase (h : Alone s t) (hk : Kept s list) : list.erase t = [] := by
  refine List.eq_nil_iff_forall_not_mem.2 fun u hu => ?_
  exact hk.ne_of_mem_erase hu (h u ⟨list, hk.onList, List.mem_of_mem_erase hu⟩)

/-- The calls that keep budgets and frequencies together: they insert and remove what the flag says
is there, and under PM-Clock only the last task is removed. -/
def ClockOk (s : KState) : Cmd → Prop
  | .setProcessBudget pid budget p => GlobalOk s (.setProcessBudget pid budget p)
  | .cancelBudget pid => GlobalOk s (.cancelBudget pid) ∧
      (s.powerScheme = .pmClock → ∀ t ∈ s.findTaskByVpid pid, Alone s t)
  | .exit t autoreap => GlobalOk s (.exit t autoreap) ∧
      (s.powerScheme = .pmClock → (s.task t).isBudgetSet = true → t = (s.task t).tgid → Alone s t)
  | _ => False

theorem exec_clockInv (h : ∃ list, ClockInv e s list) {c : Cmd} (hok : ClockOk s c) :
    Sat (fun x => ∃ list, ClockInv e x.1 list) (fun _ => True) (exec e s c) := by
  obtain ⟨list, h⟩ := h
  have hk := h.kept
  cases c with
  | setProcessBudget pid budget p =>
    refine setProcessBudget_rule (Q := fun s' => ∃ list, ClockInv e s' list) hk ⟨list, h⟩
      fun t ht _ _ => ?_
    refine (setReservation_off hk (hok t ht list hk.onList) h.binOff budget _ p).mono ?_
      fun _ _ => trivial
    rintro s' ⟨s₁, hk₁, hr, hl⟩
    exact ⟨_, h.next hk₁ hr.step hl.update (fun hp => hl.sysClock (hr.step.power.trans hp))
      fun hp => hl.pmClock (hr.step.power.trans hp)⟩
  | cancelBudget pid =>
    obtain ⟨hmem, halone⟩ := hok
    refine cancelBudget_rule (Q := fun s' => ∃ list, ClockInv e s' list) ⟨list, h⟩ fun t ht => ?_
    refine (cancelReservation_off hk (hmem t ht list hk.onList) h.binOff).mono ?_ fun _ _ => trivial
    rintro s' ⟨s₁, hk₁, hu, hup, -, hsys⟩
    refine ⟨_, h.next hk₁ hu.step hup hsys fun hp => ?_⟩
    -- the budgets are those of `sysclock`, but nobody is left to have one
    rw [(halone hp t ht).erase hk]
    exact fun u hu => absurd hu List.not_mem_nil
  | exit t autoreap =>
    obtain ⟨hmem, halone⟩ := hok
    refine doExit_ended (Q := fun s' => ∃ list, ClockInv e s' list)
      (fun s' he => ⟨list, h.ended he⟩) fun hf hlead => ?_
    refine (exitReservation_off hk (hmem hf hlead list hk.onList) h.binOff hlead).mono ?_
      fun _ _ => trivial
    rintro s' ⟨s₁, hk₁, hd, hup, hsys, -⟩
    refine ⟨_, ClockInv.ended (h.next hk₁ hd.step hup hsys fun hp => ?_)
      (ended_finishExit t autoreap s')⟩
    rw [(halone hp hf hlead).erase hk]
    exact fun u hu => absurd hu List.not_mem_nil
  | _ => exact hok.elim

/-- A system that has just started, under SysClock or PM-Clock. -/
def BootedPm (s : KState) : Prop := Booted s ∧ s.powerScheme ≠ .noPm

/-- **Budget and clock stay coherent.**  Under SysClock in every run, and under PM-Clock in every
run that removes no task while another is left, each listed task has its reserved cycles at the
frequency it runs at. -/
theorem clock_coherent (e : Env) {s : KState} (h : Reach BootedPm ClockOk (exec e) s) :
    ClockCoherent e s := by
  obtain ⟨list, hinv⟩ := h.inv (I := fun s => ∃ list, ClockInv e s list)
    (fun s hs => ⟨[], kept_booted hs.1, hs.1.binOff, hs.2, by simp⟩)
    fun _ _ hs hok => exec_clockInv hs hok
  exact ⟨list, hinv.kept.onList, hinv.stretched⟩

theorem clock_coherent_pair :
    ∃ s, Reach BootedPm ClockOk (exec twoSpeeds) s ∧ OnList s [1, 2] ∧
      ClockCoherent twoSpeeds s := by
  have hboot : BootedPm (bootState [1, 2] .pmClock) := ⟨booted_bootState [1, 2] .pmClock, by decide⟩
  have hok : ClockOk (bootState [1, 2] .pmClock) (.setProcessBudget 1 100000000 ⟨1, 0⟩) :=
    fun _ _ _ hl => (kept_booted hboot.1).onList.setOk_nil hl
  obtain ⟨x, hx, hlist, hflag, hfind, htest⟩ : ∃ x, exec twoSpeeds (bootState [1, 2] .pmClock)
      (.setProcessBudget 1 100000000 ⟨1, 0⟩) = .ok x ∧ OnList x.1 [1] ∧
      (x.1.task 2).isBudgetSet = false ∧ x.1.findTaskByVpid 2 = some 2 ∧
      (exec twoSpeeds x.1 (.setProcessBudget 2 900000000 ⟨2, 0⟩)).test
        (fun y => decide (OnList y.1 [1, 2])) = true :=
    exists_ok_of_test (by decide)
  have hok' : ClockOk x.1 (.setProcessBudget 2 900000000 ⟨2, 0⟩) :=
    hlist.setOk_found hfind (by decide) hflag
  obtain ⟨y, hy, hlist'⟩ := exists_ok_of_test htest
  have hreach := ((Reach.start hboot).step hok hx).step hok' hy
  exact ⟨y.1, hreach, hlist', clock_coherent twoSpeeds hreach⟩

/-- Reservations, cancellations of reserved tasks and exits of reserved leaders. -/
def ClockCall (s : KState) : Cmd → Prop
  | .setProcessBudget _ _ _ => True
  | .cancelBudget pid => ∀ t ∈ s.findTaskByVpid pid, Holds s t
  | .exit t _ => (s.task t).tgid = t ∧ Holds s t
  | _ => False

/-- The task that made 1 GHz necessary exits: the other one is to run at 500 MHz, with the budget of
1 GHz. -/
theorem clock_incoherent :
    ¬ ∀ e s, Reach BootedPm ClockCall (exec e) s → ClockCoherent e s := by
  intro h
  obtain ⟨x, hx, htest⟩ : ∃ x, exec twoSpeeds (bootState [1, 2] .pmClock)
      (.setProcessBudget 1 100000000 ⟨1, 0⟩) = .ok x ∧
      (exec twoSpeeds x.1 (.setProcessBudget 2 900000000 ⟨2, 0⟩)).test (fun y => decide (
        (y.1.task 2).tgid = 2 ∧ OnList y.1 [1, 2] ∧ (exec twoSpeeds y.1 (.exit 2 false)).test
          (fun z => decide (OnList z.1 [1] ∧ ¬ Stretched twoSpeeds z.1 1)) = true)) = true :=
    exists_ok_of_test (by decide)
  obtain ⟨y, hy, htgid, hlist, htest'⟩ := exists_ok_of_test htest
  obtain ⟨z, hz, hlist', hwrong⟩ := exists_ok_of_test htest'
  have hok : ClockCall y.1 (.exit 2 false) := ⟨htgid, [1, 2], hlist, by decide⟩
  have hreach : Reach BootedPm ClockCall (exec twoSpeeds) z.1 :=
    (((Reach.start ⟨booted_bootState [1, 2] .pmClock, by decide⟩).step trivial hx).step trivial
      hy).step hok hz
  obtain ⟨list, hl, hstretched⟩ := h twoSpeeds z.1 hreach
  rw [hl.unique hlist'] at hstretched
  exact hwrong (hstretched 1 List.mem_cons_self)

end RtSched
