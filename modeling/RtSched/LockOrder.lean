import RtSched.Base.Run
import RtSched.Base.SpinLock
import RtSched.HrTimer

/-!
# The spin locks of the reservations

`__schedule` has the lock of its runqueue when it takes the `task_spin_lock` of the processes it switches
between.  `period_timer_callback` takes the two in the other order: it has the `task_spin_lock` when it
wakes up the threads, and `try_to_wake_up` locks the runqueue of a thread that has not left it yet.  A
full log makes `__schedule` take `tasklist_lock` and wake up its reader, with its runqueue locked.

The model keeps of each activity the locks that it takes, in the order of the source; what it finds (who is
asleep and where, which log is full) is an argument of the activity.  A timer whose callback runs is
marked for `hrtimer_cancel`; the mark is set under the lock of the base, where no other CPU sets it, and
stands before that lock here.  Left out are the locks of signals and of the load balancing.

* `scheduleLocks`, `periodTimerCallbackLocks`, `logDataPointLocks`, `CallStep.locks`: the scripts;
* `LockRun`: the CPUs, which interrupts may come to;
* `period_deadlock`: `__schedule` and the period timer of another CPU never come out of each other's way;
* `full_log_hangs`: a full log whose reader is woken up on the same CPU stops that CPU;
* `deadlock_backward`: there is no other way to a deadlock.
-/

namespace RtSched

open Call SpinLock

/-- The locks, and the mark of a timer whose callback runs. -/
inductive LockName
  | tasklist
  | callback (x : TimerName)
  | pi (t : Tid)
  | rq (c : Fin maxCpu)
  | task (leader : Tid)
  | base (c : Fin maxCpu)
  deriving DecidableEq

/-- The order in which most of the code takes them. -/
def LockName.rank : LockName → ℕ
  | .tasklist => 0
  | .callback _ => 1
  | .pi _ => 2
  | .rq _ => 3
  | .task _ => 4
  | .base _ => 5

/-- The locks that nobody should take with a `task_spin_lock`. -/
def LockName.Outer : LockName → Prop
  | .tasklist => True
  | .pi _ => True
  | .rq _ => True
  | _ => False

/-! ### The scripts -/

/-- `__task_rq_lock`, or `raw_spin_lock(&rq->lock)` in `ttwu_queue`, once for each CPU of `cs`. -/
def rqLocks (cs : List (Fin maxCpu)) : List (LockOp LockName) :=
  cs.flatMap fun c => .acq (.rq c) :: [] ++ [.rel (.rq c)]

/-- The base of a timer, and the one it is moved to. -/
def baseLocks (cs : List (Fin maxCpu)) : List (LockOp LockName) :=
  cs.flatMap fun c => .acq (.base c) :: [] ++ [.rel (.base c)]

/-- `pi_lock`, and with it the runqueues of `cs`. -/
def taskRqLocks (t : Tid) (cs : List (Fin maxCpu)) : List (LockOp LockName) :=
  .acq (.pi t) :: rqLocks cs ++ [.rel (.pi t)]

/-- `try_to_wake_up`: nothing but `pi_lock` for a thread that is awake, or that is off the runqueues and
is left to an interrupt of its CPU.  Otherwise `cs` are the CPUs of `ttwu_remote`, `ttwu_activate_remote`
and, for the CPU itself, `ttwu_queue`. -/
def tryToWakeUpLocks (t : Tid) (cs : List (Fin maxCpu)) : List (LockOp LockName) := taskRqLocks t cs

/-- `spin_lock_irqsave(&leader->task_spin_lock)` around `s`. -/
def withTaskLock (leader : Tid) (s : List (LockOp LockName)) : List (LockOp LockName) :=
  .acq (.task leader) :: s ++ [.rel (.task leader)]

/-- `log_data_point`, with the reader that it sends the signal to if the log is full. -/
def logDataPointLocks : Option (Tid × List (Fin maxCpu)) → List (LockOp LockName)
  | none => []
  | some (reader, cs) => .acq .tasklist :: tryToWakeUpLocks reader cs ++ [.rel .tasklist]

/-- What `__schedule` finds in a thread that it switches from or to. -/
structure SwitchSide where
  leader : Tid
  isBudgetSet : Bool
  /-- the bases of the budget timer; none if it is not touched -/
  bases : List (Fin maxCpu)
  /-- nothing if no data point is taken -/
  log : Option (Option (Tid × List (Fin maxCpu)))

namespace SwitchSide

/-- The data point of the thread. -/
def logLocks (p : SwitchSide) : List (LockOp LockName) :=
  match p.log with
  | none => []
  | some full => withTaskLock p.leader (logDataPointLocks full)

/-- The budget of the thread. -/
def budgetLocks (p : SwitchSide) : List (LockOp LockName) :=
  if p.isBudgetSet then withTaskLock p.leader (baseLocks p.bases) else []

/-- The timestamp of the thread. -/
def stampLocks (p : SwitchSide) : List (LockOp LockName) :=
  if p.isBudgetSet = true ∨ p.log.isSome = true then withTaskLock p.leader [] else []

end SwitchSide

/-- `__schedule`, with the threads it switches between if it does. -/
def scheduleLocks (c : Fin maxCpu) (switch : Option (SwitchSide × SwitchSide)) : List (LockOp LockName) :=
  .acq (.rq c) ::
    (match switch with
      | none => []
      | some (prev, next) => prev.budgetLocks ++ (prev.logLocks ++ (next.stampLocks ++
          (next.budgetLocks ++ next.logLocks)))) ++
    [.rel (.rq c)]

/-- `budget_timer_callback` -/
def budgetTimerCallbackLocks (leader : Tid) : List (LockOp LockName) := withTaskLock leader []

/-- `period_timer_callback`, with the threads it wakes up. -/
def periodTimerCallbackLocks (leader : Tid) (wakes : List (Tid × List (Fin maxCpu))) :
    List (LockOp LockName) :=
  withTaskLock leader (wakes.flatMap fun w => tryToWakeUpLocks w.1 w.2)

/-- `__run_hrtimer` in `hrtimer_interrupt`. -/
def runHrtimerLocks (c : Fin maxCpu) (x : TimerName) (callback : List (LockOp LockName)) :
    List (LockOp LockName) :=
  [.acq (.callback x), .acq (.base c), .rel (.base c)] ++
    (callback ++ [.acq (.base c), .rel (.callback x), .rel (.base c)])

/-- What the system calls do under `tasklist_lock`. -/
inductive CallStep
  /-- `sched_setscheduler`, which ends with `rt_mutex_adjust_pi` -/
  | setScheduler (t : Tid) (c : Fin maxCpu)
  /-- `hrtimer_start` or `hrtimer_try_to_cancel` -/
  | timer (bases : List (Fin maxCpu))
  /-- `hrtimer_cancel` -/
  | cancel (x : TimerName) (bases : List (Fin maxCpu))
  /-- `wake_up_process`, in `sys_cancelBudget`, `sys_stopScheduling` and where new budgets are applied -/
  | wakeUp (t : Tid) (cs : List (Fin maxCpu))

def CallStep.locks : CallStep → List (LockOp LockName)
  | .setScheduler t c => taskRqLocks t [c] ++ taskRqLocks t []
  | .timer bases => baseLocks bases
  | .cancel x bases => .await (.callback x) :: baseLocks bases
  | .wakeUp t cs => tryToWakeUpLocks t cs

/-- `sys_setProcessBudget`, `sys_cancelBudget`, `sys_startScheduling`, `sys_stopScheduling`. -/
def systemCallLocks (steps : List CallStep) : List (LockOp LockName) :=
  .acq .tasklist :: steps.flatMap CallStep.locks ++ [.rel .tasklist]

/-- What a CPU does when it is not interrupted. -/
inductive Activity
  | schedule (switch : Option (SwitchSide × SwitchSide))
  | systemCall (steps : List CallStep)
  /-- `sys_setLogging` -/
  | setLogging (leader : Tid)
  | wakeUp (t : Tid) (cs : List (Fin maxCpu))

def Activity.locks (c : Fin maxCpu) : Activity → List (LockOp LockName)
  | .schedule switch => scheduleLocks c switch
  | .systemCall steps => systemCallLocks steps
  | .setLogging leader => withTaskLock leader []
  | .wakeUp t cs => tryToWakeUpLocks t cs

/-- What interrupts it. -/
inductive Interrupt
  | budgetTimer (t : Tid)
  | periodTimer (t : Tid) (wakes : List (Tid × List (Fin maxCpu)))
  /-- `sched_ttwu_do_pending` -/
  | wakePending
  | wakeUp (t : Tid) (cs : List (Fin maxCpu))

def Interrupt.locks (c : Fin maxCpu) : Interrupt → List (LockOp LockName)
  | .budgetTimer t => runHrtimerLocks c (.budget t) (budgetTimerCallbackLocks t)
  | .periodTimer t wakes => runHrtimerLocks c (.period t) (periodTimerCallbackLocks t wakes)
  | .wakePending => rqLocks [c]
  | .wakeUp t cs => tryToWakeUpLocks t cs

/-! ### The CPUs -/

/-- The CPUs and the locks. -/
abbrev LockState := LockSys (Fin maxCpu) LockName

inductive LockEvent
  | begin (c : Fin maxCpu) (activity : Activity)
  | interrupt (c : Fin maxCpu) (interrupt : Interrupt)
  | step (c : Fin maxCpu)

/-- An event; a CPU that has to wait spins. -/
def lockExec (m : LockState) : LockEvent → Call LockState (LockState × Unit)
  | .begin c activity => pure (m.push c (activity.locks c), ())
  | .interrupt c interrupt => pure (m.push c (interrupt.locks c), ())
  | .step c =>
      match m.advance c with
      | some m' => pure (m', ())
      | none => .error (.spins, m)

/-- All locks but `tasklist_lock`, as the system calls take it, keep the interrupts off. -/
def LockCan (m : LockState) : LockEvent → Prop
  | .begin c _ => m.todo c = []
  | .interrupt c _ => ∀ l, m.owner l = some c → l = .tasklist
  | .step _ => True

/-- The states from `m₀` on. -/
def LockRun (m₀ : LockState) : LockState → Prop := Reach (fun m => m = m₀) LockCan lockExec

/-- No CPU does anything. -/
structure IdleLocks (m : LockState) : Prop where
  todo : ∀ c, m.todo c = []
  free : ∀ l, m.owner l = none

/-! ### The order -/

/-- All locks of `h` come before the rank `n`. -/
def Below (h : Set LockName) (n : ℕ) : Prop := ∀ k ∈ h, k.rank < n

/-- Some `task_spin_lock` is taken. -/
def HasTaskLock (h : Set LockName) : Prop := ∃ t, .task t ∈ h

/-- A lock is taken in order, or it is an outer one and taken with a `task_spin_lock`. -/
def InOrder (h : Set LockName) (l : LockName) : Prop := Below h l.rank ∨ HasTaskLock h ∧ l.Outer

section Order

variable {h : Set LockName} {n : ℕ} {l : LockName} {t : Tid} {cs : List (Fin maxCpu)}
  {s : List (LockOp LockName)} {c : Fin maxCpu}

theorem below_insert : Below (insert l h) n ↔ l.rank < n ∧ Below h n := by
  simp [Below]

theorem below_empty : Below ∅ n := fun _ => False.elim

theorem Below.mono {n' : ℕ} (hb : Below h n) (hle : n ≤ n') : Below h n' :=
  fun k hk => (hb k hk).trans_le hle

theorem HasTaskLock.insert (ht : HasTaskLock h) : HasTaskLock (insert l h) :=
  ht.imp fun _ => Set.mem_insert_of_mem l

theorem rqLocks_orderly (h3 : Below h 3 ∨ HasTaskLock h) : Orderly InOrder (rqLocks cs) h h := by
  refine Orderly.flatMap fun c _ => Orderly.around ?_ rfl
  exact h3.imp id fun ht => ⟨ht, trivial⟩

theorem baseLocks_orderly (h5 : Below h 5) : Orderly InOrder (baseLocks cs) h h :=
  Orderly.flatMap fun _ _ => Orderly.around (Or.inl h5) rfl

theorem taskRqLocks_orderly (h2 : Below h 2 ∨ HasTaskLock h) : Orderly InOrder (taskRqLocks t cs) h h := by
  refine Orderly.around (h2.imp id fun ht => ⟨ht, trivial⟩) (rqLocks_orderly ?_)
  refine h2.imp (fun hb => below_insert.2 ⟨?_, hb.mono ?_⟩) HasTaskLock.insert
  · exact Nat.lt_succ_self 2
  · exact Nat.le_succ 2

theorem withTaskLock_orderly (h4 : Below h 4)
    (hs : Orderly InOrder s (insert (.task t) h) (insert (.task t) h)) :
    Orderly InOrder (withTaskLock t s) h h :=
  Orderly.around (Or.inl h4) hs

theorem logDataPointLocks_orderly (full : Option (Tid × List (Fin maxCpu))) (ht : HasTaskLock h) :
    Orderly InOrder (logDataPointLocks full) h h := by
  cases full with
  | none => rfl
  | some reader =>
    exact Orderly.around (Or.inr ⟨ht, trivial⟩) (taskRqLocks_orderly (Or.inr ht.insert))

section Side

variable (p : SwitchSide)

theorem budgetLocks_orderly (h4 : Below h 4) : Orderly InOrder p.budgetLocks h h := by
  unfold SwitchSide.budgetLocks
  split_ifs
  · refine withTaskLock_orderly h4 (baseLocks_orderly (below_insert.2 ⟨?_, h4.mono ?_⟩))
    · exact Nat.lt_succ_self 4
    · exact Nat.le_succ 4
  · rfl

theorem logLocks_orderly (h4 : Below h 4) : Orderly InOrder p.logLocks h h := by
  unfold SwitchSide.logLocks
  cases p.log with
  | none => rfl
  | some full =>
    exact withTaskLock_orderly h4 (logDataPointLocks_orderly full ⟨_, Set.mem_insert _ _⟩)

theorem stampLocks_orderly (h4 : Below h 4) : Orderly InOrder p.stampLocks h h := by
  unfold SwitchSide.stampLocks
  split_ifs
  · exact withTaskLock_orderly h4 rfl
  · rfl

end Side

theorem scheduleLocks_orderly (switch : Option (SwitchSide × SwitchSide)) :
    Orderly InOrder (scheduleLocks c switch) ∅ ∅ := by
  have h4 : Below (insert (.rq c) ∅) 4 := below_insert.2 ⟨Nat.lt_succ_self 3, below_empty⟩
  refine Orderly.around (Or.inl below_empty) ?_
  cases switch with
  | none => rfl
  | some sides =>
    exact (budgetLocks_orderly _ h4).append ((logLocks_orderly _ h4).append
      ((stampLocks_orderly _ h4).append ((budgetLocks_orderly _ h4).append (logLocks_orderly _ h4))))

theorem CallStep.locks_orderly (step : CallStep) :
    Orderly InOrder step.locks (insert .tasklist ∅) (insert .tasklist ∅) := by
  have hb : ∀ {n}, 0 < n → Below (insert .tasklist ∅) n := fun hn => below_insert.2 ⟨hn, below_empty⟩
  cases step with
  | setScheduler t c =>
    have h2 := hb (Nat.succ_pos 1)
    exact (taskRqLocks_orderly (Or.inl h2)).append (taskRqLocks_orderly (Or.inl h2))
  | timer bases => exact baseLocks_orderly (hb (Nat.succ_pos 4))
  | cancel x bases => exact ⟨Or.inl (hb (Nat.succ_pos 0)), baseLocks_orderly (hb (Nat.succ_pos 4))⟩
  | wakeUp t cs => exact taskRqLocks_orderly (Or.inl (hb (Nat.succ_pos 1)))

theorem Activity.locks_orderly (activity : Activity) : Orderly InOrder (activity.locks c) ∅ ∅ := by
  cases activity with
  | schedule switch => exact scheduleLocks_orderly switch
  | systemCall steps =>
    exact Orderly.around (Or.inl below_empty) (Orderly.flatMap fun step _ => step.locks_orderly)
  | setLogging leader => exact withTaskLock_orderly below_empty rfl
  | wakeUp t cs => exact taskRqLocks_orderly (Or.inl below_empty)

theorem runHrtimerLocks_orderly {x : TimerName} (hh : ∀ k ∈ h, k = .tasklist)
    (hs : Orderly InOrder s (insert (.callback x) h) (insert (.callback x) h)) :
    Orderly InOrder (runHrtimerLocks c x s) h h := by
  have hbelow : ∀ {n}, 0 < n → Below h n := fun hn k hk => by rw [hh k hk]; exact hn
  have h5 : Below (insert (.callback x) h) 5 :=
    below_insert.2 ⟨Nat.lt_of_sub_eq_succ rfl, hbelow (Nat.succ_pos 4)⟩
  have hcb : .callback x ∉ h := fun hk => LockName.noConfusion (hh _ hk)
  have henter : Orderly InOrder [.acq (.callback x), .acq (.base c), .rel (.base c)] h
      (insert (.callback x) h) := by
    refine ⟨Or.inl (hbelow Nat.one_pos), fun _ => ⟨Or.inl h5, fun hbase => ⟨Set.mem_insert _ _, ?_⟩⟩⟩
    exact Set.insert_sdiff_self_of_notMem hbase
  have hleave : Orderly InOrder [.acq (.base c), .rel (.callback x), .rel (.base c)]
      (insert (.callback x) h) h := by
    refine ⟨Or.inl h5, fun hbase => ⟨Set.mem_insert_of_mem _ (Set.mem_insert _ _), ?_, ?_⟩⟩
    · exact ⟨Set.mem_insert _ _, LockName.noConfusion⟩
    · rw [sdiff_right_comm]
      rw [Set.insert_sdiff_self_of_notMem hbase]
      exact Set.insert_sdiff_self_of_notMem hcb
  exact henter.append (hs.append hleave)

theorem Interrupt.locks_orderly (interrupt : Interrupt) (hh : ∀ k ∈ h, k = .tasklist) :
    Orderly InOrder (interrupt.locks c) h h := by
  have hbelow : ∀ {n}, 0 < n → Below h n := fun hn k hk => by rw [hh k hk]; exact hn
  have h4 : ∀ {x}, Below (insert (.callback x) h) 4 :=
    below_insert.2 ⟨Nat.lt_of_sub_eq_succ rfl, hbelow (Nat.succ_pos 3)⟩
  cases interrupt with
  | budgetTimer t => exact runHrtimerLocks_orderly hh (withTaskLock_orderly h4 rfl)
  | periodTimer t wakes =>
    refine runHrtimerLocks_orderly hh (withTaskLock_orderly h4 (Orderly.flatMap fun w _ => ?_))
    exact taskRqLocks_orderly (Or.inr ⟨t, Set.mem_insert _ _⟩)
  | wakePending => exact rqLocks_orderly (Or.inl (hbelow (Nat.succ_pos 2)))
  | wakeUp t cs => exact taskRqLocks_orderly (Or.inl (hbelow (Nat.succ_pos 1)))

end Order

section Run

variable {m₀ m m' : LockState} {e : LockEvent} {a b c : Fin maxCpu} {k l : LockName} {t : Tid}

theorem IdleLocks.inv (h : IdleLocks m₀) : m₀.Inv InOrder := by
  intro a
  rw [h.todo a]
  refine Set.eq_empty_iff_forall_notMem.2 fun l hl => ?_
  exact Option.some_ne_none a (Eq.trans (Eq.symm hl) (h.free l))

theorem inv_begin (h : m.Inv InOrder) (hidle : m.todo c = []) (activity : Activity) :
    (m.push c (activity.locks c)).Inv InOrder := by
  have hheld := h c
  rw [hidle] at hheld
  have hempty : m.held c = ∅ := hheld
  refine h.push ?_
  rw [hempty]
  exact activity.locks_orderly

/-- A property of the states is kept if it is kept by scripts and by operations. -/
theorem lockRun_inv {I : LockState → Prop} (h₀ : m₀.Inv InOrder ∧ I m₀)
    (hbegin : ∀ m c s, m.Inv InOrder → I m → m.todo c = [] → I (m.push c s))
    (hinterrupt : ∀ m c s, m.Inv InOrder → I m → (∀ l, m.owner l = some c → l = .tasklist) →
      I (m.push c s))
    (hstep : ∀ m c m', m.Inv InOrder → I m → m.advance c = some m' → I m')
    (hrun : LockRun m₀ m) : m.Inv InOrder ∧ I m := by
  refine Reach.inv (I := fun m => m.Inv InOrder ∧ I m) (E := fun _ => True) ?_ ?_ hrun
  · rintro m rfl
    exact h₀
  · rintro m e ⟨hm, hI⟩ hcan
    cases e with
    | begin c activity => exact ⟨inv_begin hm hcan activity, hbegin m c _ hm hI hcan⟩
    | interrupt c interrupt =>
      exact ⟨hm.push (interrupt.locks_orderly hcan), hinterrupt m c _ hm hI hcan⟩
    | step c =>
      rw [lockExec]
      cases hadvance : m.advance c with
      | some m' => exact ⟨hm.advance hadvance, hstep m c m' hm hI hadvance⟩
      | none => trivial

theorem LockRun.trans (hrun : LockRun m₀ m) (hrun' : LockRun m m') : LockRun m₀ m' := by
  induction hrun' with
  | start h =>
    cases h
    exact hrun
  | step _ hcan hexec ih => exact .step ih hcan hexec

theorem LockRun.inv (h₀ : IdleLocks m₀) (hrun : LockRun m₀ m) : m.Inv InOrder :=
  (lockRun_inv (I := fun _ => True) ⟨h₀.inv, trivial⟩ (fun _ _ _ _ _ _ => trivial)
    (fun _ _ _ _ _ _ => trivial) (fun _ _ _ _ _ _ => trivial) hrun).1

/-- Two CPUs that each need a lock of the other, or one that needs its own, stay as they are. -/
theorem needs_run (hinv : m.Inv InOrder) (hk : k ≠ .tasklist) (hl : l ≠ .tasklist)
    (hab : m.Needs a k l) (hba : m.Needs b l k) (hrun : LockRun m m') :
    m'.Needs a k l ∧ m'.Needs b l k := by
  refine (lockRun_inv (I := fun m => m.Needs a k l ∧ m.Needs b l k) ⟨hinv, hab, hba⟩ ?_ ?_ ?_ hrun).2
  · rintro m c s - ⟨ha, hb⟩ hidle
    refine ⟨ha.push ?_, hb.push ?_⟩
    · rintro rfl
      exact ha.busy hidle
    · rintro rfl
      exact hb.busy hidle
  · rintro m c s - ⟨ha, hb⟩ hirq
    refine ⟨ha.push ?_, hb.push ?_⟩
    · rintro rfl
      exact hk (hirq k ha.1)
    · rintro rfl
      exact hl (hirq l hb.1)
  · rintro m c m' hm ⟨ha, hb⟩ hadvance
    exact LockSys.needs_advance_of_needs ha hb hm hadvance

end Run

/-- **The period timer and `__schedule`.**  CPU `c` is in `__schedule`, has its runqueue locked and has the
`task_spin_lock` of a process still to take; CPU `b` is in the period callback of that process, has the
`task_spin_lock` and has a thread still to wake up that is on the runqueue of `c`.  Then neither of them
ever gets any further, in no continuation, and both locks are gone for good. -/
theorem period_deadlock {m₀ m m' : LockState} {b c : Fin maxCpu} {t : Tid} (h₀ : IdleLocks m₀)
    (hrun : LockRun m₀ m) (hschedule : m.Needs c (.rq c) (.task t))
    (hperiod : m.Needs b (.task t) (.rq c)) (hrun' : LockRun m m') :
    m'.Needs c (.rq c) (.task t) ∧ m'.Needs b (.task t) (.rq c) :=
  needs_run (hrun.inv h₀) LockName.noConfusion LockName.noConfusion hschedule hperiod hrun'

/-- No CPU has anything to do. -/
def lockIdle : LockState := ⟨fun _ => [], fun _ => none⟩

theorem lockIdle_idle : IdleLocks lockIdle := ⟨fun _ => rfl, fun _ => rfl⟩

/-- CPU 0 switches from the process 1 to a thread without a budget. -/
def leaving : Activity := .schedule (some (⟨1, true, [0], none⟩, ⟨2, false, [], none⟩))

/-- CPU 0 has locked its runqueue when the period timer of the process expires on CPU 1, and the two come
to a halt. -/
theorem leaving_run : ∃ m, LockRun lockIdle m ∧ m.Needs 0 (.rq 0) (.task 1) ∧
    m.Needs 1 (.task 1) (.rq 0) ∧ ∀ c, m.advance c = none := by
  have hbegin : LockRun lockIdle _ := .step (.start rfl) (a := .begin 0 leaving) rfl rfl
  have hlocked : LockRun lockIdle _ := .step hbegin (a := .step 0) trivial rfl
  have honly : ∀ l, Function.update lockIdle.owner (.rq 0) (some 0) l = some 1 → l = .tasklist := by
    intro l hl
    by_cases hrq : l = .rq 0
    · subst hrq
      cases hl
    · rw [Function.update_of_ne hrq] at hl
      cases hl
  have hirq : LockRun lockIdle _ :=
    .step hlocked (a := .interrupt 1 (.periodTimer 1 [(1, [0])])) honly rfl
  have hmarked : LockRun lockIdle _ := .step hirq (a := .step 1) trivial rfl
  have hbase : LockRun lockIdle _ := .step hmarked (a := .step 1) trivial rfl
  have hunbase : LockRun lockIdle _ := .step hbase (a := .step 1) trivial rfl
  have htask : LockRun lockIdle _ := .step hunbase (a := .step 1) trivial rfl
  have hpi : LockRun lockIdle _ := .step htask (a := .step 1) trivial rfl
  refine ⟨_, hpi, ⟨rfl, [], _, rfl, List.not_mem_nil⟩, ⟨rfl, [], _, rfl, List.not_mem_nil⟩, fun c => ?_⟩
  fin_cases c <;> rfl

/-- The two CPUs stay where they are. -/
theorem period_deadlock_leaving : ∃ m, LockRun lockIdle m ∧ ∀ m', LockRun m m' →
    m'.Needs 0 (.rq 0) (.task 1) ∧ m'.Needs 1 (.task 1) (.rq 0) := by
  obtain ⟨m, hrun, hschedule, hperiod, -⟩ := leaving_run
  exact ⟨m, hrun, fun m' hrun' => period_deadlock lockIdle_idle hrun hschedule hperiod hrun'⟩

/-- **Where a deadlock comes from.**  If some CPU has something to do and none can go on, then some CPU has
a `task_spin_lock` and waits for a runqueue, a `pi_lock` or `tasklist_lock`: it is in a period callback, or
in a log that is full. -/
theorem deadlock_backward {m₀ m : LockState} (h₀ : IdleLocks m₀) (hrun : LockRun m₀ m)
    (hbusy : ∃ c, m.todo c ≠ []) (hstuck : ∀ c, m.advance c = none) :
    ∃ c t l, m.owner (.task t) = some c ∧ m.Wants c l ∧ l.Outer := by
  have hinv := hrun.inv h₀
  obtain ⟨c, l, k, ⟨rest, htodo⟩, hk, hle⟩ := LockSys.exists_backward LockName.rank hinv hbusy hstuck
  have hin : InOrder (m.held c) l := by
    have hc := hinv c
    rcases htodo with htodo | htodo <;> rw [htodo] at hc <;> exact hc.1
  rcases hin with hbelow | ⟨⟨t, ht⟩, houter⟩
  · exact absurd (hbelow k hk) (not_lt.2 hle)
  · exact ⟨c, t, l, ht, ⟨rest, htodo⟩, houter⟩

theorem deadlock_backward_leaving : ∃ m, LockRun lockIdle m ∧ (∀ c, m.advance c = none) ∧
    ∃ c t l, m.owner (.task t) = some c ∧ m.Wants c l ∧ l.Outer := by
  obtain ⟨m, hrun, hschedule, -, hstuck⟩ := leaving_run
  exact ⟨m, hrun, hstuck, deadlock_backward lockIdle_idle hrun ⟨0, hschedule.busy⟩ hstuck⟩

section Log

variable {c : Fin maxCpu} {cs : List (Fin maxCpu)} {s : List (LockOp LockName)} (p : SwitchSide)

theorem rqLocks_fresh : Fresh (.rq c) (rqLocks cs) :=
  Fresh.flatMap fun _ _ => Fresh.around trivial

theorem baseLocks_fresh : Fresh (.rq c) (baseLocks cs) :=
  Fresh.flatMap fun _ _ => Fresh.around trivial

theorem budgetLocks_fresh : Fresh (.rq c) p.budgetLocks := by
  unfold SwitchSide.budgetLocks
  split_ifs
  · exact baseLocks_fresh.around
  · trivial

theorem stampLocks_fresh : Fresh (.rq c) p.stampLocks := by
  unfold SwitchSide.stampLocks
  split_ifs
  · exact Fresh.around trivial
  · trivial

theorem logLocks_fresh : Fresh (.rq c) p.logLocks := by
  unfold SwitchSide.logLocks
  cases p.log with
  | none => trivial
  | some full =>
    refine Fresh.around ?_
    cases full with
    | none => trivial
    | some reader => exact rqLocks_fresh.around.around

/-- A full log whose reader is woken up on `c` locks the runqueue of `c`. -/
theorem acq_mem_logLocks {full : Tid × List (Fin maxCpu)} (hlog : p.log = some (some full))
    (hc : c ∈ full.2) : .acq (.rq c) ∈ p.logLocks := by
  have hrq : .acq (.rq c) ∈ rqLocks full.2 := List.mem_flatMap.2 ⟨c, hc, List.mem_cons_self⟩
  simp [SwitchSide.logLocks, hlog, withTaskLock, logDataPointLocks, tryToWakeUpLocks, taskRqLocks, hrq]

/-- `__schedule` takes the lock of its runqueue twice. -/
theorem schedule_stumbles {m : LockState} {prev next : SwitchSide} {full : Tid × List (Fin maxCpu)}
    (hlog : prev.log = some (some full) ∨ next.log = some (some full)) (hc : c ∈ full.2) :
    (m.push c ((Activity.schedule (some (prev, next))).locks c)).Stumbles c (.rq c) := by
  have hfresh : Fresh (.rq c) (prev.budgetLocks ++ (prev.logLocks ++ (next.stampLocks ++
      (next.budgetLocks ++ next.logLocks)))) :=
    (budgetLocks_fresh prev).append ((logLocks_fresh prev).append ((stampLocks_fresh next).append
      ((budgetLocks_fresh next).append (logLocks_fresh next))))
  have hmem : .acq (.rq c) ∈ prev.budgetLocks ++ (prev.logLocks ++ (next.stampLocks ++
      (next.budgetLocks ++ next.logLocks))) := by
    simp only [List.mem_append]
    rcases hlog with hlog | hlog
    · exact .inr (.inl (acq_mem_logLocks prev hlog hc))
    · exact .inr (.inr (.inr (.inr (acq_mem_logLocks next hlog hc))))
  obtain ⟨mid, post, hsplit, hmid⟩ := hfresh.split hmem
  refine ⟨[], mid, post ++ [.rel (.rq c)] ++ m.todo c, ?_, hmid⟩
  simp [LockSys.push, Activity.locks, scheduleLocks, hsplit]

end Log

/-- **A full log.**  `__schedule` fills the log of a thread it switches from or to, and the reader of the
log is to be woken up on the same CPU.  Then that CPU never comes out of `__schedule`, in no
continuation. -/
theorem full_log_hangs {m₀ m m' : LockState} {c : Fin maxCpu} {prev next : SwitchSide}
    {full : Tid × List (Fin maxCpu)} (h₀ : IdleLocks m₀) (hrun : LockRun m₀ m) (hidle : m.todo c = [])
    (hlog : prev.log = some (some full) ∨ next.log = some (some full)) (hc : c ∈ full.2)
    (hrun' : LockRun (m.push c ((Activity.schedule (some (prev, next))).locks c)) m') :
    m'.todo c ≠ [] := by
  have hinv := inv_begin (hrun.inv h₀) hidle (.schedule (some (prev, next)))
  have hkeep := lockRun_inv (I := fun m => m.Stumbles c (.rq c) ∨ m.Needs c (.rq c) (.rq c))
    ⟨hinv, .inl (schedule_stumbles hlog hc)⟩ ?_ ?_ ?_ hrun'
  · exact hkeep.2.elim LockSys.Stumbles.busy LockSys.Needs.busy
  · rintro m d s - h hidle
    refine h.imp LockSys.Stumbles.push fun hneeds => hneeds.push ?_
    rintro rfl
    exact hneeds.busy hidle
  · rintro m d s - h hirq
    refine h.imp LockSys.Stumbles.push fun hneeds => hneeds.push ?_
    rintro rfl
    exact LockName.noConfusion (hirq _ hneeds.1)
  · rintro m d m' hm (hstumbles | hneeds) hadvance
    · exact hstumbles.advance hadvance
    · exact .inr (LockSys.needs_advance_of_needs hneeds hneeds hm hadvance).1

/-- CPU 0 switches from the process 1, whose log is full, and the reader 3 of the log was on CPU 0. -/
def filled : Activity := .schedule (some (⟨1, false, [], some (some (3, [0]))⟩, ⟨2, false, [], none⟩))

theorem full_log_hangs_filled : ∃ m, LockRun lockIdle m ∧ m.Wants 0 (.rq 0) ∧
    m.owner (.rq 0) = some 0 ∧ ∀ m', LockRun m m' → m'.todo 0 ≠ [] := by
  have hlocked : LockRun (lockIdle.push 0 (filled.locks 0)) _ :=
    .step (.start rfl) (a := .step 0) trivial rfl
  have htask : LockRun (lockIdle.push 0 (filled.locks 0)) _ := .step hlocked (a := .step 0) trivial rfl
  have htasklist : LockRun (lockIdle.push 0 (filled.locks 0)) _ :=
    .step htask (a := .step 0) trivial rfl
  have hpi : LockRun (lockIdle.push 0 (filled.locks 0)) _ :=
    .step htasklist (a := .step 0) trivial rfl
  have hbegin : LockRun lockIdle (lockIdle.push 0 (filled.locks 0)) :=
    .step (.start rfl) (a := .begin 0 filled) rfl rfl
  refine ⟨_, hbegin.trans hpi, ⟨_, .inl rfl⟩, rfl, fun m' hrun => ?_⟩
  have hreader : (0 : Fin maxCpu) ∈ ((3, [0]) : Tid × List (Fin maxCpu)).2 := List.mem_cons_self
  exact full_log_hangs lockIdle_idle (.start rfl) rfl (.inl rfl) hreader (hpi.trans hrun)

end RtSched
