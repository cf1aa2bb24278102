import RtSched.BinPacking
import RtSched.Clock
import RtSched.Priority

/-!
# The system calls, exit and fork

`sys_setProcessBudget`, `sys_cancelBudget`, `sys_stopScheduling`, `sys_setBinPacking`,
`sys_startScheduling`, `sys_cancelBinPacking`, the reservation part of `do_exit` and what `fork`
copies.  A long function is cut where its parts are reused or reasoned about on their own; the
order of the effects is the source's.

`Cmd` collects them as the steps of a running system, and `exec` runs one.
-/

namespace RtSched

/-- What the code takes for a time that has been set. -/
def Timespec.isSet (ts : Timespec) : Bool := decide (ts.tvSec > 0 ∨ ts.tvNsec > 0)

/-! ### New frequencies -/

/-- The array, `sysclock`, `apply_sysclock` and the request to the cpufreq driver. -/
def retuneSysclock (e : Env) (s : KState) : Call KState KState := do
  let list ← makeTaskCtStruct e s
  let (s, sysclockFreq) ← sysclock e list s
  let (s, retFreq) ← applySysclock e sysclockFreq s
  pure { s with cpuFreq := retFreq }

/-- The array, `sysclock` and `pmclock`; the frequency is that of `sysclock`. -/
def computePmclock (e : Env) (s : KState) : Call KState (KState × ℕ) := do
  let list ← makeTaskCtStruct e s
  let (s, sysclockFreq) ← sysclock e list s
  let s ← pmclock e list s
  pure (s, sysclockFreq)

/-! ### `sys_setProcessBudget` -/

/-- The removal of an earlier reservation. -/
def delIfBudgetSet (curr : Tid) (s : KState) : Call KState KState :=
  if (s.task curr).isBudgetSet then delPeriodicTask curr s else pure s

/-- Timers (cancelled or initialised), flags, period and budget. -/
def writeReservation (curr : Tid) (taskBudget period : Timespec) (s : KState) : KState :=
  let s := s.modifyTask curr fun p => { p with periodTimer := none, budgetTimer := none }
  -- in bin-packing mode the flag waits for `sys_startScheduling`
  let s := if s.isBinPackingSet then s
    else s.eachThread curr fun p => { p with isBudgetSet := true }
  let s := s.modifyTask curr fun p =>
    { p with timePeriod := period, minBudgetTime := taskBudget }
  if s.isBinPackingSet then s.modifyTask curr fun p => { p with budgetTime := taskBudget } else s

/-- The end of the call without bin packing: priorities, then budget and clock by power scheme. -/
def launchReservation (e : Env) (curr : Tid) (budget : ℕ) (s : KState) : Call KState KState := do
  let (s, _) ← setRtPriorities e.fuel s
  match s.powerScheme with
  | .noPm =>
      let s := s.modifyTask curr fun p =>
        { p with budgetTime := nsToTimespec (budget / (s.cpuFreq / 1000) * 1000 : ℕ) }
      pure (startPeriodTimer s curr)
  | .sysClock => retuneSysclock e s
  | .pmClock => do
      let (s, _) ← computePmclock e s
      applyPmclock e s

/-- The budget in time at the maximum frequency, from cycles. -/
def taskBudgetOf (e : Env) (budget : ℕ) : Timespec :=
  nsToTimespec (budget / e.maxFrequency * 1000 : ℕ)

/-- The admission test, which is skipped in bin-packing mode. -/
def admits (e : Env) (taskBudget period : Timespec) (s : KState) : Call KState Bool :=
  if s.isBinPackingSet then pure true else checkAdmission e.fuel taskBudget period s

/-- The list part of the call for a task that was found. -/
def reserve (e : Env) (curr : Tid) (taskBudget period : Timespec) (s : KState) :
    Call KState KState := do
  let s ← delIfBudgetSet curr s
  addPeriodicTask e.fuel curr (writeReservation curr taskBudget period s)

/-- The call for a task that was found; in bin-packing mode the task is not started. -/
def setReservation (e : Env) (curr : Tid) (budget : ℕ) (taskBudget period : Timespec) (s : KState) :
    Call KState KState := do
  let s ← reserve e curr taskBudget period s
  if s.isBinPackingSet then pure s else launchReservation e curr budget s

/-- `sys_setProcessBudget`: the budget in cycles, the state after it and the return value. -/
def setProcessBudget (e : Env) (pid : ℤ) (budget : ℕ) (period : Timespec) (s : KState) :
    Call KState (KState × ℤ) :=
  if ¬ period.isSet then pure (s, -einval)
  else if pid ≤ 0 then pure (s, -einval)
  else if timespecCompare (taskBudgetOf e budget) period ≥ 0 then pure (s, -einval)
  else do
    let admitted ← admits e (taskBudgetOf e budget) period s
    if admitted = false then pure (s, -eperm)
    else match s.findTaskByVpid pid with
      | none => pure (s, -esrch)
      | some curr => do
          let s ← setReservation e curr budget (taskBudgetOf e budget) period s
          pure (s, 0)

/-! ### `sys_cancelBudget` -/

/-- Flags, policy, timers, period and budget of a cancelled reservation. -/
def eraseReservation (curr : Tid) (s : KState) : KState :=
  let s := s.eachThread curr fun p =>
    (schedSetscheduler { p with isBudgetSet := false } .normal 0).1
  s.modifyTask curr fun p =>
    { p with
      periodTimer := if p.timePeriod.isSet then none else p.periodTimer
      timePeriod := ⟨-1, -1⟩
      budgetTimer := if p.budgetTime.isSet then none else p.budgetTimer
      budgetTime := ⟨-1, -1⟩ }

/-- In bin-packing mode the task leaves its CPU's list. -/
def leaveCpu (e : Env) (curr : Tid) (s : KState) : Call KState KState :=
  if s.isBinPackingSet then do
    let s ← delTaskCpu curr (s.task curr).cpuNo s
    let (s, _) ← setRtPrioritiesPerCpu e.fuel (s.task curr).cpuNo s
    pure s
  else pure s

/-- The clock after a cancellation; `apply_sysclock` is called whatever the power scheme. -/
def retuneAfterCancel (e : Env) (s : KState) : Call KState KState := do
  let (s, _) ← setRtPriorities e.fuel s
  match s.powerScheme with
  | .noPm => do
      let (s, _) ← applySysclock e 0 s
      pure s
  | .sysClock => retuneSysclock e s
  | .pmClock => do
      let (s, sysclockFreq) ← computePmclock e s
      -- `sys_setProcessBudget` calls `apply_pmclock` here
      let (s, _) ← applySysclock e sysclockFreq s
      pure s

/-- The call for a task that was found. -/
def cancelReservation (e : Env) (curr : Tid) (s : KState) : Call KState KState := do
  let s ← delPeriodicTask curr (eraseReservation curr s)
  let s ← leaveCpu e curr s
  let s := s.eachThread curr wakeUpProcess
  if s.isBinPackingSet then pure s else retuneAfterCancel e s

/-- `sys_cancelBudget`. -/
def cancelBudget (e : Env) (pid : ℤ) (s : KState) : Call KState (KState × ℤ) :=
  if pid ≤ 0 then pure (s, -einval)
  else match s.findTaskByVpid pid with
    | none => pure (s, -esrch)
    | some curr => do
        let s ← cancelReservation e curr s
        pure (s, 0)

/-! ### `do_exit` -/

/-- The clock after the exit of a leader; there is no `apply_pmclock`. -/
def retuneAfterExit (e : Env) (s : KState) : Call KState KState := do
  let (s, _) ← setRtPriorities e.fuel s
  match s.powerScheme with
  | .noPm => pure s
  | .sysClock => retuneSysclock e s
  | .pmClock => do
      let (s, _) ← computePmclock e s
      pure s

/-- A leader's flags and timers. -/
def clearReservation (tsk : Tid) (s : KState) : KState :=
  let s := s.eachThread tsk fun p => { p with isBudgetSet := false }
  s.modifyTask tsk fun p => { p with periodTimer := none, budgetTimer := none }

/-- What `do_exit` does for a thread with a budget. -/
def exitReservation (e : Env) (tsk : Tid) (s : KState) : Call KState KState :=
  if tsk = (s.task tsk).tgid then do
    let s ← delPeriodicTask tsk (clearReservation tsk s)
    let s ← leaveCpu e tsk s
    if s.isBinPackingSet then pure s else retuneAfterExit e s
  -- another thread leaves the reservation to its leader
  else pure (s.modifyTask tsk fun p => { p with isBudgetSet := false })

/-- The rest of `do_exit`: the task is dead, and unhashed at once if it reaps itself. -/
def finishExit (tsk : Tid) (autoreap : Bool) (s : KState) : KState :=
  let s := s.modifyTask tsk fun p => { p with exiting := true, state := .dead }
  if autoreap then { s with pidHash := s.pidHash.erase tsk } else s

/-- `do_exit` of the thread `tsk`. -/
def doExit (e : Env) (tsk : Tid) (autoreap : Bool) (s : KState) : Call KState (KState × ℤ) :=
  if (s.task tsk).isBudgetSet then do
    let s ← exitReservation e tsk s
    pure (finishExit tsk autoreap s, 0)
  else pure (finishExit tsk autoreap s, 0)

/-! ### Bin-packing mode -/

/-- Timers off, no time used, and awake. -/
def stopTask (s : KState) (curr : Tid) : KState :=
  let s := s.modifyTask curr fun p =>
    { p with budgetTimer := none, periodTimer := none, computeTime := ⟨0, 0⟩ }
  s.eachThread curr wakeUpProcess

/-- `sys_stopScheduling`. -/
def stopScheduling (e : Env) (s : KState) : Call KState (KState × ℤ) :=
  let s := { s with isBinPackingSet := true }
  if s.periodicTasksSize = 0 then pure (s, 0)
  else do
    let list ← s.periodicTasks e.fuel
    let s ← clearCpuLists e.fuel (list.foldl stopTask s)
    pure (s, 0)

/-- `sys_setBinPacking`. -/
def setBinPacking (e : Env) (scheme : ℤ) (s : KState) : Call KState (KState × ℤ) :=
  if scheme < 0 ∨ scheme > 4 then pure (s, -einval)
  else do
    let s := { s with binPackingScheme := scheme, powerScheme := .noPm }
    let (s, bins) ← binPacking e.fuel scheme.toNat s
    if bins = 0 then do
      let s ← clearCpuLists e.fuel s
      pure (s, -einval)
    else pure (s, (bins : ℤ))

/-- The flag of every thread of a packed task. -/
def flagTask (s : KState) (curr : Tid) : KState :=
  s.eachThread curr fun p => { p with isBudgetSet := true }

/-- `sys_startScheduling` for one CPU under the global SysClock: flags, priorities and the highest
frequency so far. -/
def startCpuGlobal (e : Env) (x : KState × ℕ) (cpu : ℕ) : Call KState (KState × ℕ) :=
  if x.1.perCpuListSize cpu > 0 then do
    let tasks ← x.1.perCpuTasks e.fuel cpu
    let (s, _) ← setRtPrioritiesPerCpu e.fuel cpu (tasks.foldl flagTask x.1)
    let list ← makeTaskCtStructPerCpu e cpu s
    let (s, freq) ← sysclockPerCpu e list (s.perCpuListSize cpu) s
    pure (s, if freq > x.2 then freq else x.2)
  else pure x

/-- `sys_startScheduling` for one CPU: flags, period timers and priorities. -/
def startCpu (e : Env) (s : KState) (cpu : ℕ) : Call KState KState :=
  if s.perCpuListSize cpu > 0 then do
    let tasks ← s.perCpuTasks e.fuel cpu
    let s := tasks.foldl (fun s t => startPeriodTimer (flagTask s t) t) s
    let (s, _) ← setRtPrioritiesPerCpu e.fuel cpu s
    pure s
  else pure s

/-- `sys_startScheduling`. -/
def startScheduling (e : Env) (s : KState) : Call KState (KState × ℤ) :=
  if s.globalSysclock then do
    let (s, maxFreq) ← (List.range maxCpu).foldlM (startCpuGlobal e) (s, 0)
    let (s, retFreq) ← applySysclock e maxFreq s
    pure ({ s with cpuFreq := retFreq }, 0)
  else do
    let s ← (List.range maxCpu).foldlM (startCpu e) s
    pure (s, 0)

/-- `sys_cancelBinPacking`. -/
def cancelBinPacking (s : KState) : Call KState (KState × ℤ) :=
  pure ({ s with isBinPackingSet := false }, 0)

/-! ### `fork` -/

/-- `sched_reset_on_fork`, as `sched_fork` serves it. -/
def resetOnFork (p : TaskStruct) : TaskStruct :=
  if p.schedResetOnFork then
    let p := if p.policy = .fifo ∨ p.policy = .rr then
      { p with policy := .normal, normalPrio := p.staticPrio } else p
    let p := if p.staticPrio < 120 then { p with staticPrio := 120, normalPrio := 120 } else p
    { p with schedResetOnFork := false }
  else p

/-- The record of a new task: `dup_task_struct` copies the parent's, `sched_fork` resets some
fields.  A copied timer is on no queue, so it does not fire. -/
def forkTask (parent : TaskStruct) (child : Tid) (thread : Bool) : TaskStruct :=
  -- `is_budget_set` and `time_period` are copied
  let p := { parent with
    computeTime := ⟨0, 0⟩, execTime := ⟨0, 0⟩, budgetTime := ⟨-1, -1⟩, minBudgetTime := ⟨-1, -1⟩
    budgetTimer := none, periodTimer := none, state := .running, topPiWaiter := none }
  { resetOnFork p with
    prio := parent.normalPrio
    onCpu := 0
    needResched := false
    tgid := if thread then parent.tgid else child }

/-- `copy_process`: a new thread of the parent's group, or a new process.  The list nodes are copied
with the rest of the structure. -/
def copyProcess (parent child : Tid) (thread : Bool) (s : KState) : KState :=
  { s with
    task := Function.update s.task child (forkTask (s.task parent) child thread)
    pidHash := child :: s.pidHash
    links := Function.update s.links (.entry child) (s.links (.entry parent))
    cpuLinks := Function.update s.cpuLinks (.entry child) (s.cpuLinks (.entry parent)) }

/-- `do_fork`. -/
def doFork (parent child : Tid) (thread : Bool) (s : KState) : Call KState (KState × ℤ) :=
  pure (copyProcess parent child thread s, child)

/-! ### Steps -/

/-- What a running system does. -/
inductive Cmd
  | setProcessBudget (pid : ℤ) (budget : ℕ) (period : Timespec)
  | cancelBudget (pid : ℤ)
  | exit (tsk : Tid) (autoreap : Bool)
  | stopScheduling
  | setBinPacking (scheme : ℤ)
  | startScheduling
  | cancelBinPacking
  | fork (parent child : Tid) (thread : Bool)
  deriving DecidableEq, Repr

/-- Run one step. -/
def exec (e : Env) (s : KState) : Cmd → Call KState (KState × ℤ)
  | .setProcessBudget pid budget period => setProcessBudget e pid budget period s
  | .cancelBudget pid => cancelBudget e pid s
  | .exit tsk autoreap => doExit e tsk autoreap s
  | .stopScheduling => stopScheduling e s
  | .setBinPacking scheme => setBinPacking e scheme s
  | .startScheduling => startScheduling e s
  | .cancelBinPacking => cancelBinPacking s
  | .fork parent child thread => doFork parent child thread s

/-- A processor with the speeds 500 MHz and 1 GHz. -/
def twoSpeeds : Env := ⟨1000000, [some 500000, some 1000000], 20⟩

end RtSched
