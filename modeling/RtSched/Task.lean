import RtSched.Base.Ring
import RtSched.Timespec

/-!
# Tasks and the kernel state

The fields of `struct task_struct` (`include/linux/sched.h`) that the real-time extension and the
scheduler functions under it read or write, the entries of a task array, and the globals of
`kernel/sched.c`.  A task is named by its pid; the record of pid `t` is `s.task t`, and the tasks
that `find_task_by_vpid` finds are those of `s.pidHash`.

The linked lists are kept as the kernel keeps them, by the pointers of their nodes: `links` for
`periodic_task_head` and the `periodic_task` node of every task, `cpuLinks` for the heads
`per_cpu_list[c]` and the `per_cpu_task` nodes.
-/

namespace RtSched

open LinkRing

/-- A task, by its pid. -/
abbrev Tid := ℕ

/-- The `state` of a task. -/
inductive RunState
  | running
  | interruptible
  | uninterruptible
  | stopped
  | traced
  | dead
  deriving DecidableEq, Repr

/-- Scheduling policies. -/
inductive Policy
  | normal
  | fifo
  | rr
  | batch
  | idle
  deriving DecidableEq, Repr

/-- The value of `power_scheme`. -/
inductive PowerScheme
  | noPm
  | sysClock
  | pmClock
  deriving DecidableEq, Repr

/-- `struct task_struct`. -/
structure TaskStruct where
  tgid : Tid
  /-- a user process (`p->mm` is set) -/
  mm : Bool
  state : RunState
  /-- the `TIF_NEED_RESCHED` flag -/
  needResched : Bool
  policy : Policy
  rtPriority : ℤ
  staticPrio : ℤ
  normalPrio : ℤ
  prio : ℤ
  /-- the priority of the top waiter on a PI mutex of this task -/
  topPiWaiter : Option ℤ
  schedResetOnFork : Bool
  computeTime : Timespec
  execTime : Timespec
  budgetTime : Timespec
  /-- expiry of the budget timer when it is queued -/
  budgetTimer : Option ℤ
  timePeriod : Timespec
  isBudgetSet : Bool
  /-- expiry of the period timer when it is queued -/
  periodTimer : Option ℤ
  minBudgetTime : Timespec
  pmclockFreq : ℕ
  alpha : ℕ
  cpuNo : ℕ
  onCpu : ℕ
  cpusAllowed : Finset ℕ
  /-- `do_exit` has been passed (`PF_EXITING`) -/
  exiting : Bool
  deriving DecidableEq

/-- `struct task_ct_struct`. -/
structure TaskCt where
  budget : ℤ
  period : ℤ
  util : ℤ := 0
  task : Tid := 0
  deriving DecidableEq, Repr, Inhabited

/-- Nodes of the global reservation list. -/
inductive RtNode
  | head
  | entry (t : Tid)
  deriving DecidableEq, Repr

/-- Nodes of the per-CPU lists. -/
inductive CpuNode
  | head (cpu : ℕ)
  | entry (t : Tid)
  deriving DecidableEq, Repr

/-- `container_of`: the task a node is embedded in. -/
def RtNode.task : RtNode → Tid
  | .head => 0
  | .entry t => t

/-- `container_of`: the task a node is embedded in. -/
def CpuNode.task : CpuNode → Tid
  | .head _ => 0
  | .entry t => t

/-- The state: all tasks and the globals. -/
structure KState where
  task : Tid → TaskStruct
  pidHash : List Tid
  /-- the clock, in nanoseconds -/
  now : ℤ
  periodicTasksSize : ℕ
  links : Links RtNode
  perCpuListSize : ℕ → ℕ
  cpuLinks : Links CpuNode
  cpuUtil : ℕ → ℤ
  isBinPackingSet : Bool
  binPackingScheme : ℤ
  globalSysclock : Bool
  powerScheme : PowerScheme
  /-- the frequency last requested of CPU 0's driver (`policy->cur`), in kHz -/
  cpuFreq : ℕ

/-- What the kernel reads of cpufreq, and for how many turns a loop is followed. -/
structure Env where
  /-- `cpuinfo.max_freq` of CPU 0, in kHz -/
  maxFreq : ℕ
  /-- the frequency table of CPU 0; `none` is `CPUFREQ_ENTRY_INVALID` -/
  table : List (Option ℕ)
  fuel : ℕ

/-- The maximum frequency in MHz. -/
def Env.maxFrequency (e : Env) : ℕ := e.maxFreq / 1000

/-! ### Access -/

namespace KState

variable (s : KState)

/-- Write the record of one task. -/
def modifyTask (t : Tid) (f : TaskStruct → TaskStruct) : KState :=
  { s with task := Function.update s.task t (f (s.task t)) }

/-- `find_task_by_vpid`. -/
def findTaskByVpid (pid : ℤ) : Option Tid :=
  if pid.toNat ∈ s.pidHash then some pid.toNat else none

/-- The threads `while_each_thread` visits from `t`: `t` and the hashed threads of its group. -/
def threads (t : Tid) : List Tid :=
  t :: s.pidHash.filter fun u => u ≠ t ∧ (s.task u).tgid = (s.task t).tgid

/-- `do … while_each_thread(t, u)`: every thread of the group is updated once. -/
def eachThread (t : Tid) (f : TaskStruct → TaskStruct) : KState :=
  { s with task := fun u => if u ∈ s.threads t then f (s.task u) else s.task u }

/-- `list_for_each` over `periodic_task_head`. -/
def periodicTasks (fuel : ℕ) : Call KState (List Tid) :=
  return (← Call.lift s (walk s.links .head fuel)).map RtNode.task

/-- `list_for_each` over `per_cpu_list[cpu]`. -/
def perCpuTasks (fuel cpu : ℕ) : Call KState (List Tid) :=
  return (← Call.lift s (walk s.cpuLinks (.head cpu) fuel)).map CpuNode.task

@[simp] theorem modifyTask_task (t u : Tid) (f : TaskStruct → TaskStruct) :
    (s.modifyTask t f).task u = if u = t then f (s.task u) else s.task u := by
  by_cases h : u = t
  · subst h; simp [modifyTask]
  · simp [modifyTask, h]

@[simp] theorem eachThread_task (t u : Tid) (f : TaskStruct → TaskStruct) :
    (s.eachThread t f).task u = if u ∈ s.threads t then f (s.task u) else s.task u := rfl

@[simp] theorem modifyTask_bin (t : Tid) (f : TaskStruct → TaskStruct) :
    (s.modifyTask t f).isBinPackingSet = s.isBinPackingSet := rfl

@[simp] theorem eachThread_bin (t : Tid) (f : TaskStruct → TaskStruct) :
    (s.eachThread t f).isBinPackingSet = s.isBinPackingSet := rfl

theorem mem_threads {t u : Tid} :
    u ∈ s.threads t ↔ u = t ∨ u ∈ s.pidHash ∧ (s.task u).tgid = (s.task t).tgid := by
  by_cases h : u = t
  · subst h; simp [threads]
  · simp [threads, h]

theorem mem_pidHash_of_find {pid : ℤ} {t : Tid} (h : s.findTaskByVpid pid = some t) :
    t ∈ s.pidHash := by
  rw [findTaskByVpid] at h
  split_ifs at h with hmem
  exact Option.some.inj h ▸ hmem

theorem self_mem_threads (t : Tid) : t ∈ s.threads t := by simp [threads]

theorem tgid_of_mem_threads {t u : Tid} (h : u ∈ s.threads t) :
    (s.task u).tgid = (s.task t).tgid := by
  rcases (s.mem_threads).1 h with rfl | ⟨-, h⟩
  · rfl
  · exact h

theorem periodicTasks_eq {list : List Tid} (h : Traverses s.links .head (list.map .entry))
    (fuel : ℕ) :
    s.periodicTasks fuel = if list.length < fuel then .ok list else .error (.spins, s) := by
  rw [periodicTasks, walk_eq h, List.length_map]
  have hmap : (list.map RtNode.entry).map RtNode.task = list := by
    rw [List.map_map]
    exact List.map_id list
  split_ifs
  · exact congrArg Except.ok hmap
  · rfl

theorem perCpuTasks_eq {cpu : ℕ} {list : List Tid}
    (h : Traverses s.cpuLinks (.head cpu) (list.map .entry)) (fuel : ℕ) :
    s.perCpuTasks fuel cpu = if list.length < fuel then .ok list else .error (.spins, s) := by
  rw [perCpuTasks, walk_eq h, List.length_map]
  have hmap : (list.map CpuNode.entry).map CpuNode.task = list := by
    rw [List.map_map]
    exact List.map_id list
  split_ifs
  · exact congrArg Except.ok hmap
  · rfl

end KState

/-! ### After boot -/

/-- A single-threaded user process that never asked for a budget. -/
def newTask (t : Tid) : TaskStruct where
  tgid := t
  mm := true
  state := .running
  needResched := false
  policy := .normal
  rtPriority := 0
  staticPrio := 120
  normalPrio := 120
  prio := 120
  topPiWaiter := none
  schedResetOnFork := false
  computeTime := ⟨0, 0⟩
  execTime := ⟨0, 0⟩
  budgetTime := ⟨-1, -1⟩
  budgetTimer := none
  timePeriod := ⟨0, 0⟩
  isBudgetSet := false
  periodTimer := none
  minBudgetTime := ⟨-1, -1⟩
  pmclockFreq := 0
  alpha := 0
  cpuNo := 0
  onCpu := 0
  cpusAllowed := {0, 1, 2, 3}
  exiting := false

/-- Processes `pids` after boot, on a clock of 1 GHz. -/
def bootState (pids : List Tid) (scheme : PowerScheme) : KState where
  task := newTask
  pidHash := pids
  now := 0
  periodicTasksSize := 0
  links := fun _ => ⟨.null, .null⟩
  perCpuListSize := fun _ => 0
  cpuLinks := fun _ => ⟨.null, .null⟩
  cpuUtil := fun _ => 1000
  isBinPackingSet := false
  binPackingScheme := -1
  globalSysclock := false
  powerScheme := scheme
  cpuFreq := 1000000

/-- Nothing has been reserved yet. -/
structure Booted (s : KState) : Prop where
  size : s.periodicTasksSize = 0
  links : ∀ n, s.links n = ⟨.null, .null⟩
  cpuSize : ∀ c, s.perCpuListSize c = 0
  cpuLinks : ∀ n, s.cpuLinks n = ⟨.null, .null⟩
  binOff : s.isBinPackingSet = false
  flag : ∀ t, (s.task t).isBudgetSet = false
  alive : ∀ t, (s.task t).exiting = false

theorem booted_bootState (pids : List Tid) (scheme : PowerScheme) : Booted (bootState pids scheme) :=
  ⟨rfl, fun _ => rfl, fun _ => rfl, fun _ => rfl, rfl, fun _ => rfl, fun _ => rfl⟩

/-! ### What a function leaves alone -/

/-- Only task records, each as `R` allows, and the requested frequency have changed. -/
structure TaskUpdate (R : TaskStruct → TaskStruct → Prop) (s s' : KState) : Prop where
  globals : { s' with task := s.task, cpuFreq := s.cpuFreq } = s
  task : ∀ t, R (s.task t) (s'.task t)

/-- The second record differs from the first at most in what `__sched_setscheduler` writes. -/
def PrioOnly (p q : TaskStruct) : Prop :=
  { q with
    policy := p.policy, rtPriority := p.rtPriority, normalPrio := p.normalPrio, prio := p.prio,
    schedResetOnFork := p.schedResetOnFork, needResched := p.needResched } = p

/-- The second record differs from the first at most in what `sysclock` and `pmclock` write. -/
def SpeedOnly (p q : TaskStruct) : Prop :=
  { q with alpha := p.alpha, pmclockFreq := p.pmclockFreq } = p

/-- The second record differs from the first at most in what the frequency code writes: speeds,
enforced budget, timers, and whether the task sleeps. -/
def ClockOnly (p q : TaskStruct) : Prop :=
  { q with
    alpha := p.alpha, pmclockFreq := p.pmclockFreq, budgetTime := p.budgetTime,
    computeTime := p.computeTime, budgetTimer := p.budgetTimer, periodTimer := p.periodTimer,
    state := p.state } = p

theorem PrioOnly.refl (p : TaskStruct) : PrioOnly p p := rfl

theorem PrioOnly.trans {p q r : TaskStruct} (h : PrioOnly p q) (h' : PrioOnly q r) :
    PrioOnly p r := by
  unfold PrioOnly at *
  rw [← h, ← h']

theorem SpeedOnly.refl (p : TaskStruct) : SpeedOnly p p := rfl

theorem SpeedOnly.trans {p q r : TaskStruct} (h : SpeedOnly p q) (h' : SpeedOnly q r) :
    SpeedOnly p r := by
  unfold SpeedOnly at *
  rw [← h, ← h']

theorem ClockOnly.refl (p : TaskStruct) : ClockOnly p p := rfl

theorem ClockOnly.trans {p q r : TaskStruct} (h : ClockOnly p q) (h' : ClockOnly q r) :
    ClockOnly p r := by
  unfold ClockOnly at *
  rw [← h, ← h']

theorem SpeedOnly.clockOnly {p q : TaskStruct} (h : SpeedOnly p q) : ClockOnly p q := by
  unfold SpeedOnly at h
  rw [ClockOnly, ← h]

/-- What the reservation lists depend on in a task. -/
structure TaskReg where
  tgid : Tid
  timePeriod : Timespec
  minBudgetTime : Timespec
  isBudgetSet : Bool
  exiting : Bool
  cpuNo : ℕ

/-- The part of a record the reservation lists depend on. -/
def TaskStruct.reg (p : TaskStruct) : TaskReg :=
  ⟨p.tgid, p.timePeriod, p.minBudgetTime, p.isBudgetSet, p.exiting, p.cpuNo⟩

/-- The same part, in both records. -/
def RegSame (p q : TaskStruct) : Prop := q.reg = p.reg

theorem RegSame.refl (p : TaskStruct) : RegSame p p := rfl

theorem RegSame.trans {p q r : TaskStruct} (h : RegSame p q) (h' : RegSame q r) : RegSame p r :=
  Eq.trans h' h

theorem PrioOnly.reg {p q : TaskStruct} (h : PrioOnly p q) : RegSame p q := by
  unfold PrioOnly at h
  rw [RegSame, ← h]
  rfl

theorem ClockOnly.reg {p q : TaskStruct} (h : ClockOnly p q) : RegSame p q := by
  unfold ClockOnly at h
  rw [RegSame, ← h]
  rfl

theorem RegSame.timePeriod {p q : TaskStruct} (h : RegSame p q) : q.timePeriod = p.timePeriod :=
  congrArg TaskReg.timePeriod h

section TaskUpdate

variable {R : TaskStruct → TaskStruct → Prop} {s s' s'' : KState}

theorem TaskUpdate.refl (hR : ∀ p, R p p) (s : KState) : TaskUpdate R s s := ⟨rfl, fun _ => hR _⟩

theorem TaskUpdate.trans (hR : ∀ {p q r}, R p q → R q r → R p r) (h : TaskUpdate R s s')
    (h' : TaskUpdate R s' s'') : TaskUpdate R s s'' := by
  refine ⟨?_, fun t => hR (h.task t) (h'.task t)⟩
  rw [← h.globals, ← h'.globals]

theorem TaskUpdate.links (h : TaskUpdate R s s') : s'.links = s.links := by
  rw [← h.globals]

theorem TaskUpdate.size (h : TaskUpdate R s s') : s'.periodicTasksSize = s.periodicTasksSize := by
  rw [← h.globals]

theorem TaskUpdate.pidHash (h : TaskUpdate R s s') : s'.pidHash = s.pidHash := by
  rw [← h.globals]

theorem TaskUpdate.bin (h : TaskUpdate R s s') : s'.isBinPackingSet = s.isBinPackingSet := by
  rw [← h.globals]

theorem TaskUpdate.mono {R' : TaskStruct → TaskStruct → Prop} (hR : ∀ p q, R p q → R' p q)
    (h : TaskUpdate R s s') : TaskUpdate R' s s' := ⟨h.globals, fun t => hR _ _ (h.task t)⟩

theorem taskUpdate_eachThread (hR : ∀ p, R p p) {t : Tid} {f : TaskStruct → TaskStruct}
    (hf : ∀ p, R p (f p)) : TaskUpdate R s (s.eachThread t f) := by
  refine ⟨rfl, fun u => ?_⟩
  rw [KState.eachThread_task]
  split_ifs
  · exact hf _
  · exact hR _

theorem taskUpdate_modifyTask (hR : ∀ p, R p p) {t : Tid} {f : TaskStruct → TaskStruct}
    (hf : R (s.task t) (f (s.task t))) : TaskUpdate R s (s.modifyTask t f) := by
  refine ⟨rfl, fun u => ?_⟩
  rw [KState.modifyTask_task]
  split_ifs with h
  · subst h; exact hf
  · exact hR _

/-- A fold of task updates is one. -/
theorem taskUpdate_foldl {α β : Type} (hR : ∀ p, R p p) (hT : ∀ {p q r}, R p q → R q r → R p r)
    (st : β → KState) {f : β → α → β} (hf : ∀ b a, TaskUpdate R (st b) (st (f b a))) (l : List α)
    (b : β) : TaskUpdate R (st b) (st (l.foldl f b)) := by
  induction l generalizing b with
  | nil => exact TaskUpdate.refl hR _
  | cons a l ih => exact TaskUpdate.trans hT (hf b a) (ih (f b a))

end TaskUpdate

/-- A loop that writes each of some tasks once. -/
theorem foldl_modifyTask {α : Type} (key : α → Tid) (f : α → TaskStruct → TaskStruct) {l : List α}
    (hl : (l.map key).Nodup) (s : KState) :
    (∀ x ∈ l, (l.foldl (fun s x => s.modifyTask (key x) (f x)) s).task (key x) =
      f x (s.task (key x))) ∧
    ∀ t, t ∉ l.map key → (l.foldl (fun s x => s.modifyTask (key x) (f x)) s).task t = s.task t := by
  induction l generalizing s with
  | nil => simp
  | cons y l ih =>
    rw [List.map_cons, List.nodup_cons] at hl
    obtain ⟨hmem, hother⟩ := ih hl.2 (s.modifyTask (key y) (f y))
    constructor
    · intro x hx
      rw [List.foldl_cons]
      rcases List.mem_cons.1 hx with rfl | hx
      · rw [hother _ hl.1]
        simp
      · have hne : key x ≠ key y := fun heq => hl.1 (heq ▸ List.mem_map_of_mem hx)
        rw [hmem x hx]
        simp [hne]
    · intro t ht
      rw [List.map_cons, List.mem_cons, not_or] at ht
      rw [List.foldl_cons, hother t ht.2]
      simp [ht.1]

/-- What the global list depends on. -/
structure Registry where
  task : Tid → TaskReg
  pidHash : List Tid
  periodicTasksSize : ℕ
  links : Links RtNode
  isBinPackingSet : Bool
  powerScheme : PowerScheme

/-- What the per-CPU lists consist of. -/
structure CpuRegistry where
  perCpuListSize : ℕ → ℕ
  cpuLinks : Links CpuNode

/-- The part of a state the global list depends on. -/
def KState.registry (s : KState) : Registry :=
  ⟨fun t => (s.task t).reg, s.pidHash, s.periodicTasksSize, s.links, s.isBinPackingSet,
    s.powerScheme⟩

/-- The per-CPU lists of a state. -/
def KState.cpuRegistry (s : KState) : CpuRegistry := ⟨s.perCpuListSize, s.cpuLinks⟩

/-- Neither the global list, nor a per-CPU list, nor what they depend on has changed. -/
structure Quiet (s s' : KState) : Prop where
  registry : s'.registry = s.registry
  cpuRegistry : s'.cpuRegistry = s.cpuRegistry

section Quiet

variable {s s' s'' : KState}

theorem Quiet.refl (s : KState) : Quiet s s := ⟨rfl, rfl⟩

theorem Quiet.trans (h : Quiet s s') (h' : Quiet s' s'') : Quiet s s'' :=
  ⟨h'.registry.trans h.registry, h'.cpuRegistry.trans h.cpuRegistry⟩

theorem TaskUpdate.cpuRegistry {R : TaskStruct → TaskStruct → Prop} (h : TaskUpdate R s s') :
    s'.cpuRegistry = s.cpuRegistry := by
  rw [← h.globals]
  rfl

theorem TaskUpdate.cpuUtil {R : TaskStruct → TaskStruct → Prop} (h : TaskUpdate R s s') :
    s'.cpuUtil = s.cpuUtil := by
  rw [← h.globals]

theorem TaskUpdate.quiet (h : TaskUpdate RegSame s s') : Quiet s s' := by
  have hreg : (fun t => (s'.task t).reg) = fun t => (s.task t).reg := funext h.task
  refine ⟨?_, h.cpuRegistry⟩
  simp only [KState.registry, hreg]
  rw [← h.globals]

theorem registry_task (h : s'.registry = s.registry) (t : Tid) : RegSame (s.task t) (s'.task t) :=
  congrFun (congrArg Registry.task h) t

theorem registry_pidHash (h : s'.registry = s.registry) : s'.pidHash = s.pidHash :=
  congrArg Registry.pidHash h

theorem registry_size (h : s'.registry = s.registry) :
    s'.periodicTasksSize = s.periodicTasksSize := congrArg Registry.periodicTasksSize h

theorem registry_links (h : s'.registry = s.registry) : s'.links = s.links :=
  congrArg Registry.links h

theorem registry_bin (h : s'.registry = s.registry) : s'.isBinPackingSet = s.isBinPackingSet :=
  congrArg Registry.isBinPackingSet h

theorem registry_power (h : s'.registry = s.registry) : s'.powerScheme = s.powerScheme :=
  congrArg Registry.powerScheme h

end Quiet

/-! ### Small helpers -/

/-- `EPERM`, `ESRCH`, `EFAULT` and `EINVAL`. -/
def eperm : ℤ := 1

@[inherit_doc eperm] def esrch : ℤ := 3

@[inherit_doc eperm] def efault : ℤ := 14

@[inherit_doc eperm] def einval : ℤ := 22

/-- `wake_up_process`: everything but a running or a dead task is made runnable. -/
def wakeUpProcess (p : TaskStruct) : TaskStruct :=
  match p.state with
  | .running | .dead => p
  | _ => { p with state := .running }

theorem wakeUpProcess_eq (p : TaskStruct) : ∃ state, state ≠ RunState.uninterruptible ∧
    wakeUpProcess p = { p with state := state } := by
  unfold wakeUpProcess
  split
  · exact ⟨p.state, by simp [*], rfl⟩
  · exact ⟨p.state, by simp [*], rfl⟩
  · exact ⟨.running, by simp, rfl⟩

end RtSched
