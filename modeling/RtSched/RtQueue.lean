import RtSched.Base.PrioArray
import RtSched.Guarantee
import RtSched.Priority

/-!
# The runqueue of the reserved threads (`kernel/sched_rt.c`)

`set_rt_priorities` makes the threads of the reserved tasks `SCHED_FIFO`, and from then on the real-time
class decides which of them a CPU runs.  Its runqueue is a priority array with a count and a cached
highest priority, and it is served lazily: whoever is made more urgent than the running thread only marks
that thread for a reschedule.

The model is the runqueue of one CPU and its threads, which do not migrate.  Threads of the other classes
are only known by a priority of at least `MAX_RT_PRIO`; what these classes decide among themselves is left
open.  Priority inheritance changes a priority as `sched_setscheduler` does.

* `RtRq`, `enqueueRtEntity`, `dequeueRtStack`, `incRtPrio`, `decRtPrio`: the array and its caches;
* `Rq`: `tryToWakeUp`, `setPrio`, `pickNextTask`, `schedule`, the throttling of the class;
* `RqInv`: the caches are right, and if no reschedule is pending no queued thread is more urgent than the
  running one;
* `QueueInv.pickNextTask_eq_pickNextRtEntity`: the bitmap leads to the thread that a scan of the queues
  finds;
* `runs_most_urgent`: that holds in every run, and no `BUG_ON` is hit.
-/

namespace RtSched

open Call

/-! ### The array and its caches -/

/-- `MAX_RT_PRIO`, as a number of queues. -/
def rtPrios : ℕ := 100

/-- `struct rt_rq` -/
structure RtRq where
  active : PrioArray Tid
  rtNrRunning : ℕ
  /-- `highest_prio.curr` -/
  highestPrio : ℕ
  rtThrottled : Bool
  /-- how many of the queued threads run at an inherited priority -/
  rtNrBoosted : ℕ

/-- `rt_rq_throttled` -/
def RtRq.throttled (rt : RtRq) : Bool := rt.rtThrottled && rt.rtNrBoosted == 0

/-- `inc_rt_prio` -/
def incRtPrio (prio : ℕ) (rt : RtRq) : RtRq :=
  if prio < rt.highestPrio then { rt with highestPrio := prio } else rt

/-- `dec_rt_prio` -/
def decRtPrio (prio : ℕ) (rt : RtRq) : RtRq :=
  if rt.rtNrRunning ≠ 0 then
    if prio = rt.highestPrio then { rt with highestPrio := rt.active.firstBit rtPrios } else rt
  else { rt with highestPrio := rtPrios }

/-- `inc_rt_group`, where `rt_se_boosted` is known. -/
def incRtGroup (boosted : Bool) (rt : RtRq) : RtRq :=
  { rt with rtNrBoosted := rt.rtNrBoosted + boosted.toNat }

/-- `dec_rt_group` -/
def decRtGroup (boosted : Bool) (rt : RtRq) : RtRq :=
  { rt with rtNrBoosted := rt.rtNrBoosted - boosted.toNat }

/-- `__enqueue_rt_entity` -/
def addRtEntity (head boosted : Bool) (prio : ℕ) (t : Tid) (rt : RtRq) : RtRq :=
  incRtGroup boosted (incRtPrio prio { rt with
    active := rt.active.add head prio t
    rtNrRunning := rt.rtNrRunning + 1 })

/-- `__dequeue_rt_entity` -/
def delRtEntity (boosted : Bool) (prio : ℕ) (t : Tid) (rt : RtRq) : RtRq :=
  decRtGroup boosted (decRtPrio prio { rt with
    active := rt.active.del prio t
    rtNrRunning := rt.rtNrRunning - 1 })

/-- `on_rt_rq` -/
def onRtRq (t : Tid) (rt : RtRq) : Bool :=
  (List.range rtPrios).any fun p => decide (t ∈ rt.active.queue p)

/-- `dequeue_rt_stack`, and `dequeue_rt_entity` for a thread. -/
def dequeueRtStack (boosted : Bool) (prio : ℕ) (t : Tid) (rt : RtRq) : RtRq :=
  if onRtRq t rt then delRtEntity boosted prio t rt else rt

/-- `enqueue_rt_entity` -/
def enqueueRtEntity (head boosted : Bool) (prio : ℕ) (t : Tid) (rt : RtRq) : RtRq :=
  addRtEntity head boosted prio t (dequeueRtStack boosted prio t rt)

/-- The array is in order, and the count and the highest priority are its own. -/
structure ArrayInv (prio : Tid → ℕ) (rt : RtRq) : Prop where
  wf : rt.active.Wf prio
  small : ∀ t ∈ rt.active, prio t < rtPrios
  count : rt.rtNrRunning = rt.active.size rtPrios
  highest : rt.highestPrio = rt.active.firstBit rtPrios

section Array

variable {prio prio' : Tid → ℕ} {rt : RtRq} {t : Tid} {boosted : Bool}

@[simp] theorem incRtPrio_active (p : ℕ) (rt : RtRq) : (incRtPrio p rt).active = rt.active := by
  unfold incRtPrio
  split_ifs <;> rfl

@[simp] theorem decRtPrio_active (p : ℕ) (rt : RtRq) : (decRtPrio p rt).active = rt.active := by
  unfold decRtPrio
  split_ifs <;> rfl

@[simp] theorem incRtPrio_rtNrRunning (p : ℕ) (rt : RtRq) :
    (incRtPrio p rt).rtNrRunning = rt.rtNrRunning := by
  unfold incRtPrio
  split_ifs <;> rfl

@[simp] theorem decRtPrio_rtNrRunning (p : ℕ) (rt : RtRq) :
    (decRtPrio p rt).rtNrRunning = rt.rtNrRunning := by
  unfold decRtPrio
  split_ifs <;> rfl

theorem ArrayInv.congr (h : ArrayInv prio rt) (hprio : ∀ t ∈ rt.active, prio' t = prio t) :
    ArrayInv prio' rt :=
  ⟨h.wf.congr hprio, fun t ht => by rw [hprio t ht]; exact h.small t ht, h.count, h.highest⟩

theorem ArrayInv.add (h : ArrayInv prio rt) (ht : t ∉ rt.active) (hsmall : prio t < rtPrios)
    (head : Bool) :
    ArrayInv prio (addRtEntity head boosted (prio t) t rt) := by
  constructor
  · simpa [addRtEntity, incRtGroup] using h.wf.add ht head
  · intro u hu
    simp only [addRtEntity, incRtGroup, incRtPrio_active, PrioArray.mem_add] at hu
    rcases hu with rfl | hu
    · exact hsmall
    · exact h.small u hu
  · simp [addRtEntity, incRtGroup, PrioArray.size_add head hsmall, h.count]
  · simp only [addRtEntity, incRtGroup, incRtPrio_active, PrioArray.firstBit_add head hsmall]
    simp only [incRtPrio, h.highest]
    split_ifs with hlt
    · exact (min_eq_left hlt.le).symm
    · exact (min_eq_right (not_lt.1 hlt)).symm

theorem ArrayInv.del (h : ArrayInv prio rt) (ht : t ∈ rt.active) :
    ArrayInv prio (delRtEntity boosted (prio t) t rt) := by
  have hsize := h.wf.size_del ht (h.small t ht)
  have hcount : rt.rtNrRunning - 1 = (rt.active.del (prio t) t).size rtPrios := by
    rw [h.count]
    omega
  constructor
  · simpa [delRtEntity, decRtGroup] using h.wf.del
  · intro u hu
    simp only [delRtEntity, decRtGroup, decRtPrio_active, h.wf.mem_del] at hu
    exact h.small u hu.2
  · simpa [delRtEntity, decRtGroup] using hcount
  · simp only [delRtEntity, decRtGroup, decRtPrio_active]
    simp only [decRtPrio, hcount, h.highest]
    split_ifs with hzero hsame
    · rfl
    · exact (h.wf.firstBit_del hsame).symm
    · exact (h.wf.del.firstBit_of_size (not_not.1 hzero)).symm

theorem ArrayInv.onRtRq_iff (h : ArrayInv prio rt) : onRtRq t rt = true ↔ t ∈ rt.active := by
  simp only [onRtRq, List.any_eq_true, List.mem_range, decide_eq_true_eq]
  constructor
  · rintro ⟨p, -, hp⟩
    exact ⟨p, hp⟩
  · exact fun ht => ⟨prio t, h.small t ht, h.wf.mem_iff.1 ht⟩

/-- The thread is off the queues. -/
theorem ArrayInv.dequeue (h : ArrayInv prio rt) (boosted : Bool) (t : Tid) :
    ArrayInv prio (dequeueRtStack boosted (prio t) t rt) ∧
    ∀ u, u ∈ (dequeueRtStack boosted (prio t) t rt).active ↔ u ≠ t ∧ u ∈ rt.active := by
  unfold dequeueRtStack
  split_ifs with hon
  · refine ⟨h.del (h.onRtRq_iff.1 hon), fun u => ?_⟩
    simp only [delRtEntity, decRtGroup, decRtPrio_active, h.wf.mem_del]
  · refine ⟨h, fun u => ⟨fun hu => ⟨?_, hu⟩, And.right⟩⟩
    rintro rfl
    exact hon (h.onRtRq_iff.2 hu)

/-- The thread is on the queue of its priority. -/
theorem ArrayInv.enqueue (h : ArrayInv prio rt) (hsmall : prio t < rtPrios) (head : Bool) :
    ArrayInv prio (enqueueRtEntity head boosted (prio t) t rt) ∧
      ∀ u, u ∈ (enqueueRtEntity head boosted (prio t) t rt).active ↔ u = t ∨ u ∈ rt.active := by
  obtain ⟨hoff, hmem⟩ := h.dequeue boosted t
  have hnot : t ∉ (dequeueRtStack boosted (prio t) t rt).active := fun ht => ((hmem t).1 ht).1 rfl
  refine ⟨hoff.add hnot hsmall head, fun u => ?_⟩
  simp only [enqueueRtEntity, addRtEntity, incRtGroup, incRtPrio_active, PrioArray.mem_add, hmem]
  by_cases hut : u = t
  · simp [hut]
  · simp [hut]

end Array

/-! ### The runqueue of a CPU -/

/-- `struct rq` and what it needs of its threads. -/
structure Rq where
  rt : RtRq
  curr : Tid
  prio : Tid → ℕ
  normalPrio : Tid → ℕ
  onRq : Tid → Bool
  /-- `p->state` is not `TASK_RUNNING` -/
  sleeping : Tid → Bool
  needResched : Tid → Bool

namespace Rq

variable (q : Rq)

/-- `rt_se_boosted` -/
def boosted (t : Tid) : Bool := q.prio t != q.normalPrio t

/-- `enqueue_task`; the other classes have queues of their own. -/
def enqueueTask (head : Bool) (t : Tid) : Rq :=
  if q.prio t < rtPrios then { q with rt := enqueueRtEntity head (q.boosted t) (q.prio t) t q.rt }
  else q

/-- `dequeue_task` -/
def dequeueTask (t : Tid) : Rq :=
  if q.prio t < rtPrios then { q with rt := dequeueRtStack (q.boosted t) (q.prio t) t q.rt } else q

/-- `resched_task` -/
def reschedTask (t : Tid) : Rq := { q with needResched := Function.update q.needResched t true }

/-- `check_preempt_curr`; `fair` is what the fair class decides.  The running thread does not migrate, so
one of equal priority does not preempt it. -/
def checkPreemptCurr (t : Tid) (fair : Bool) : Rq :=
  if q.prio t < rtPrios then
    if q.prio t < q.prio q.curr then q.reschedTask q.curr else q
  else if rtPrios ≤ q.prio q.curr ∧ fair = true then q.reschedTask q.curr
  else q

/-- `ttwu_do_wakeup` -/
def ttwuDoWakeup (t : Tid) (fair : Bool) : Rq :=
  let q := q.checkPreemptCurr t fair
  { q with sleeping := Function.update q.sleeping t false }

/-- `try_to_wake_up` -/
def tryToWakeUp (t : Tid) (fair : Bool) : Rq :=
  if q.sleeping t then
    if q.onRq t then q.ttwuDoWakeup t fair
    else ({ q.enqueueTask false t with onRq := Function.update q.onRq t true }).ttwuDoWakeup t fair
  else q

/-- `switched_to_rt` -/
def switchedToRt (t : Tid) : Rq :=
  if q.onRq t = true ∧ q.curr ≠ t ∧ q.prio t < q.prio q.curr then q.reschedTask q.curr else q

/-- `switched_to_fair` -/
def switchedToFair (t : Tid) (fair : Bool) : Rq :=
  if q.onRq t = false then q
  else if q.curr = t then q.reschedTask q.curr
  else q.checkPreemptCurr t fair

/-- `prio_changed_rt` -/
def prioChangedRt (t : Tid) : Rq :=
  if q.onRq t = false then q
  else if q.curr = t then
    if q.rt.highestPrio < q.prio t then q.reschedTask t else q
  else if q.prio t < q.prio q.curr then q.reschedTask q.curr
  else q

/-- `prio_changed_fair` -/
def prioChangedFair (t : Tid) (oldprio : ℕ) (fair : Bool) : Rq :=
  if q.onRq t = false then q
  else if q.curr = t then
    if oldprio < q.prio t then q.reschedTask q.curr else q
  else q.checkPreemptCurr t fair

/-- `check_class_changed` -/
def checkClassChanged (t : Tid) (oldprio : ℕ) (fair : Bool) : Rq :=
  if oldprio < rtPrios then
    if q.prio t < rtPrios then
      if oldprio ≠ q.prio t then q.prioChangedRt t else q
    else q.switchedToFair t fair
  else if q.prio t < rtPrios then q.switchedToRt t
  else if oldprio ≠ q.prio t then q.prioChangedFair t oldprio fair
  else q

/-- `__setscheduler` -/
def writePrio (t : Tid) (prio normal : ℕ) : Rq :=
  { q with
    prio := Function.update q.prio t prio
    normalPrio := Function.update q.normalPrio t normal }

/-- The end of `__sched_setscheduler`, and `rt_mutex_setprio`, which leaves the normal priority as it is
and may put the thread at the head. -/
def setPrio (t : Tid) (prio normal : ℕ) (head fair : Bool) : Rq :=
  let oldprio := q.prio t
  let q := if q.onRq t then q.dequeueTask t else q
  let q := q.writePrio t prio normal
  let q := if q.onRq t then q.enqueueTask head t else q
  q.checkClassChanged t oldprio fair

/-- `pick_next_task`; `other` is what the classes below choose.  Nothing where a `BUG_ON` is hit. -/
def pickNextTask (other : Tid) : Option Tid :=
  if q.rt.rtNrRunning ≠ 0 ∧ q.rt.throttled = false then q.rt.active.first rtPrios else some other

/-- The first part of `__schedule`. -/
def deactivatePrev (preemptActive signalPending : Bool) : Rq :=
  if q.sleeping q.curr = true ∧ preemptActive = false then
    if signalPending then { q with sleeping := Function.update q.sleeping q.curr false }
    else { q.dequeueTask q.curr with onRq := Function.update q.onRq q.curr false }
  else q

def setThrottled (throttled : Bool) : Rq := { q with rt := { q.rt with rtThrottled := throttled } }

/-- `sched_rt_runtime_exceeded`, and what `update_curr_rt` does then. -/
def throttle : Rq :=
  let q := q.setThrottled true
  if q.rt.throttled = true then q.reschedTask q.curr else q

/-- `sched_rt_rq_enqueue`, when the class is no longer throttled. -/
def unthrottle : Rq :=
  let q := q.setThrottled false
  if q.rt.rtNrRunning ≠ 0 ∧ q.rt.highestPrio < q.prio q.curr then q.reschedTask q.curr else q

end Rq

/-- What can happen on the CPU. -/
inductive RqEvent
  | wakeUp (t : Tid) (fair : Bool)
  | setPrio (t : Tid) (prio normal : ℕ) (head fair : Bool)
  /-- the state of a thread is written, by itself or for its budget -/
  | setState (t : Tid) (sleeping : Bool)
  /-- `set_tsk_need_resched` -/
  | setNeedResched (t : Tid)
  | schedule (preemptActive signalPending : Bool) (other : Tid)
  /-- `sched_yield` of the running thread -/
  | yield
  /-- the class has used up its time, and gets it back -/
  | throttle
  | unthrottle

namespace Rq

variable (q : Rq)

/-- An event; the only one that does not come through is a `__schedule` that finds the array out of
order. -/
def exec : RqEvent → Call Rq (Rq × Unit)
  | .wakeUp t fair => pure (q.tryToWakeUp t fair, ())
  | .setPrio t prio normal head fair => pure (q.setPrio t prio normal head fair, ())
  | .setState t sleeping => pure ({ q with sleeping := Function.update q.sleeping t sleeping }, ())
  | .setNeedResched t => pure (q.reschedTask t, ())
  | .schedule preemptActive signalPending other =>
      let q' := q.deactivatePrev preemptActive signalPending
      match q'.pickNextTask other with
      | some next => pure ({ q' with
          needResched := Function.update q'.needResched q.curr false
          curr := next }, ())
      | none => .error (.oops, q')
  | .yield =>
      if q.prio q.curr < rtPrios then
        pure ({ q with rt := { q.rt with active := q.rt.active.requeue (q.prio q.curr) q.curr } }, ())
      else pure (q, ())
  | .throttle => pure (q.throttle, ())
  | .unthrottle => pure (q.unthrottle, ())

/-- The classes below choose among their own threads, one of which, the idle thread, is always there. -/
def Can : RqEvent → Prop
  | .schedule preemptActive signalPending other =>
      (q.deactivatePrev preemptActive signalPending).onRq other = true ∧ rtPrios ≤ q.prio other
  | _ => True

end Rq

/-- The states from `q₀` on. -/
def RqRun (q₀ : Rq) : Rq → Prop := Reach (fun q => q = q₀) Rq.Can Rq.exec

/-! ### The invariant -/

/-- The array has the threads of the class that are on the runqueue. -/
structure QueueInv (q : Rq) : Prop where
  array : ArrayInv q.prio q.rt
  queued : ∀ t, t ∈ q.rt.active ↔ q.onRq t = true ∧ q.prio t < rtPrios

/-- If no reschedule is pending, no queued thread but perhaps one is more urgent than the running one. -/
def Urgent (q : Rq) (except : Option Tid) : Prop :=
  q.needResched q.curr = false → q.rt.rtThrottled = false →
    ∀ u ∈ q.rt.active, some u ≠ except → q.prio q.curr ≤ q.prio u

structure RqInv (q : Rq) : Prop extends QueueInv q where
  current : q.onRq q.curr = true
  urgent : Urgent q none

/-- Nothing but marks for a reschedule. -/
structure Marked (q q' : Rq) : Prop where
  rt : q'.rt = q.rt
  prio : q'.prio = q.prio
  onRq : q'.onRq = q.onRq
  curr : q'.curr = q.curr
  keeps : ∀ t, q.needResched t = true → q'.needResched t = true

section Marked

variable {q q' : Rq} {t : Tid} {fair : Bool} {oldprio : ℕ} {except : Option Tid}

theorem Marked.refl (q : Rq) : Marked q q := ⟨rfl, rfl, rfl, rfl, fun _ => id⟩

theorem marked_reschedTask (q : Rq) (t : Tid) : Marked q (q.reschedTask t) := by
  refine ⟨rfl, rfl, rfl, rfl, fun u hu => ?_⟩
  by_cases hut : u = t
  · simp [Rq.reschedTask, hut]
  · simpa [Rq.reschedTask, hut] using hu

theorem marked_checkPreemptCurr (q : Rq) (t : Tid) (fair : Bool) :
    Marked q (q.checkPreemptCurr t fair) := by
  unfold Rq.checkPreemptCurr
  split_ifs
  all_goals first | exact marked_reschedTask q _ | exact Marked.refl q

theorem marked_checkClassChanged (q : Rq) (t : Tid) (oldprio : ℕ) (fair : Bool) :
    Marked q (q.checkClassChanged t oldprio fair) := by
  unfold Rq.checkClassChanged Rq.prioChangedRt Rq.switchedToFair Rq.switchedToRt Rq.prioChangedFair
  split_ifs
  all_goals first | exact marked_reschedTask q _ | exact marked_checkPreemptCurr q t fair |
    exact Marked.refl q

theorem QueueInv.marked (h : QueueInv q) (hm : Marked q q') : QueueInv q' := by
  constructor
  · rw [hm.prio, hm.rt]
    exact h.array
  · rw [hm.prio, hm.rt, hm.onRq]
    exact h.queued

theorem Urgent.marked (h : Urgent q except) (hm : Marked q q') : Urgent q' except := by
  intro hneed hthrottled
  rw [hm.curr] at hneed
  rw [hm.rt] at hthrottled ⊢
  rw [hm.prio, hm.curr]
  refine h ?_ hthrottled
  by_contra hset
  rw [hm.keeps _ (Bool.eq_true_of_not_eq_false hset)] at hneed
  cases hneed

/-- A running thread that is marked is not asked for anything. -/
theorem urgent_reschedTask (q : Rq) : Urgent (q.reschedTask q.curr) except := by
  intro hneed
  simp [Rq.reschedTask] at hneed

/-- The exception is not more urgent, or not queued. -/
theorem Urgent.drop (h : Urgent q (some t)) (hle : t ∈ q.rt.active → q.prio q.curr ≤ q.prio t) :
    Urgent q none := by
  intro hneed hthrottled u hu _
  by_cases hut : u = t
  · subst hut
    exact hle hu
  · exact h hneed hthrottled u hu fun heq => hut (Option.some.inj heq)

/-- `check_preempt_curr` takes care of the one thread that may be more urgent. -/
theorem Urgent.checkPreemptCurr (h : Urgent q (some t)) (hq : QueueInv q) :
    Urgent (q.checkPreemptCurr t fair) none := by
  unfold Rq.checkPreemptCurr
  split_ifs with hrt hlt
  · exact urgent_reschedTask q
  · exact h.drop fun _ => not_lt.1 hlt
  · exact urgent_reschedTask q
  · exact h.drop fun ht => absurd ((hq.queued t).1 ht).2 hrt

section Other

variable (h : Urgent q (some t)) (hq : QueueInv q)

include h hq

theorem urgent_of_off (hoff : q.onRq t = false) : Urgent q none := by
  refine h.drop fun ht => ?_
  rw [((hq.queued t).1 ht).1] at hoff
  cases hoff

theorem urgent_prioChangedRt (hne : q.curr ≠ t) : Urgent (q.prioChangedRt t) none := by
  unfold Rq.prioChangedRt
  split_ifs with hoff hlt
  · exact urgent_of_off h hq hoff
  · exact urgent_reschedTask q
  · exact h.drop fun _ => not_lt.1 hlt

theorem urgent_switchedToRt (hne : q.curr ≠ t) : Urgent (q.switchedToRt t) none := by
  unfold Rq.switchedToRt
  split_ifs with hlt
  · exact urgent_reschedTask q
  · refine h.drop fun ht => ?_
    by_contra hgt
    exact hlt ⟨((hq.queued t).1 ht).1, hne, not_le.1 hgt⟩

theorem urgent_switchedToFair (hne : q.curr ≠ t) : Urgent (q.switchedToFair t fair) none := by
  unfold Rq.switchedToFair
  split_ifs with hoff
  · exact urgent_of_off h hq hoff
  · exact h.checkPreemptCurr hq

theorem urgent_prioChangedFair (hne : q.curr ≠ t) :
    Urgent (q.prioChangedFair t oldprio fair) none := by
  unfold Rq.prioChangedFair
  split_ifs with hoff
  · exact urgent_of_off h hq hoff
  · exact h.checkPreemptCurr hq

/-- The class is told about a thread that does not run. -/
theorem urgent_checkClassChanged (hne : q.curr ≠ t) (hsame : oldprio = q.prio t → Urgent q none) :
    Urgent (q.checkClassChanged t oldprio fair) none := by
  unfold Rq.checkClassChanged
  split_ifs with hold hnew hchanged hnew hchanged
  · exact urgent_prioChangedRt h hq hne
  · exact hsame (not_not.1 hchanged)
  · exact urgent_switchedToFair h hq hne
  · exact urgent_switchedToRt h hq hne
  · exact urgent_prioChangedFair h hq hne
  · exact hsame (not_not.1 hchanged)

end Other

/-- The class is told about the running thread; `hfair` is about one that was not of the class. -/
theorem urgent_checkClassChanged_curr (hq : QueueInv q) (hcurr : q.onRq q.curr = true)
    (hsame : oldprio = q.prio q.curr → Urgent q none)
    (hfair : rtPrios ≤ oldprio → q.needResched q.curr = false → q.rt.rtThrottled = false →
      ∀ u ∈ q.rt.active, u = q.curr) :
    Urgent (q.checkClassChanged q.curr oldprio fair) none := by
  have halone : rtPrios ≤ oldprio → Urgent q none := by
    intro hold hneed hthrottled u hu _
    rw [hfair hold hneed hthrottled u hu]
  have hlow : ¬ q.rt.highestPrio < q.prio q.curr → Urgent q none := by
    intro hlt _ _ u hu _
    refine (not_lt.1 hlt).trans ?_
    rw [hq.array.highest]
    exact hq.array.wf.firstBit_le hu
  unfold Rq.checkClassChanged Rq.prioChangedRt Rq.switchedToFair Rq.prioChangedFair
  simp only [hcurr, Bool.true_eq_false, if_true, if_false]
  split_ifs with hold hnew hchanged hlt hnew hchanged hlt
  · exact urgent_reschedTask q
  · exact hlow hlt
  · exact hsame (not_not.1 hchanged)
  · exact urgent_reschedTask q
  · exact (halone (not_lt.1 hold)).marked (by
      unfold Rq.switchedToRt
      split_ifs
      · exact marked_reschedTask q _
      · exact Marked.refl q)
  · exact urgent_reschedTask q
  · exact halone (not_lt.1 hold)
  · exact halone (not_lt.1 hold)

end Marked

section Step

variable {q q' q₀ : Rq} {t : Tid} {fair : Bool} {e : RqEvent}

/-- `t` is put on the runqueue. -/
theorem QueueInv.enqueue (h : ArrayInv q.prio q.rt)
    (hq : ∀ u, u ≠ t → (u ∈ q.rt.active ↔ q.onRq u = true ∧ q.prio u < rtPrios))
    (hoff : t ∉ q.rt.active) (head : Bool) :
    QueueInv { q.enqueueTask head t with onRq := Function.update q.onRq t true } ∧
      ∀ u ∈ (q.enqueueTask head t).rt.active, u ≠ t → u ∈ q.rt.active := by
  unfold Rq.enqueueTask
  split_ifs with hrt
  · obtain ⟨harray, hmem⟩ := h.enqueue hrt head
    refine ⟨⟨harray, fun u => ?_⟩, fun u hu hut => ((hmem u).1 hu).resolve_left hut⟩
    rw [hmem u]
    by_cases hut : u = t
    · simp [hut, hrt]
    · simp [hut, hq u hut]
  · refine ⟨⟨h, fun u => ?_⟩, fun u hu _ => hu⟩
    by_cases hut : u = t
    · subst hut
      simp [hoff, hrt]
    · simpa [hut] using hq u hut

/-- `t` is taken off the array. -/
theorem QueueInv.dequeue (h : QueueInv q) (t : Tid) : ArrayInv q.prio (q.dequeueTask t).rt ∧
    ∀ u, u ∈ (q.dequeueTask t).rt.active ↔ u ≠ t ∧ u ∈ q.rt.active := by
  unfold Rq.dequeueTask
  split_ifs with hrt
  · exact h.array.dequeue _ t
  · refine ⟨h.array, fun u => ⟨fun hu => ⟨?_, hu⟩, And.right⟩⟩
    rintro rfl
    exact hrt ((h.queued u).1 hu).2

theorem enqueueRtEntity_rtThrottled (head boosted : Bool) (p : ℕ) (t : Tid) (rt : RtRq) :
    (enqueueRtEntity head boosted p t rt).rtThrottled = rt.rtThrottled := by
  unfold enqueueRtEntity addRtEntity incRtGroup incRtPrio dequeueRtStack delRtEntity decRtGroup decRtPrio
  split_ifs <;> rfl

theorem dequeueRtStack_rtThrottled (boosted : Bool) (p : ℕ) (t : Tid) (rt : RtRq) :
    (dequeueRtStack boosted p t rt).rtThrottled = rt.rtThrottled := by
  unfold dequeueRtStack delRtEntity decRtGroup decRtPrio
  split_ifs <;> rfl

/-- Only the array changes. -/
theorem enqueueTask_eq (q : Rq) (head : Bool) (t : Tid) :
    ∃ rt, q.enqueueTask head t = { q with rt := rt } ∧ rt.rtThrottled = q.rt.rtThrottled := by
  unfold Rq.enqueueTask
  split_ifs
  · exact ⟨_, rfl, enqueueRtEntity_rtThrottled _ _ _ _ _⟩
  · exact ⟨q.rt, rfl, rfl⟩

theorem dequeueTask_eq (q : Rq) (t : Tid) :
    ∃ rt, q.dequeueTask t = { q with rt := rt } ∧ rt.rtThrottled = q.rt.rtThrottled := by
  unfold Rq.dequeueTask
  split_ifs
  · exact ⟨_, rfl, dequeueRtStack_rtThrottled _ _ _ _⟩
  · exact ⟨q.rt, rfl, rfl⟩

theorem Urgent.weaken {except : Option Tid} (h : Urgent q none) : Urgent q except :=
  fun hneed hthrottled u hu _ => h hneed hthrottled u hu (Option.some_ne_none u)

theorem RqInv.checkPreemptCurr (hq : QueueInv q) (hcurr : q.onRq q.curr = true)
    (hurgent : Urgent q (some t)) : RqInv (q.checkPreemptCurr t fair) := by
  have hm := marked_checkPreemptCurr q t fair
  refine ⟨hq.marked hm, ?_, hurgent.checkPreemptCurr hq⟩
  rw [hm.onRq, hm.curr]
  exact hcurr

theorem RqInv.wakeUp (h : RqInv q) : RqInv (q.tryToWakeUp t fair) := by
  have hsleep : ∀ {q : Rq} {sleeping : Tid → Bool}, RqInv q → RqInv { q with sleeping := sleeping } :=
    fun h => ⟨⟨h.array, h.queued⟩, h.current, h.urgent⟩
  unfold Rq.tryToWakeUp
  split_ifs with hs hon
  · exact hsleep (RqInv.checkPreemptCurr h.toQueueInv h.current h.urgent.weaken)
  · have hnot : t ∉ q.rt.active := fun ht => hon ((h.queued t).1 ht).1
    obtain ⟨hq, hold⟩ := QueueInv.enqueue h.array (fun u _ => h.queued u) hnot false
    obtain ⟨rt, heq, hthrottled⟩ := enqueueTask_eq q false t
    rw [heq] at hq hold ⊢
    refine hsleep (RqInv.checkPreemptCurr hq ?_ ?_)
    · by_cases hct : q.curr = t
      · simp [hct]
      · simpa [hct] using h.current
    · intro hneed hth u hu hut
      have hne : u ≠ t := fun hut' => hut (congrArg some hut')
      exact h.urgent hneed (hthrottled.symm.trans hth) u (hold u hu hne) (Option.some_ne_none u)
  · exact h

section WritePrio

variable (q : Rq) (t : Tid) (prio normal : ℕ)

@[simp] theorem writePrio_rt : (q.writePrio t prio normal).rt = q.rt := rfl

@[simp] theorem writePrio_curr : (q.writePrio t prio normal).curr = q.curr := rfl

@[simp] theorem writePrio_onRq : (q.writePrio t prio normal).onRq = q.onRq := rfl

@[simp] theorem writePrio_prio : (q.writePrio t prio normal).prio = Function.update q.prio t prio := rfl

end WritePrio

/-- Another priority for a thread that is not on the runqueue. -/
theorem RqInv.setPrio_off (h : RqInv q) (hoff : q.onRq t = false) (prio normal : ℕ) (head : Bool) :
    RqInv (q.setPrio t prio normal head fair) := by
  have hnot : t ∉ q.rt.active := fun ht => Bool.noConfusion (hoff.symm.trans ((h.queued t).1 ht).1)
  have hne : q.curr ≠ t := fun hct => Bool.noConfusion (hoff.symm.trans (hct ▸ h.current))
  have hmem : ∀ u ∈ q.rt.active, u ≠ t := fun u hu hut => hnot (hut ▸ hu)
  have hq : QueueInv (q.writePrio t prio normal) := by
    refine ⟨h.array.congr fun u hu => Function.update_of_ne (hmem u hu) _ _, fun u => ?_⟩
    by_cases hut : u = t
    · subst hut
      simp [hnot, hoff]
    · simpa [hut] using h.queued u
  have hurgent : Urgent (q.writePrio t prio normal) none := by
    intro hneed hthrottled u hu hn
    simpa [hne, hmem u hu] using h.urgent hneed hthrottled u hu hn
  have hm := marked_checkClassChanged (q.writePrio t prio normal) t (q.prio t) fair
  simp only [Rq.setPrio, hoff, writePrio_onRq, Bool.false_eq_true, if_false]
  refine ⟨hq.marked hm, ?_, urgent_checkClassChanged hurgent.weaken hq hne fun _ => hurgent⟩
  rw [hm.onRq, hm.curr]
  exact h.current

/-- Another priority for a thread that is on the runqueue. -/
theorem RqInv.setPrio_on (h : RqInv q) (hon : q.onRq t = true) (prio normal : ℕ) (head : Bool) :
    RqInv (q.setPrio t prio normal head fair) := by
  obtain ⟨hoff, hleft⟩ := h.toQueueInv.dequeue t
  obtain ⟨rt₁, heq₁, hthrottled₁⟩ := dequeueTask_eq q t
  rw [heq₁] at hoff hleft
  -- the thread is off the array while its priority changes
  have hprio : ∀ u ∈ rt₁.active, Function.update q.prio t prio u = q.prio u := fun u hu =>
    Function.update_of_ne ((hleft u).1 hu).1 _ _
  obtain ⟨hput, hold⟩ := QueueInv.enqueue
    (q := ({ q with rt := rt₁ }).writePrio t prio normal) (t := t)
    (hoff.congr hprio)
    (fun u hut => by simpa [hut, (hleft u)] using h.queued u)
    (fun ht => ((hleft t).1 ht).1 rfl) head
  obtain ⟨rt₂, heq₂, hthrottled₂⟩ :=
    enqueueTask_eq (({ q with rt := rt₁ }).writePrio t prio normal) head t
  have hset : q.setPrio t prio normal head fair =
      (({ q with rt := rt₂ }).writePrio t prio normal).checkClassChanged t (q.prio t) fair := by
    simp only [Rq.setPrio, hon, writePrio_onRq, if_true, heq₁, heq₂]
    rfl
  rw [heq₂] at hput hold
  have hself : Function.update q.onRq t true = q.onRq := by rw [← hon, Function.update_eq_self]
  have hq : QueueInv (({ q with rt := rt₂ }).writePrio t prio normal) := by
    refine ⟨hput.array, fun u => ?_⟩
    have hu : u ∈ rt₂.active ↔ Function.update q.onRq t true u = true ∧
        Function.update q.prio t prio u < rtPrios := hput.queued u
    rwa [hself] at hu
  have hmember : ∀ u ∈ rt₂.active, u ≠ t → u ∈ q.rt.active := fun u hu hut =>
    ((hleft u).1 (hold u hu hut)).2
  have hthrottled : rt₂.rtThrottled = q.rt.rtThrottled := hthrottled₂.trans hthrottled₁
  have hm := marked_checkClassChanged (({ q with rt := rt₂ }).writePrio t prio normal) t
    (q.prio t) fair
  rw [hset]
  refine ⟨hq.marked hm, ?_, ?_⟩
  · rw [hm.onRq, hm.curr]
    exact h.current
  -- with the priority it had, the thread is where it was
  have hsame : q.prio t = Function.update q.prio t prio t →
      Urgent (({ q with rt := rt₂ }).writePrio t prio normal) none := by
    intro hprio' hneed hth u hu hn
    have hback : Function.update q.prio t prio = q.prio := by
      rw [Function.update_self] at hprio'
      rw [← hprio', Function.update_eq_self]
    have hu' : u ∈ q.rt.active := by
      refine (h.queued u).2 ?_
      have hu' := (hq.queued u).1 hu
      rwa [writePrio_prio, hback] at hu'
    rw [writePrio_prio, hback]
    exact h.urgent hneed (hthrottled.symm.trans hth) u hu' hn
  by_cases hct : q.curr = t
  · subst hct
    refine urgent_checkClassChanged_curr hq h.current hsame fun hfair hneed hth u hu => ?_
    by_contra hne
    have hu' := hmember u hu hne
    have hle := h.urgent hneed (hthrottled.symm.trans hth) u hu' (Option.some_ne_none u)
    exact absurd ((h.queued u).1 hu').2 (not_lt.2 (hfair.trans hle))
  · refine urgent_checkClassChanged ?_ hq hct hsame
    intro hneed hth u hu hut
    have hne : u ≠ t := fun hut' => hut (congrArg some hut')
    simpa [hct, hne] using
      h.urgent hneed (hthrottled.symm.trans hth) u (hmember u hu hne) (Option.some_ne_none u)

/-- The running thread leaves the runqueue, or stays. -/
theorem QueueInv.deactivatePrev (h : QueueInv q) (preemptActive signalPending : Bool) :
    QueueInv (q.deactivatePrev preemptActive signalPending) := by
  unfold Rq.deactivatePrev
  split_ifs
  · exact ⟨h.array, h.queued⟩
  · obtain ⟨hoff, hleft⟩ := h.dequeue q.curr
    obtain ⟨rt, heq, -⟩ := dequeueTask_eq q q.curr
    rw [heq] at hoff hleft ⊢
    refine ⟨hoff, fun u => (hleft u).trans ?_⟩
    by_cases hut : u = q.curr
    · simp [hut]
    · simp [hut, h.queued u]
  · exact h

/-- A runqueue that counts a thread has one. -/
theorem QueueInv.exists_queued (h : QueueInv q) (hrun : q.rt.rtNrRunning ≠ 0) :
    ∃ x ∈ q.rt.active, q.prio x < rtPrios := by
  by_contra hnone
  push Not at hnone
  exact hrun (h.array.count.trans (h.array.wf.size_eq_zero_iff.2 hnone))

/-- The scan of the queues in `pick_next_rt_entity` and the first bit of the bitmap lead to the same
thread. -/
theorem QueueInv.pickNextTask_eq_pickNextRtEntity (h : QueueInv q) (other : Tid)
    (hrun : q.rt.rtNrRunning ≠ 0) (hth : q.rt.throttled = false) :
    q.pickNextTask other = pickNextRtEntity q.rt.active.queue rtPrios 0 := by
  have hbit := h.array.wf.bit
  obtain ⟨x, hx, hlt⟩ := h.exists_queued hrun
  have hfirst : q.rt.active.firstBit rtPrios < rtPrios :=
    (h.array.wf.firstBit_le hx).trans_lt hlt
  have hempty : ∀ i, i < q.rt.active.firstBit rtPrios → q.rt.active.queue i = [] := by
    intro i hi
    by_contra hne
    have hset := (hbit i).2 hne
    rw [PrioArray.firstBit_eq_of_lt hi] at hset
    cases hset
  have hne := (hbit _).1 (PrioArray.bitmap_firstBit hfirst)
  rw [Rq.pickNextTask, if_pos ⟨hrun, hth⟩, PrioArray.first,
    pickNextRtEntity_eq (Nat.zero_le _) (by omega) hempty hne]

/-- `pick_next_task` finds a thread of the runqueue, and none is more urgent. -/
theorem QueueInv.pickNextTask (h : QueueInv q) {other : Tid} (hother : q.onRq other = true) :
    ∃ next, q.pickNextTask other = some next ∧ q.onRq next = true ∧
      (q.rt.rtThrottled = false → ∀ u ∈ q.rt.active, q.prio next ≤ q.prio u) := by
  unfold Rq.pickNextTask
  split_ifs with hrt
  · obtain ⟨x, hx, hlt⟩ := h.exists_queued hrt.1
    obtain ⟨next, hfirst, hnext, hprio⟩ := h.array.wf.first_spec hx hlt
    refine ⟨next, hfirst, ((h.queued next).1 hnext).1, fun _ u hu => ?_⟩
    rw [hprio]
    exact h.array.wf.firstBit_le hu
  · refine ⟨other, rfl, hother, fun hth u hu => ?_⟩
    have hzero : q.rt.active.size rtPrios = 0 := by
      rw [← h.array.count]
      by_contra hne
      exact hrt ⟨hne, by rw [RtRq.throttled, hth, Bool.false_and]⟩
    exact absurd (h.array.small u hu) (not_lt.2 (h.array.wf.size_eq_zero_iff.1 hzero u hu))

/-- A `__schedule` comes through, and then the most urgent thread runs. -/
theorem RqInv.schedule (h : RqInv q) {preemptActive signalPending : Bool} {other : Tid}
    (hcan : q.Can (.schedule preemptActive signalPending other)) :
    ∃ q', q.exec (.schedule preemptActive signalPending other) = .ok (q', ()) ∧ RqInv q' := by
  have hq := h.toQueueInv.deactivatePrev preemptActive signalPending
  obtain ⟨next, hpick, hon, hurgent⟩ := hq.pickNextTask hcan.1
  rw [Rq.exec, hpick]
  exact ⟨_, rfl, ⟨hq.array, hq.queued⟩, hon, fun _ hth u hu _ => hurgent hth u hu⟩

theorem RqInv.yield (h : RqInv q) {rt : RtRq}
    (hrt : rt = { q.rt with active := q.rt.active.requeue (q.prio q.curr) q.curr }) :
    RqInv { q with rt := rt } := by
  subst hrt
  have hmem : ∀ u, u ∈ q.rt.active.requeue (q.prio q.curr) q.curr ↔ u ∈ q.rt.active :=
    fun u => PrioArray.mem_requeue
  refine ⟨⟨⟨h.array.wf.requeue, fun u hu => h.array.small u ((hmem u).1 hu), ?_, ?_⟩, ?_⟩,
    h.current, ?_⟩
  · exact h.array.count.trans PrioArray.size_requeue.symm
  · exact h.array.highest.trans PrioArray.firstBit_requeue.symm
  · exact fun u => (hmem u).trans (h.queued u)
  · exact fun hneed hth u hu hn => h.urgent hneed hth u ((hmem u).1 hu) hn

theorem QueueInv.setThrottled (h : QueueInv q) (throttled : Bool) : QueueInv (q.setThrottled throttled) :=
  ⟨⟨h.array.wf, h.array.small, h.array.count, h.array.highest⟩, h.queued⟩

theorem RqInv.throttle (h : RqInv q) : RqInv q.throttle := by
  have hq := h.toQueueInv.setThrottled true
  simp only [Rq.throttle]
  split_ifs
  · exact ⟨hq.marked (marked_reschedTask _ _), h.current, urgent_reschedTask _⟩
  · exact ⟨hq, h.current, fun _ hth => Bool.noConfusion hth⟩

/-- When the class may run again, its first thread is compared with the running one. -/
theorem RqInv.unthrottle (h : RqInv q) : RqInv q.unthrottle := by
  have hq := h.toQueueInv.setThrottled false
  simp only [Rq.unthrottle]
  split_ifs with hlt
  · exact ⟨hq.marked (marked_reschedTask _ _), h.current, urgent_reschedTask _⟩
  · refine ⟨hq, h.current, fun _ _ u hu _ => ?_⟩
    have hne : q.rt.rtNrRunning ≠ 0 := by
      intro hzero
      have hsize := h.array.count.symm.trans hzero
      exact absurd (h.array.small u hu) (not_lt.2 (h.array.wf.size_eq_zero_iff.1 hsize u hu))
    have hle : q.prio q.curr ≤ q.rt.highestPrio := not_lt.1 fun hgt => hlt ⟨hne, hgt⟩
    rw [h.array.highest] at hle
    exact hle.trans (h.array.wf.firstBit_le hu)

/-- Every event comes through and keeps the invariant. -/
theorem RqInv.step (h : RqInv q) (hcan : q.Can e) : ∃ q', q.exec e = .ok (q', ()) ∧ RqInv q' := by
  cases e with
  | wakeUp t fair => exact ⟨_, rfl, h.wakeUp⟩
  | setPrio t prio normal head fair =>
    refine ⟨_, rfl, ?_⟩
    cases hon : q.onRq t with
    | false => exact h.setPrio_off hon prio normal head
    | true => exact h.setPrio_on hon prio normal head
  | setState t sleeping => exact ⟨_, rfl, ⟨h.array, h.queued⟩, h.current, h.urgent⟩
  | setNeedResched t =>
    have hm := marked_reschedTask q t
    exact ⟨_, rfl, h.toQueueInv.marked hm, h.current, h.urgent.marked hm⟩
  | schedule preemptActive signalPending other => exact h.schedule hcan
  | yield =>
    unfold Rq.exec
    split_ifs
    · exact ⟨_, rfl, h.yield rfl⟩
    · exact ⟨_, rfl, h⟩
  | throttle => exact ⟨_, rfl, h.throttle⟩
  | unthrottle => exact ⟨_, rfl, h.unthrottle⟩

/-- The runqueue of a CPU that has come up (`init_rt_rq`, `init_idle`): the idle thread runs. -/
structure BootedRq (q : Rq) : Prop where
  empty : ∀ p, q.rt.active.queue p = [] ∧ q.rt.active.bitmap p = false
  count : q.rt.rtNrRunning = 0
  highest : q.rt.highestPrio = rtPrios
  idle : ∀ t, q.onRq t = true ↔ t = q.curr
  low : rtPrios ≤ q.prio q.curr

theorem BootedRq.inv (h : BootedRq q) : RqInv q := by
  have hnone : ∀ t, t ∉ q.rt.active := by
    rintro t ⟨p, hp⟩
    rw [(h.empty p).1] at hp
    cases hp
  have hwf : q.rt.active.Wf q.prio := by
    refine ⟨fun p => ?_, fun p t ht => absurd ⟨p, ht⟩ (hnone t), fun p => ?_⟩
    · simp [h.empty p]
    · simp [h.empty p]
  have hsize : q.rt.active.size rtPrios = 0 :=
    hwf.size_eq_zero_iff.2 fun t ht => absurd ht (hnone t)
  refine ⟨⟨⟨hwf, fun t ht => absurd ht (hnone t), h.count.trans hsize.symm, ?_⟩, fun t => ?_⟩,
    (h.idle _).2 rfl, fun _ _ u hu => absurd hu (hnone u)⟩
  · exact h.highest.trans (hwf.firstBit_of_size hsize).symm
  · refine iff_of_false (hnone t) fun ht => ?_
    rw [(h.idle t).1 ht.1] at ht
    exact absurd ht.2 (not_lt.2 h.low)

theorem RqInv.run (h : RqInv q₀) (hrun : RqRun q₀ q) : RqInv q := by
  refine Reach.inv (I := RqInv) (E := fun _ => False) ?_ ?_ hrun
  · rintro q rfl
    exact h
  · intro q e hq hcan
    obtain ⟨q', hexec, hq'⟩ := hq.step hcan
    rw [hexec]
    exact hq'

end Step

/-- **The most urgent thread runs.**  On a CPU that has come up, in every run, no `__schedule` hits a
`BUG_ON`; and whenever no reschedule is pending for the running thread and the real-time class is not
throttled, none of its threads on the runqueue is more urgent than the running one. -/
theorem runs_most_urgent {q₀ q : Rq} (h₀ : BootedRq q₀) (hrun : RqRun q₀ q) :
    (∀ e, q.Can e → ∃ q', q.exec e = .ok (q', ())) ∧
    (q.needResched q.curr = false → q.rt.rtThrottled = false →
      ∀ u, q.onRq u = true → q.prio u < rtPrios → q.prio q.curr ≤ q.prio u) := by
  have h := h₀.inv.run hrun
  refine ⟨fun e hcan => ?_, fun hneed hth u hon hrt => ?_⟩
  · obtain ⟨q', hexec, -⟩ := h.step hcan
    exact ⟨q', hexec⟩
  · exact h.urgent hneed hth u ((h.queued u).2 ⟨hon, hrt⟩) (Option.some_ne_none u)

instance (q : Rq) (e : RqEvent) : Decidable (q.Can e) := by
  cases e <;> unfold Rq.Can <;> infer_instance

/-- The idle thread 0 alone; threads 1 and 2 sleep. -/
def idleRq : Rq where
  rt := {
    active := { queue := fun _ => [], bitmap := fun _ => false }
    rtNrRunning := 0
    highestPrio := rtPrios
    rtThrottled := false
    rtNrBoosted := 0 }
  curr := 0
  prio := fun t => if t = 1 then 97 else if t = 2 then 98 else 120
  normalPrio := fun t => if t = 1 then 97 else if t = 2 then 98 else 120
  onRq := fun t => decide (t = 0)
  sleeping := fun t => decide (t ≠ 0)
  needResched := fun _ => false

theorem idleRq_booted : BootedRq idleRq :=
  ⟨fun _ => ⟨rfl, rfl⟩, rfl, rfl, fun _ => decide_eq_true_iff, by decide⟩

/-- The first thread wakes up while the second one runs, and gets the CPU from it. -/
theorem runs_most_urgent_idle : ∃ q, RqRun idleRq q ∧ q.curr = 1 ∧ q.onRq 2 = true ∧
    q.prio 1 ≤ q.prio 2 := by
  obtain ⟨q, hfollow, hcurr, hon, hneed, hth, hrt⟩ := exists_some_of_test
    (o := follow Rq.Can Rq.exec [.wakeUp 2 false, .schedule false false 0, .wakeUp 1 false,
      .schedule true false 0] idleRq)
    (p := fun q => q.curr = 1 ∧ q.onRq 2 = true ∧ q.needResched 1 = false ∧
      q.rt.rtThrottled = false ∧ q.prio 2 < rtPrios) (by decide +kernel)
  have hrun : RqRun idleRq q := reach_of_follow (.start rfl) hfollow
  refine ⟨q, hrun, hcurr, hon, ?_⟩
  rw [← hcurr] at hneed ⊢
  exact (runs_most_urgent idleRq_booted hrun).2 hneed hth 2 hon hrt

end RtSched
