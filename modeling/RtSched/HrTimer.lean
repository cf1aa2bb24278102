import RtSched.Clock
import RtSched.Switch

/-!
# The two timers of a task (`kernel/hrtimer.c`)

A timer is enqueued on the base of a CPU, and when it expires there the interrupt takes it off and runs
its callback with no lock held.  So the code on the other CPUs can cancel or start a timer whose callback
is running: `hrtimer_try_to_cancel` then gives up with `-1`, and `hrtimer_start` enqueues it under its own
callback.  A callback that restarts its timer, as `period_timer_callback` does, must not find it enqueued:
`__run_hrtimer` has a `BUG_ON` for that.

* `Hrtimer`: the two bits of `timer->state`, and the operations;
* `HrSys`: the timers of all tasks, the callbacks that run on the CPUs, and one system call at a time,
  which holds `tasklist_lock`;
* `HrStep`: what an event does to the timers; the invariants are read off it;
* `callback_exclusive`: the callback of a timer runs on one CPU at a time, that of its base;
* `started_in_callback_bugs`, `guarded_never_bugs`, `one_cpu_never_bugs`: when the `BUG_ON` is hit;
* `stops_iff`: which period timers `sys_stopScheduling` stops;
* `applySysclock_pending`: where no callback runs, the timers are those of `applySysclock`.
-/

namespace RtSched

open Call

/-! ### One timer -/

/-- A timer: `HRTIMER_STATE_ENQUEUED`, `HRTIMER_STATE_CALLBACK`, the CPU of its base and the expiry. -/
structure Hrtimer where
  enqueued : Bool
  callback : Bool
  base : Fin maxCpu
  expires : ℤ
  deriving DecidableEq

namespace Hrtimer

variable (t : Hrtimer)

/-- `remove_hrtimer` -/
def remove : Hrtimer × ℤ := if t.enqueued then ({ t with enqueued := false }, 1) else (t, 0)

/-- `hrtimer_try_to_cancel` -/
def tryToCancel : Hrtimer × ℤ := if t.callback then (t, -1) else t.remove

/-- `hrtimer_start` with the expiry it computes; `cpu` is the base that `switch_hrtimer_base` would like,
which a timer does not get while its callback runs. -/
def start (expires : ℤ) (cpu : Fin maxCpu) : Hrtimer × ℤ :=
  let (t, ret) := t.remove
  ({ t with base := if t.callback then t.base else cpu, expires := expires, enqueued := true }, ret)

/-- `__run_hrtimer` up to the callback. -/
def enter : Hrtimer := { t with enqueued := false, callback := true }

/-- `__run_hrtimer` behind the callback; nothing where the `BUG_ON` is hit. -/
def leave (restart : Bool) : Option Hrtimer :=
  if restart then
    if t.enqueued = true ∨ t.callback = false then none
    else some { t with enqueued := true, callback := false }
  else some { t with callback := false }

/-- The timer is neither enqueued nor in its callback. -/
def Idle : Prop := t.enqueued = false ∧ t.callback = false

instance : Decidable t.Idle := instDecidableAnd

end Hrtimer

section Hrtimer

variable {t : Hrtimer} {expires : ℤ} {cpu : Fin maxCpu}

@[simp] theorem tryToCancel_callback : t.tryToCancel.1.callback = t.callback := by
  unfold Hrtimer.tryToCancel Hrtimer.remove
  split_ifs <;> rfl

@[simp] theorem tryToCancel_base : t.tryToCancel.1.base = t.base := by
  unfold Hrtimer.tryToCancel Hrtimer.remove
  split_ifs <;> rfl

/-- Nothing is done to a timer in its callback. -/
theorem tryToCancel_of_callback (h : t.callback = true) : t.tryToCancel = (t, -1) := if_pos h

theorem tryToCancel_of_not_callback (h : t.callback = false) :
    t.tryToCancel.1.Idle ∧ 0 ≤ t.tryToCancel.2 := by
  simp only [Hrtimer.tryToCancel, Hrtimer.remove, h, Bool.false_eq_true, if_false]
  split_ifs with hq
  · exact ⟨⟨rfl, rfl⟩, Int.one_nonneg⟩
  · exact ⟨⟨Bool.eq_false_of_not_eq_true hq, h⟩, le_rfl⟩

@[simp] theorem start_callback : (t.start expires cpu).1.callback = t.callback := by
  unfold Hrtimer.start Hrtimer.remove
  split_ifs <;> rfl

@[simp] theorem start_enqueued : (t.start expires cpu).1.enqueued = true := rfl

@[simp] theorem start_expires : (t.start expires cpu).1.expires = expires := rfl

theorem start_base : (t.start expires cpu).1.base = if t.callback then t.base else cpu := by
  unfold Hrtimer.start Hrtimer.remove
  split_ifs <;> simp [*]

theorem leave_restart (hq : t.enqueued = false) (hc : t.callback = true) :
    t.leave true = some { t with enqueued := true, callback := false } := by
  simp [Hrtimer.leave, hq, hc]

theorem leave_bug (hq : t.enqueued = true) : t.leave true = none := by
  simp [Hrtimer.leave, hq]

/-- The callback is over, and the base stays. -/
theorem leave_some {restart : Bool} {t' : Hrtimer} (h : t.leave restart = some t') :
    t'.callback = false ∧ t'.base = t.base ∧ (restart = true → t'.enqueued = true) := by
  cases restart with
  | true =>
    simp only [Hrtimer.leave, if_true] at h
    split_ifs at h
    obtain rfl := Option.some.inj h
    exact ⟨rfl, rfl, fun _ => rfl⟩
  | false =>
    obtain rfl := Option.some.inj h
    exact ⟨rfl, rfl, fun h => Bool.noConfusion h⟩

end Hrtimer

/-! ### The system -/

/-- The timers of the task `t`. -/
inductive TimerName
  | budget (t : Tid)
  | period (t : Tid)
  deriving DecidableEq

/-- `period_timer_callback` returns `HRTIMER_RESTART`, `budget_timer_callback` does not. -/
def TimerName.restarts : TimerName → Bool
  | .budget _ => false
  | .period _ => true

/-- The calls of the timer code. -/
inductive TimerOp
  | tryToCancel (x : TimerName)
  /-- `hrtimer_cancel`, which tries until it is not `-1` -/
  | cancel (x : TimerName)
  /-- `hrtimer_start`, with `HRTIMER_MODE_REL` -/
  | start (x : TimerName) (d : ℤ)
  deriving DecidableEq

def TimerOp.name : TimerOp → TimerName
  | .tryToCancel x | .cancel x | .start x _ => x

/-- A callback that runs; `done` says that it has forwarded its timer. -/
structure Activation where
  name : TimerName
  done : Bool
  deriving DecidableEq

/-- The timers, the callbacks that run on the CPUs, and the rest of a system call. -/
structure HrSys where
  now : ℤ
  timer : TimerName → Hrtimer
  running : Fin maxCpu → Option Activation
  caller : Fin maxCpu
  todo : List TimerOp

/-- What can happen. -/
inductive HrEvent
  | pass (d : ℕ)
  /-- `hrtimer_interrupt` runs a timer -/
  | expire (cpu : Fin maxCpu) (x : TimerName)
  /-- the callback calls `hrtimer_forward`, with the period that the task has then -/
  | forward (cpu : Fin maxCpu) (interval : ℤ)
  /-- the callback returns -/
  | finish (cpu : Fin maxCpu)
  /-- a system call gets `tasklist_lock` -/
  | call (cpu : Fin maxCpu) (ops : List TimerOp)
  /-- its next operation, where `switch_hrtimer_base` would like the base `target` -/
  | op (target : Fin maxCpu)
  /-- the hook in `__schedule` -/
  | hook (cpu : Fin maxCpu) (o : TimerOp) (target : Fin maxCpu)

namespace HrSys

variable (m : HrSys)

def setTimer (x : TimerName) (t : Hrtimer) : HrSys := { m with timer := Function.update m.timer x t }

/-- One operation, and whether it is over. -/
def perform (target : Fin maxCpu) : TimerOp → HrSys × Bool
  | .tryToCancel x => (m.setTimer x (m.timer x).tryToCancel.1, true)
  | .cancel x => (m.setTimer x (m.timer x).tryToCancel.1, decide (0 ≤ (m.timer x).tryToCancel.2))
  | .start x d => (m.setTimer x ((m.timer x).start (m.now + d) target).1, true)

/-- What `hrtimer_forward` does in the callback of a period timer. -/
def forwarded (x : TimerName) (interval : ℤ) : Hrtimer :=
  if x.restarts then
    { m.timer x with expires := hrtimerForward (m.timer x).expires m.now interval }
  else m.timer x

/-- An event; the only one that does not come through is the return of a callback. -/
def exec : HrEvent → Call HrSys (HrSys × Unit)
  | .pass d => pure ({ m with now := m.now + d }, ())
  | .expire cpu x => pure ({ m.setTimer x (m.timer x).enter with
      running := Function.update m.running cpu (some ⟨x, false⟩) }, ())
  | .forward cpu interval =>
      match m.running cpu with
      | some a => pure ({ m.setTimer a.name (m.forwarded a.name interval) with
          running := Function.update m.running cpu (some ⟨a.name, true⟩) }, ())
      | none => pure (m, ())
  | .finish cpu =>
      match m.running cpu with
      | some a =>
          match (m.timer a.name).leave a.name.restarts with
          | some t => pure ({ m.setTimer a.name t with
              running := Function.update m.running cpu none }, ())
          | none => .error (.oops, m)
      | none => pure (m, ())
  | .call cpu ops => pure ({ m with caller := cpu, todo := ops }, ())
  | .op target =>
      match m.todo with
      | o :: rest => pure ({ (m.perform target o).1 with
          todo := if (m.perform target o).2 then rest else o :: rest }, ())
      | [] => pure (m, ())
  | .hook _ o target => pure ((m.perform target o).1, ())

/-- A CPU that runs a callback does nothing else, the interrupt runs timers of its own base that are due,
and the hook only knows budget timers. -/
def Can : HrEvent → Prop
  | .pass _ => True
  | .expire cpu x => m.running cpu = none ∧ (m.timer x).enqueued = true ∧ (m.timer x).base = cpu ∧
      (m.timer x).expires ≤ m.now
  | .forward cpu _ => (m.running cpu).any (fun a => !a.done) = true
  | .finish cpu => (m.running cpu).any (fun a => a.done) = true
  | .call cpu _ => m.running cpu = none ∧ m.todo = []
  | .op _ => m.running m.caller = none ∧ m.todo ≠ []
  | .hook cpu o _ => m.running cpu = none ∧ o.name.restarts = false

instance (e : HrEvent) : Decidable (m.Can e) := by
  cases e <;> unfold Can <;> infer_instance

/-- The timer that an event operates on. -/
def operand : HrEvent → Option TimerName
  | .op _ => m.todo.head?.map TimerOp.name
  | .hook _ o _ => some o.name
  | _ => none

/-- The timer that an event starts. -/
def started : HrEvent → Option TimerName
  | .op _ =>
      match m.todo with
      | .start x _ :: _ => some x
      | _ => none
  | .hook _ (.start x _) _ => some x
  | _ => none

end HrSys

/-- The base that `switch_hrtimer_base` would like. -/
def HrEvent.target : HrEvent → Option (Fin maxCpu)
  | .op target | .hook _ _ target => some target
  | _ => none

/-- The states from `m₀` on, by events that also meet `ok`. -/
def HrRun (ok : HrSys → HrEvent → Prop) (m₀ : HrSys) : HrSys → Prop :=
  Reach (fun m => m = m₀) (fun m e => m.Can e ∧ ok m e) HrSys.exec

theorem HrRun.refl (m : HrSys) : HrRun (fun _ _ => True) m m := .start rfl

/-- What an event does to the timers and to the callbacks. -/
inductive HrStep (m : HrSys) (e : HrEvent) (m' : HrSys) : Prop
  | same (htimer : m'.timer = m.timer) (hrunning : m'.running = m.running)
  | cancel (x : TimerName) (hx : m.operand e = some x) (hrunning : m'.running = m.running)
      (htimer : m'.timer = Function.update m.timer x (m.timer x).tryToCancel.1)
  | start (x : TimerName) (expires : ℤ) (cpu : Fin maxCpu)
      (hstarted : m.started e = some x) (htarget : e.target = some cpu)
      (hrunning : m'.running = m.running)
      (htimer : m'.timer = Function.update m.timer x ((m.timer x).start expires cpu).1)
  | enter (cpu : Fin maxCpu) (x : TimerName) (hfree : m.running cpu = none)
      (hqueued : (m.timer x).enqueued = true) (hbase : (m.timer x).base = cpu)
      (hrunning : m'.running = Function.update m.running cpu (some ⟨x, false⟩))
      (htimer : m'.timer = Function.update m.timer x (m.timer x).enter)
  | forward (cpu : Fin maxCpu) (a : Activation) (expires : ℤ) (ha : m.running cpu = some a)
      (hrunning : m'.running = Function.update m.running cpu (some ⟨a.name, true⟩))
      (htimer : m'.timer = Function.update m.timer a.name
        { m.timer a.name with expires := expires })
  | leave (cpu : Fin maxCpu) (a : Activation) (t : Hrtimer) (ha : m.running cpu = some a)
      (hleave : (m.timer a.name).leave a.name.restarts = some t)
      (hrunning : m'.running = Function.update m.running cpu none)
      (htimer : m'.timer = Function.update m.timer a.name t)

section Step

variable {m m' m₀ : HrSys} {e : HrEvent} {ok : HrSys → HrEvent → Prop} {x : TimerName}
  {cpu : Fin maxCpu}

/-- An operation is a step, of a system call or of the hook. -/
theorem hrStep_perform {o : TimerOp} {target : Fin maxCpu} (hoperand : m.operand e = some o.name)
    (htarget : e.target = some target)
    (hstarted : ∀ x d, o = .start x d → m.started e = some x)
    (hrunning : m'.running = (m.perform target o).1.running)
    (htimer : m'.timer = (m.perform target o).1.timer) : HrStep m e m' := by
  cases o with
  | tryToCancel x => exact .cancel x hoperand hrunning htimer
  | cancel x => exact .cancel x hoperand hrunning htimer
  | start x d => exact .start x _ target (hstarted x d rfl) htarget hrunning htimer

theorem hrStep_of_exec (hcan : m.Can e) (hexec : m.exec e = .ok (m', ())) : HrStep m e m' := by
  cases e with
  | pass d =>
    cases hexec
    exact .same rfl rfl
  | call cpu ops =>
    cases hexec
    exact .same rfl rfl
  | expire cpu x =>
    obtain ⟨hfree, hqueued, hbase, -⟩ := hcan
    cases hexec
    exact .enter cpu x hfree hqueued hbase rfl rfl
  | forward cpu interval =>
    cases ha : m.running cpu with
    | none =>
      simp only [HrSys.exec, ha] at hexec
      cases hexec
      exact .same rfl rfl
    | some a =>
      simp only [HrSys.exec, ha] at hexec
      cases hexec
      have hfw : m.forwarded a.name interval =
          { m.timer a.name with expires := (m.forwarded a.name interval).expires } := by
        unfold HrSys.forwarded
        split_ifs <;> rfl
      exact .forward cpu a _ ha rfl (congrArg (Function.update m.timer a.name) hfw)
  | finish cpu =>
    cases ha : m.running cpu with
    | none =>
      simp only [HrSys.exec, ha] at hexec
      cases hexec
      exact .same rfl rfl
    | some a =>
      cases hleave : (m.timer a.name).leave a.name.restarts with
      | none =>
        simp only [HrSys.exec, ha, hleave] at hexec
        cases hexec
      | some t =>
        simp only [HrSys.exec, ha, hleave] at hexec
        cases hexec
        exact .leave cpu a t ha hleave rfl rfl
  | op target =>
    cases htodo : m.todo with
    | nil => exact absurd htodo hcan.2
    | cons o rest =>
      simp only [HrSys.exec, htodo] at hexec
      cases hexec
      refine hrStep_perform (o := o) (by simp [HrSys.operand, htodo]) rfl ?_ rfl rfl
      rintro x d rfl
      simp [HrSys.started, htodo]
  | hook cpu o target =>
    cases hexec
    refine hrStep_perform rfl rfl ?_ rfl rfl
    rintro x d rfl
    rfl

theorem operand_of_started (h : m.started e = some x) : m.operand e = some x := by
  cases e with
  | op target =>
    simp only [HrSys.started] at h
    split at h
    · rename_i htodo
      rw [← h, HrSys.operand, htodo]
      rfl
    · cases h
  | hook cpu o target =>
    cases o with
    | start y d => exact h
    | _ y => cases h
  | _ => cases h

/-- The rest of the call changes by its own operations only. -/
theorem exec_rest (hexec : m.exec e = .ok (m', ())) :
    (m'.caller = m.caller ∧ ((∀ target, e ≠ .op target) → m'.todo = m.todo)) ∨
      ∃ cpu ops, e = .call cpu ops := by
  have hperform : ∀ (target : Fin maxCpu) (o : TimerOp),
      (m.perform target o).1.caller = m.caller ∧ (m.perform target o).1.todo = m.todo := by
    intro target o
    cases o <;> exact ⟨rfl, rfl⟩
  cases e with
  | call cpu ops =>
    cases hexec
    exact Or.inr ⟨cpu, ops, rfl⟩
  | op target =>
    refine Or.inl ⟨?_, fun h => absurd rfl (h target)⟩
    simp only [HrSys.exec] at hexec
    split at hexec <;> cases hexec
    · exact (hperform target _).1
    · rfl
  | hook cpu o target =>
    cases hexec
    exact Or.inl ⟨(hperform target o).1, fun _ => (hperform target o).2⟩
  | forward cpu interval =>
    simp only [HrSys.exec] at hexec
    split at hexec <;> cases hexec <;> exact Or.inl ⟨rfl, fun _ => rfl⟩
  | finish cpu =>
    simp only [HrSys.exec] at hexec
    split at hexec
    · split at hexec <;> cases hexec
      exact Or.inl ⟨rfl, fun _ => rfl⟩
    · cases hexec
      exact Or.inl ⟨rfl, fun _ => rfl⟩
  | _ =>
    cases hexec
    exact Or.inl ⟨rfl, fun _ => rfl⟩

/-! ### Where a callback runs -/

/-- The CPUs that run a callback are those that the timers say. -/
structure HrInv (m : HrSys) : Prop where
  runs : ∀ cpu a, m.running cpu = some a →
    (m.timer a.name).callback = true ∧ (m.timer a.name).base = cpu
  marks : ∀ x, (m.timer x).callback = true → ∃ a, m.running (m.timer x).base = some a ∧ a.name = x

/-- A timer is operated on, and keeps the base while its callback runs. -/
theorem HrInv.touch (h : HrInv m) {t : Hrtimer} (hrunning : m'.running = m.running)
    (htimer : m'.timer = Function.update m.timer x t) (hc : t.callback = (m.timer x).callback)
    (hb : (m.timer x).callback = true → t.base = (m.timer x).base) : HrInv m' := by
  constructor
  · intro cpu a ha
    rw [hrunning] at ha
    obtain ⟨hcb, hbase⟩ := h.runs cpu a ha
    by_cases hx : a.name = x
    · subst hx
      rw [htimer, Function.update_self]
      exact ⟨hc.trans hcb, (hb hcb).trans hbase⟩
    · rw [htimer, Function.update_of_ne hx]
      exact ⟨hcb, hbase⟩
  · intro y hy
    rw [hrunning]
    by_cases hx : y = x
    · subst hx
      rw [htimer, Function.update_self] at hy ⊢
      rw [hc] at hy
      rw [hb hy]
      exact h.marks y hy
    · rw [htimer, Function.update_of_ne hx] at hy ⊢
      exact h.marks y hy

/-- A timer whose callback runs on a CPU has its base there. -/
theorem HrInv.free (h : HrInv m) (hfree : m.running (m.timer x).base = none) :
    (m.timer x).callback = false := by
  by_contra hc
  obtain ⟨a, ha, -⟩ := h.marks x (Bool.eq_true_of_not_eq_false hc)
  rw [hfree] at ha
  cases ha

theorem HrInv.unique (h : HrInv m) {c c' : Fin maxCpu} {a a' : Activation} (ha : m.running c = some a)
    (ha' : m.running c' = some a') (hname : a.name = a'.name) : c = c' := by
  rw [← (h.runs c a ha).2, ← (h.runs c' a' ha').2, hname]

theorem HrInv.step (h : HrInv m) (hstep : HrStep m e m') : HrInv m' := by
  cases hstep with
  | same htimer hrunning =>
    constructor
    · rw [htimer, hrunning]
      exact h.runs
    · rw [htimer, hrunning]
      exact h.marks
  | cancel x hx hrunning htimer =>
    exact h.touch hrunning htimer tryToCancel_callback fun _ => tryToCancel_base
  | start x expires cpu hstarted htarget hrunning htimer =>
    exact h.touch hrunning htimer start_callback fun hcb => by rw [start_base, if_pos hcb]
  | enter cpu x hfree hqueued hbase hrunning htimer =>
    -- no other timer of this base is in its callback
    constructor
    · intro c a ha
      by_cases hc : c = cpu
      · subst hc
        rw [hrunning, Function.update_self, Option.some.injEq] at ha
        subst ha
        rw [htimer, Function.update_self]
        exact ⟨rfl, hbase⟩
      · rw [hrunning, Function.update_of_ne hc] at ha
        obtain ⟨hcb, hb⟩ := h.runs c a ha
        have hx : a.name ≠ x := fun hx => hc (hb.symm.trans (hx ▸ hbase))
        rw [htimer, Function.update_of_ne hx]
        exact ⟨hcb, hb⟩
    · intro y hy
      by_cases hyx : y = x
      · subst hyx
        refine ⟨⟨y, false⟩, ?_, rfl⟩
        rw [htimer, Function.update_self, hrunning]
        show Function.update m.running cpu _ (m.timer y).base = _
        rw [hbase, Function.update_self]
      · rw [htimer, Function.update_of_ne hyx] at hy ⊢
        obtain ⟨a, ha, hname⟩ := h.marks y hy
        have hc : (m.timer y).base ≠ cpu := fun hc => by
          rw [hc, hfree] at ha
          cases ha
        exact ⟨a, by rw [hrunning, Function.update_of_ne hc]; exact ha, hname⟩
  | forward cpu a expires ha hrunning htimer =>
    have htouch : HrInv { m with timer := m'.timer } := h.touch rfl htimer rfl fun _ => rfl
    constructor
    · intro c b hb
      by_cases hc : c = cpu
      · subst hc
        rw [hrunning, Function.update_self, Option.some.injEq] at hb
        subst hb
        exact htouch.runs c a ha
      · rw [hrunning, Function.update_of_ne hc] at hb
        exact htouch.runs c b hb
    · intro y hy
      obtain ⟨b, hb, hname⟩ := htouch.marks y hy
      by_cases hc : (m'.timer y).base = cpu
      · obtain rfl : b = a := by
          have hb' : m.running (m'.timer y).base = some b := hb
          rw [hc, ha] at hb'
          exact (Option.some.inj hb').symm
        exact ⟨⟨b.name, true⟩, by rw [hrunning, hc, Function.update_self], hname⟩
      · exact ⟨b, by rw [hrunning, Function.update_of_ne hc]; exact hb, hname⟩
  | leave cpu a t ha hleave hrunning htimer =>
    obtain ⟨hover, hbase, -⟩ := leave_some hleave
    constructor
    · intro c b hb
      by_cases hc : c = cpu
      · rw [hrunning, hc, Function.update_self] at hb
        cases hb
      · rw [hrunning, Function.update_of_ne hc] at hb
        have hname : b.name ≠ a.name := fun hname => hc (h.unique hb ha hname)
        rw [htimer, Function.update_of_ne hname]
        exact h.runs c b hb
    · intro y hy
      have hya : y ≠ a.name := fun hya => by
        rw [htimer, hya, Function.update_self, hover] at hy
        cases hy
      rw [htimer, Function.update_of_ne hya] at hy ⊢
      obtain ⟨b, hb, hname⟩ := h.marks y hy
      have hc : (m.timer y).base ≠ cpu := fun hc => by
        rw [hc, ha, Option.some.injEq] at hb
        exact hya (hname.symm.trans (hb ▸ rfl))
      exact ⟨b, by rw [hrunning, Function.update_of_ne hc]; exact hb, hname⟩

/-- No callback runs. -/
def NoCallback (m : HrSys) : Prop := (∀ x, (m.timer x).callback = false) ∧ ∀ cpu, m.running cpu = none

theorem HrInv.start (h : NoCallback m) : HrInv m := by
  constructor
  · intro cpu a ha
    rw [h.2 cpu] at ha
    cases ha
  · intro x hx
    rw [h.1 x] at hx
    cases hx

/-- What the first state has and every event keeps holds throughout. -/
theorem hrRun_inv {I : HrSys → Prop} (h₀ : I m₀)
    (hstep : ∀ m e m', I m → m.Can e → ok m e → HrStep m e m' → m.exec e = .ok (m', ()) → I m')
    (hrun : HrRun ok m₀ m) : I m := by
  refine Reach.inv (I := I) (E := fun _ => True) ?_ ?_ hrun
  · rintro m rfl
    exact h₀
  · rintro m e hm ⟨hcan, hok⟩
    refine sat_of_forall_ok ?_
    rintro ⟨m', ⟨⟩⟩ hexec
    exact hstep m e m' hm hcan hok (hrStep_of_exec hcan hexec) hexec

theorem HrInv.run (h₀ : HrInv m₀) (hrun : HrRun ok m₀ m) : HrInv m :=
  hrRun_inv h₀ (fun _ _ _ hm _ _ hstep _ => hm.step hstep) hrun

end Step

/-- **One callback at a time.**  Whatever the system calls and the hook do, the callback of a timer never
runs on two CPUs at once, and the timer is marked as in its callback exactly while the CPU of its base
runs it. -/
theorem callback_exclusive {ok : HrSys → HrEvent → Prop} {m₀ m : HrSys} (h₀ : NoCallback m₀)
    (hrun : HrRun ok m₀ m) :
    (∀ c c' a a', m.running c = some a → m.running c' = some a' → a.name = a'.name → c = c') ∧
      ∀ x, (m.timer x).callback = true ↔ ∃ a, m.running (m.timer x).base = some a ∧ a.name = x := by
  have hinv := (HrInv.start h₀).run hrun
  refine ⟨fun c c' a a' => hinv.unique, fun x => ⟨hinv.marks x, ?_⟩⟩
  rintro ⟨a, ha, rfl⟩
  exact (hinv.runs _ a ha).1

/-- The period timer of thread 1 is due on CPU 0, and all others are idle. -/
def dueTimer : HrSys where
  now := 0
  timer := fun x => ⟨decide (x = .period 1), false, 0, 0⟩
  running := fun _ => none
  caller := 1
  todo := []

theorem dueTimer_noCallback : NoCallback dueTimer := ⟨fun _ => rfl, fun _ => rfl⟩

/-- While CPU 0 runs the callback of the timer, no other CPU does. -/
theorem callback_exclusive_due : ∃ m, HrRun (fun _ _ => True) dueTimer m ∧
    m.running 0 = some ⟨.period 1, false⟩ ∧
    ∀ c a, m.running c = some a → a.name = .period 1 → c = 0 := by
  have hrun : HrRun (fun _ _ => True) dueTimer _ :=
    .step (.start rfl) (a := .expire 0 (.period 1)) ⟨by decide, trivial⟩ rfl
  refine ⟨_, hrun, rfl, fun c a ha hname => ?_⟩
  exact (callback_exclusive dueTimer_noCallback hrun).1 c 0 a ⟨.period 1, false⟩ ha rfl hname

/-! ### The system calls -/

/-- A turn of the first loop of `apply_sysclock`, and of the loop of `sys_stopScheduling`. -/
def stopTimers (t : Tid) : List TimerOp := [.tryToCancel (.budget t), .tryToCancel (.period t)]

/-- `sys_stopScheduling` -/
def stopSchedulingOps (list : List Tid) : List TimerOp := list.flatMap stopTimers

/-- `apply_sysclock` and `apply_pmclock` -/
def applySysclockOps (list : List Tid) (period : Tid → ℤ) : List TimerOp :=
  list.flatMap stopTimers ++ list.map fun t => .start (.period t) (period t)

/-- `sys_setProcessBudget` without power management, for a task that has had a reservation. -/
def setProcessBudgetOps (t : Tid) (period : ℤ) : List TimerOp :=
  [.cancel (.period t), .cancel (.budget t), .start (.period t) period]

/-- What an event does to one timer. -/
inductive TimerStep (m : HrSys) (e : HrEvent) (x : TimerName) : Hrtimer → Prop
  | same : TimerStep m e x (m.timer x)
  | cancel (hop : m.operand e = some x) : TimerStep m e x (m.timer x).tryToCancel.1
  | start (expires : ℤ) (cpu : Fin maxCpu) (hstarted : m.started e = some x)
      (htarget : e.target = some cpu) : TimerStep m e x ((m.timer x).start expires cpu).1
  | enter (hqueued : (m.timer x).enqueued = true) (hfree : m.running (m.timer x).base = none) :
      TimerStep m e x (m.timer x).enter
  | forward (cpu : Fin maxCpu) (a : Activation) (expires : ℤ) (ha : m.running cpu = some a)
      (hname : a.name = x) : TimerStep m e x { m.timer x with expires := expires }
  | leave (cpu : Fin maxCpu) (a : Activation) (t : Hrtimer) (ha : m.running cpu = some a)
      (hname : a.name = x) (hleave : (m.timer x).leave x.restarts = some t) : TimerStep m e x t

theorem HrStep.timer {m m' : HrSys} {e : HrEvent} (hstep : HrStep m e m') (x : TimerName) :
    TimerStep m e x (m'.timer x) := by
  have hother : ∀ {y : TimerName} {t : Hrtimer}, m'.timer = Function.update m.timer y t → x ≠ y →
      TimerStep m e x (m'.timer x) := by
    intro y t htimer hxy
    rw [htimer, Function.update_of_ne hxy]
    exact .same
  cases hstep with
  | same htimer hrunning =>
    rw [htimer]
    exact .same
  | cancel y hy hrunning htimer =>
    by_cases hxy : x = y
    · subst hxy
      rw [htimer, Function.update_self]
      exact .cancel hy
    · exact hother htimer hxy
  | start y expires cpu hstarted htarget hrunning htimer =>
    by_cases hxy : x = y
    · subst hxy
      rw [htimer, Function.update_self]
      exact .start expires cpu hstarted htarget
    · exact hother htimer hxy
  | enter cpu y hfree hqueued hbase hrunning htimer =>
    by_cases hxy : x = y
    · subst hxy
      rw [htimer, Function.update_self]
      exact .enter hqueued (by rw [hbase]; exact hfree)
    · exact hother htimer hxy
  | forward cpu a expires ha hrunning htimer =>
    by_cases hxa : x = a.name
    · subst hxa
      rw [htimer, Function.update_self]
      exact .forward cpu a expires ha rfl
    · exact hother htimer hxa
  | leave cpu a t ha hleave hrunning htimer =>
    by_cases hxa : x = a.name
    · subst hxa
      rw [htimer, Function.update_self]
      exact .leave cpu a t ha rfl hleave
    · exact hother htimer hxa

/-! ### When the `BUG_ON` is hit -/

section Bug

variable {m m' m₀ m₁ : HrSys} {e : HrEvent} {ok : HrSys → HrEvent → Prop} {x : TimerName}
  {cpu : Fin maxCpu}

/-- A timer is enqueued under its own callback. -/
structure Doomed (cpu : Fin maxCpu) (x : TimerName) (m : HrSys) : Prop where
  running : ∃ a, m.running cpu = some a ∧ a.name = x
  enqueued : (m.timer x).enqueued = true

/-- It stays that way, since it can neither be cancelled nor expire. -/
theorem Doomed.step (hd : Doomed cpu x m) (h : HrInv m) (hx : x.restarts = true)
    (hstep : HrStep m e m') : Doomed cpu x m' := by
  obtain ⟨⟨a, ha, rfl⟩, hq⟩ := hd
  obtain ⟨hcb, hbase⟩ := h.runs cpu a ha
  have hnot : (m.timer a.name).leave a.name.restarts = none := by rw [hx, leave_bug hq]
  constructor
  · cases hstep with
    | same htimer hrunning => exact ⟨a, by rw [hrunning]; exact ha, rfl⟩
    | cancel y hy hrunning htimer => exact ⟨a, by rw [hrunning]; exact ha, rfl⟩
    | start y expires c hstarted htarget hrunning htimer => exact ⟨a, by rw [hrunning]; exact ha, rfl⟩
    | enter c y hfree hqueued hbase' hrunning htimer =>
      have hc : cpu ≠ c := fun hc => Option.some_ne_none a (ha.symm.trans (hc ▸ hfree))
      exact ⟨a, by rw [hrunning, Function.update_of_ne hc]; exact ha, rfl⟩
    | forward c b expires hb hrunning htimer =>
      by_cases hc : cpu = c
      · subst hc
        obtain rfl := Option.some.inj (ha.symm.trans hb)
        exact ⟨⟨a.name, true⟩, by rw [hrunning, Function.update_self], rfl⟩
      · exact ⟨a, by rw [hrunning, Function.update_of_ne hc]; exact ha, rfl⟩
    | leave c b t hb hleave hrunning htimer =>
      have hc : cpu ≠ c := by
        rintro rfl
        obtain rfl := Option.some.inj (ha.symm.trans hb)
        exact Option.some_ne_none t (hleave.symm.trans hnot)
      exact ⟨a, by rw [hrunning, Function.update_of_ne hc]; exact ha, rfl⟩
  · have hone := hstep.timer a.name
    generalize m'.timer a.name = t' at hone ⊢
    cases hone with
    | same => exact hq
    | cancel hop =>
      rw [tryToCancel_of_callback hcb]
      exact hq
    | start expires c hstarted htarget => exact start_enqueued
    | enter hqueued hfree =>
      exact absurd (hfree.symm.trans (hbase.symm ▸ ha)) (Option.some_ne_none a).symm
    | forward c b expires hb hname => exact hq
    | leave c b t hb hname hleave =>
      exact absurd (hleave.symm.trans hnot) (Option.some_ne_none _)

theorem Doomed.bug (hd : Doomed cpu x m) (hx : x.restarts = true) :
    m.exec (.finish cpu) = .error (.oops, m) := by
  obtain ⟨⟨a, ha, rfl⟩, hq⟩ := hd
  simp only [HrSys.exec, ha, hx, leave_bug hq]

theorem doomed_of_start (hcan : m.Can e) (hstart : m.started e = some x)
    (hrunning : ∃ a, m.running cpu = some a ∧ a.name = x) (hexec : m.exec e = .ok (m', ())) :
    Doomed cpu x m' := by
  have hperform : ∃ d target, m'.timer = (m.perform target (.start x d)).1.timer ∧
      m'.running = m.running := by
    cases e with
    | op target =>
      cases htodo : m.todo with
      | nil => exact absurd htodo hcan.2
      | cons o rest =>
        cases o with
        | start y d =>
          simp only [HrSys.started, htodo, Option.some.injEq] at hstart
          subst hstart
          simp only [HrSys.exec, htodo] at hexec
          cases hexec
          exact ⟨d, target, rfl, rfl⟩
        | _ y => simp [HrSys.started, htodo] at hstart
    | hook c o target =>
      cases o with
      | start y d =>
        simp only [HrSys.started, Option.some.injEq] at hstart
        subst hstart
        cases hexec
        exact ⟨d, target, rfl, rfl⟩
      | _ y => simp [HrSys.started] at hstart
    | _ => simp [HrSys.started] at hstart
  obtain ⟨d, target, htimer, hsame⟩ := hperform
  refine ⟨by rw [hsame]; exact hrunning, ?_⟩
  rw [htimer]
  show (Function.update m.timer x _ x).enqueued = true
  rw [Function.update_self, start_enqueued]

/-- No period timer is enqueued under its own callback. -/
def Clean (m : HrSys) : Prop :=
  ∀ x, x.restarts = true → (m.timer x).callback = true → (m.timer x).enqueued = false

/-- It stays that way if no period timer is started under its callback. -/
theorem Clean.step (hclean : Clean m)
    (hcalm : ∀ x, m.started e = some x → x.restarts = true → (m.timer x).callback = false)
    (hstep : HrStep m e m') : Clean m' := by
  intro x hx
  have hone := hstep.timer x
  generalize m'.timer x = t' at hone ⊢
  cases hone with
  | same => exact hclean x hx
  | cancel hop =>
    intro hcb
    rw [tryToCancel_callback] at hcb
    rw [tryToCancel_of_callback hcb]
    exact hclean x hx hcb
  | start expires cpu hstarted htarget =>
    intro hcb
    rw [start_callback, hcalm x hstarted hx] at hcb
    cases hcb
  | enter hqueued hfree => exact fun _ => rfl
  | forward cpu a expires ha hname => exact hclean x hx
  | leave cpu a t ha hname hleave =>
    intro hcb
    rw [(leave_some hleave).1] at hcb
    cases hcb

theorem Clean.start (h₀ : NoCallback m) : Clean m := by
  intro x hx hcb
  rw [h₀.1 x] at hcb
  cases hcb

/-- Every callback comes back. -/
theorem Clean.returns (hclean : Clean m) (h : HrInv m) (hcan : m.Can (.finish cpu)) :
    ∃ m', m.exec (.finish cpu) = .ok (m', ()) := by
  cases ha : m.running cpu with
  | none =>
    rw [HrSys.Can, ha] at hcan
    cases hcan
  | some a =>
    have hcb := (h.runs cpu a ha).1
    cases hrestart : a.name.restarts with
    | true =>
      have hq := hclean a.name hrestart hcb
      simp only [HrSys.exec, ha, hrestart, leave_restart hq hcb]
      exact ⟨_, rfl⟩
    | false =>
      simp only [HrSys.exec, ha, hrestart]
      exact ⟨_, rfl⟩

/-- A timer that is not started stays idle. -/
theorem idle_step (h : HrInv m) (hidle : (m.timer x).Idle) (hstart : m.started e ≠ some x)
    (hstep : HrStep m e m') : (m'.timer x).Idle := by
  have hnot : ∀ {cpu a}, m.running cpu = some a → a.name ≠ x := by
    rintro cpu a ha rfl
    exact Bool.noConfusion (hidle.2.symm.trans (h.runs cpu a ha).1)
  have hone := hstep.timer x
  generalize m'.timer x = t' at hone ⊢
  cases hone with
  | same => exact hidle
  | cancel hop => exact (tryToCancel_of_not_callback hidle.2).1
  | start expires cpu hstarted htarget => exact absurd hstarted hstart
  | enter hqueued hfree => exact Bool.noConfusion (hidle.1.symm.trans hqueued)
  | forward cpu a expires ha hname => exact absurd hname (hnot ha)
  | leave cpu a t ha hname hleave => exact absurd hname (hnot ha)

/-- A period timer that nobody operates on goes on. -/
theorem active_step (hactive : ¬ (m.timer x).Idle) (hx : x.restarts = true)
    (hop : m.operand e ≠ some x) (hstep : HrStep m e m') : ¬ (m'.timer x).Idle := by
  have hone := hstep.timer x
  generalize m'.timer x = t' at hone ⊢
  cases hone with
  | same => exact hactive
  | cancel hop' => exact absurd hop' hop
  | start expires cpu hstarted htarget => exact absurd (operand_of_started hstarted) hop
  | enter hqueued hfree => exact fun hidle => Bool.noConfusion hidle.2
  | forward cpu a expires ha hname => exact hactive
  | leave cpu a t ha hname hleave =>
    exact fun hidle => Bool.noConfusion (hidle.1.symm.trans ((leave_some hleave).2.2 hx))

/-! ### Guarded calls -/

/-- Every period timer that is started has been cancelled with `hrtimer_cancel` before, if it is not one
of `idle`. -/
def Guarded (idle : TimerName → Prop) : List TimerOp → Prop
  | [] => True
  | .tryToCancel _ :: ops => Guarded idle ops
  | .cancel x :: ops => Guarded (fun y => y = x ∨ idle y) ops
  | .start x _ :: ops => (x.restarts = true → idle x) ∧ Guarded (fun y => y ≠ x ∧ idle y) ops

/-- The period timers that the rest of a system call takes for idle are idle. -/
structure GuardedInv (m : HrSys) : Prop where
  inv : HrInv m
  clean : Clean m
  guarded : ∃ idle : TimerName → Prop,
    (∀ x, x.restarts = true → idle x → (m.timer x).Idle) ∧ Guarded idle m.todo

/-- Events other than the operations of the call leave idle period timers alone. -/
theorem GuardedInv.other (h : GuardedInv m) (hstep : HrStep m e m') (htodo : m'.todo = m.todo)
    (hstart : ∀ x, m.started e = some x → x.restarts = false) : GuardedInv m' := by
  obtain ⟨idle, hidle, hguarded⟩ := h.guarded
  have hne : ∀ {x : TimerName}, x.restarts = true → m.started e ≠ some x := fun hx hs =>
    Bool.noConfusion (hx.symm.trans (hstart _ hs))
  refine ⟨h.inv.step hstep, h.clean.step (fun x hs hx => absurd hs (hne hx)) hstep, idle, ?_, ?_⟩
  · exact fun x hx hi => idle_step h.inv (hidle x hx hi) (hne hx) hstep
  · rw [htodo]
    exact hguarded

/-- One operation of a guarded call. -/
theorem GuardedInv.op (h : GuardedInv m) {o : TimerOp} {rest : List TimerOp} {target : Fin maxCpu}
    (htodo : m.todo = o :: rest) (hexec : m.exec (.op target) = .ok (m', ()))
    (hstep : HrStep m (.op target) m') : GuardedInv m' := by
  obtain ⟨idle, hidle, hguarded⟩ := h.guarded
  rw [htodo] at hguarded
  have hinv := h.inv.step hstep
  simp only [HrSys.exec, htodo] at hexec
  cases o with
  | tryToCancel x =>
    have hstart : m.started (.op target) = none := by simp [HrSys.started, htodo]
    cases hexec
    refine ⟨hinv, h.clean.step (by simp [hstart]) hstep, idle, fun y hy hi => ?_, hguarded⟩
    exact idle_step h.inv (hidle y hy hi) (by simp [hstart]) hstep
  | cancel x =>
    have hstart : m.started (.op target) = none := by simp [HrSys.started, htodo]
    have hclean := h.clean.step (by simp [hstart]) hstep
    have hstay : ∀ y, y.restarts = true → idle y → (m'.timer y).Idle := fun y hy hi =>
      idle_step h.inv (hidle y hy hi) (by simp [hstart]) hstep
    cases hcb : (m.timer x).callback with
    | true =>
      -- `hrtimer_cancel` tries again
      refine ⟨hinv, hclean, idle, hstay, ?_⟩
      cases hexec
      simp only [HrSys.perform, tryToCancel_of_callback hcb]
      exact hguarded
    | false =>
      obtain ⟨hnow, hover⟩ := tryToCancel_of_not_callback hcb
      refine ⟨hinv, hclean, fun y => y = x ∨ idle y, ?_, ?_⟩
      · rintro y hy (rfl | hi)
        · cases hexec
          simp only [HrSys.perform, HrSys.setTimer, Function.update_self]
          exact hnow
        · exact hstay y hy hi
      · cases hexec
        simp only [HrSys.perform, hover, decide_true, if_true]
        exact hguarded
  | start x d =>
    have hstart : m.started (.op target) = some x := by simp [HrSys.started, htodo]
    cases hexec
    refine ⟨hinv, h.clean.step ?_ hstep, fun y => y ≠ x ∧ idle y, ?_, hguarded.2⟩
    · rintro y hy hyr
      obtain rfl := Option.some.inj (hstart.symm.trans hy)
      exact (hidle x hyr (hguarded.1 hyr)).2
    · rintro y hy ⟨hyx, hi⟩
      refine idle_step h.inv (hidle y hy hi) (fun hs => hyx ?_) hstep
      exact Option.some.inj (hs.symm.trans hstart)

/-- The system calls are guarded. -/
def GuardedCalls (_ : HrSys) : HrEvent → Prop
  | .call _ ops => Guarded (fun _ => False) ops
  | _ => True

theorem GuardedInv.step (h : GuardedInv m) (hcan : m.Can e) (hok : GuardedCalls m e)
    (hstep : HrStep m e m') (hexec : m.exec e = .ok (m', ())) : GuardedInv m' := by
  by_cases hop : ∃ target, e = .op target
  · obtain ⟨target, rfl⟩ := hop
    cases htodo : m.todo with
    | nil => exact absurd htodo hcan.2
    | cons o rest => exact h.op htodo hexec hstep
  · obtain ⟨-, htodo⟩ | ⟨cpu, ops, rfl⟩ := exec_rest hexec
    · refine h.other hstep (htodo fun target he => hop ⟨target, he⟩) fun x hx => ?_
      cases e with
      | op target => exact absurd ⟨target, rfl⟩ hop
      | hook cpu o target =>
        cases o with
        | start y d =>
          obtain rfl := Option.some.inj hx
          exact hcan.2
        | _ y => cases hx
      | _ => cases hx
    · cases hexec
      exact ⟨h.inv.step hstep, h.clean, fun _ => False, fun _ _ => False.elim, hok⟩

end Bug

/-- **A period timer that is started under its callback.**  A system call starts the period timer of a
task, as `apply_sysclock` does after a `hrtimer_try_to_cancel` whose result it only prints, while the
callback of that timer runs on a CPU.  Then in every continuation the callback is still running, and the
`BUG_ON` of `__run_hrtimer` is hit when it returns. -/
theorem started_in_callback_bugs {ok ok' : HrSys → HrEvent → Prop} {m₀ m m₁ m' : HrSys} {e : HrEvent}
    {t : Tid} {cpu : Fin maxCpu} (h₀ : NoCallback m₀) (hrun : HrRun ok m₀ m) (hcan : m.Can e)
    (hstart : m.started e = some (.period t))
    (hcallback : ∃ a, m.running cpu = some a ∧ a.name = .period t)
    (hexec : m.exec e = .ok (m₁, ())) (hrun' : HrRun ok' m₁ m') :
    (∃ a, m'.running cpu = some a ∧ a.name = .period t) ∧
      m'.exec (.finish cpu) = .error (.oops, m') := by
  have hinv := ((HrInv.start h₀).run hrun).step (hrStep_of_exec hcan hexec)
  have hdoomed : HrInv m' ∧ Doomed cpu (.period t) m' := by
    refine hrRun_inv (I := fun m' => HrInv m' ∧ Doomed cpu (.period t) m')
      ⟨hinv, doomed_of_start hcan hstart hcallback hexec⟩ ?_ hrun'
    rintro m e m' ⟨hm, hd⟩ - - hstep -
    exact ⟨hm.step hstep, hd.step hm rfl hstep⟩
  exact ⟨hdoomed.2.running, hdoomed.2.bug rfl⟩

theorem exec_op (m : HrSys) (target : Fin maxCpu) : ∃ m', m.exec (.op target) = .ok (m', ()) := by
  simp only [HrSys.exec]
  split <;> exact ⟨_, rfl⟩

/-- `apply_sysclock` on CPU 1 comes upon the callback on CPU 0. -/
theorem started_in_callback_bugs_due : ∃ m, HrRun (fun _ _ => True) dueTimer m ∧
    (∃ a, m.running 0 = some a ∧ a.name = .period 1) ∧
    m.exec (.finish 0) = .error (.oops, m) := by
  obtain ⟨m, hfollow, hcan, hstart, hcallback⟩ := exists_some_of_test
    (o := follow (fun m e => m.Can e ∧ True) HrSys.exec [.expire 0 (.period 1),
      .call 1 (applySysclockOps [1] fun _ => 1000), .op 1, .op 1, .forward 0 1000] dueTimer)
    (p := fun m => m.Can (.op 1) ∧ m.started (.op 1) = some (.period 1) ∧
      m.running 0 = some ⟨.period 1, true⟩) (by decide +kernel)
  have hrun : HrRun (fun _ _ => True) dueTimer m := reach_of_follow (.start rfl) hfollow
  obtain ⟨m₁, hexec⟩ := exec_op m 1
  refine ⟨m₁, .step hrun ⟨hcan, trivial⟩ hexec, ?_⟩
  exact started_in_callback_bugs dueTimer_noCallback hrun hcan hstart ⟨_, hcallback, rfl⟩ hexec
    (HrRun.refl m₁)

/-- **The `BUG_ON` is not hit by guarded calls.**  If every system call waits with `hrtimer_cancel` for
the callback of a period timer before it starts the timer, then in every run on any number of CPUs every
callback returns. -/
theorem guarded_never_bugs {m₀ m : HrSys} {cpu : Fin maxCpu} (h₀ : NoCallback m₀)
    (htodo : m₀.todo = []) (hrun : HrRun GuardedCalls m₀ m) (hcan : m.Can (.finish cpu)) :
    ∃ m', m.exec (.finish cpu) = .ok (m', ()) := by
  have hguarded : GuardedInv m := by
    refine hrRun_inv (I := GuardedInv) ⟨HrInv.start h₀, Clean.start h₀, fun _ => False, ?_, ?_⟩
      (fun _ _ _ hm hcan hok hstep hexec => hm.step hcan hok hstep hexec) hrun
    · exact fun _ _ => False.elim
    · rw [htodo]
      trivial
  exact hguarded.clean.returns hguarded.inv hcan

theorem guarded_setProcessBudgetOps (t : Tid) (period : ℤ) :
    Guarded (fun _ => False) (setProcessBudgetOps t period) := by
  simp [setProcessBudgetOps, Guarded]

/-- `sys_setProcessBudget` on CPU 1 waits for the callback on CPU 0. -/
theorem guarded_never_bugs_due : ∃ m, HrRun GuardedCalls dueTimer m ∧ m.todo ≠ [] ∧
    m.Can (.finish 0) ∧ ∃ m', m.exec (.finish 0) = .ok (m', ()) := by
  have hcall : HrRun GuardedCalls dueTimer _ :=
    .step (.step (.start rfl) (a := .expire 0 (.period 1)) ⟨by decide, trivial⟩ rfl)
      (a := .call 1 (setProcessBudgetOps 1 1000))
      ⟨by decide, guarded_setProcessBudgetOps 1 1000⟩ rfl
  have hrun : HrRun GuardedCalls dueTimer _ :=
    .step (.step hcall (a := .op 1) ⟨by decide, trivial⟩ rfl) (a := .forward 0 1000)
      ⟨by decide, trivial⟩ rfl
  exact ⟨_, hrun, by decide, by decide,
    guarded_never_bugs dueTimer_noCallback rfl hrun (by decide)⟩

/-- The event happens on one CPU, and enqueues timers there. -/
def HrEvent.OnCpu (c : Fin maxCpu) : HrEvent → Prop
  | .pass _ => True
  | .expire cpu _ | .forward cpu _ | .finish cpu | .call cpu _ | .op cpu => cpu = c
  | .hook cpu _ target => cpu = c ∧ target = c

/-- All timers are on one CPU. -/
structure OneCpuInv (c : Fin maxCpu) (m : HrSys) : Prop where
  inv : HrInv m
  clean : Clean m
  base : ∀ x, (m.timer x).base = c
  caller : m.caller = c

theorem started_of_free {m : HrSys} {e : HrEvent} {c : Fin maxCpu} {x : TimerName} (hcan : m.Can e)
    (hc : e.OnCpu c) (hcaller : m.caller = c) (hx : m.started e = some x) : m.running c = none := by
  cases e with
  | op target =>
    rw [← hcaller]
    exact hcan.1
  | hook cpu o target =>
    rw [← hc.1]
    exact hcan.1
  | _ => cases hx

theorem OneCpuInv.step {c : Fin maxCpu} {m m' : HrSys} {e : HrEvent} (h : OneCpuInv c m)
    (hcan : m.Can e) (hc : e.OnCpu c) (hstep : HrStep m e m') (hexec : m.exec e = .ok (m', ())) :
    OneCpuInv c m' := by
  have hcalm : ∀ x, m.started e = some x → x.restarts = true → (m.timer x).callback = false := by
    intro x hx _
    refine h.inv.free ?_
    rw [h.base x]
    exact started_of_free hcan hc h.caller hx
  refine ⟨h.inv.step hstep, h.clean.step hcalm hstep, fun x => ?_, ?_⟩
  · have hone := hstep.timer x
    generalize m'.timer x = t' at hone ⊢
    cases hone with
    | cancel hop => rw [tryToCancel_base, h.base x]
    | start expires cpu hstarted htarget =>
      have hcpu : cpu = c := by
        cases e with
        | op target => exact (Option.some.inj htarget).symm.trans hc
        | hook cpu' o target => exact (Option.some.inj htarget).symm.trans hc.2
        | _ => cases htarget
      rw [start_base, hcpu, h.base x, ite_self]
    | leave cpu a t ha hname hleave => rw [(leave_some hleave).2.1, h.base x]
    | _ => exact h.base x
  · obtain ⟨hcaller, -⟩ | ⟨cpu, ops, rfl⟩ := exec_rest hexec
    · exact hcaller.trans h.caller
    · cases hexec
      exact hc

/-- **One CPU.**  If all of it happens on one CPU, a callback is over before anything else goes on, and
the `BUG_ON` is not hit whatever the system calls do. -/
theorem one_cpu_never_bugs {c : Fin maxCpu} {m₀ m : HrSys} (h₀ : NoCallback m₀)
    (hbase : ∀ x, (m₀.timer x).base = c) (hcaller : m₀.caller = c)
    (hrun : HrRun (fun _ e => e.OnCpu c) m₀ m) (hcan : m.Can (.finish c)) :
    ∃ m', m.exec (.finish c) = .ok (m', ()) := by
  have hone : OneCpuInv c m :=
    hrRun_inv (I := OneCpuInv c) ⟨HrInv.start h₀, Clean.start h₀, hbase, hcaller⟩
      (fun _ _ _ hm hcan hc hstep hexec => hm.step hcan hc hstep hexec) hrun
  exact hone.clean.returns hone.inv hcan

/-- The same timer, with `apply_sysclock` on its CPU. -/
theorem one_cpu_never_bugs_due :
    ∃ m, HrRun (fun _ e => e.OnCpu 0) { dueTimer with caller := 0 } m ∧
      m.Can (.finish 0) ∧ ∃ m', m.exec (.finish 0) = .ok (m', ()) := by
  have hcall : HrRun (fun _ e => e.OnCpu 0) { dueTimer with caller := 0 } _ :=
    .step (.step (.start rfl) (a := .call 0 (applySysclockOps [1] fun _ => 0)) ⟨by decide, rfl⟩ rfl)
      (a := .op 0) ⟨by decide, rfl⟩ rfl
  have hrun : HrRun (fun _ e => e.OnCpu 0) { dueTimer with caller := 0 } _ :=
    .step (.step hcall (a := .expire 0 (.period 1)) ⟨by decide, rfl⟩ rfl) (a := .forward 0 1000)
      ⟨by decide, rfl⟩ rfl
  exact ⟨_, hrun, by decide, one_cpu_never_bugs ⟨fun _ => rfl, fun _ => rfl⟩ (fun _ => rfl) rfl hrun
    (by decide)⟩

/-! ### Which timers are stopped -/

/-- **What `hrtimer_try_to_cancel` stops.**  `sys_stopScheduling` and `apply_sysclock` try to cancel the
period timer of a task.  As long as nobody operates on the timer after that, it is idle at all times if
its callback was not running then, and at no time if it was: the callback puts it back. -/
theorem stops_iff {ok : HrSys → HrEvent → Prop} {m₀ m m₁ m' : HrSys} {t : Tid} {rest : List TimerOp}
    {target : Fin maxCpu} (h₀ : NoCallback m₀) (hrun : HrRun ok m₀ m)
    (htodo : m.todo = .tryToCancel (.period t) :: rest) (hcan : m.Can (.op target))
    (hexec : m.exec (.op target) = .ok (m₁, ()))
    (hrun' : HrRun (fun m e => m.operand e ≠ some (.period t)) m₁ m') :
    (m'.timer (.period t)).Idle ↔ (m.timer (.period t)).callback = false := by
  have hinv := (HrInv.start h₀).run hrun
  have hinv' := hinv.step (hrStep_of_exec hcan hexec)
  have htimer : m₁.timer (.period t) = (m.timer (.period t)).tryToCancel.1 := by
    simp only [HrSys.exec, htodo] at hexec
    cases hexec
    exact Function.update_self _ _ _
  cases hcb : (m.timer (.period t)).callback with
  | false =>
    refine iff_of_true ?_ rfl
    refine (hrRun_inv (I := fun m => HrInv m ∧ (m.timer (.period t)).Idle) ⟨hinv', ?_⟩ ?_ hrun').2
    · rw [htimer]
      exact (tryToCancel_of_not_callback hcb).1
    · rintro m e m' ⟨hm, hidle⟩ - hop hstep -
      exact ⟨hm.step hstep, idle_step hm hidle (fun hs => hop (operand_of_started hs)) hstep⟩
  | true =>
    refine iff_of_false ?_ Bool.noConfusion
    refine hrRun_inv (I := fun m => ¬ (m.timer (.period t)).Idle) ?_ ?_ hrun'
    · rw [htimer, tryToCancel_of_callback hcb]
      exact fun hidle => Bool.noConfusion (hidle.2.symm.trans hcb)
    · exact fun m e m' hactive _ hop hstep _ => active_step hactive rfl hop hstep

/-- `sys_stopScheduling` on CPU 1 comes upon the callback on CPU 0, and is over without having stopped the
timer. -/
theorem stops_iff_due : ∃ m, HrRun (fun _ _ => True) dueTimer m ∧ m.todo = [] ∧
    ¬ (m.timer (.period 1)).Idle := by
  obtain ⟨m, hfollow, hcan, htodo, hcallback⟩ := exists_some_of_test
    (o := follow (fun m e => m.Can e ∧ True) HrSys.exec [.expire 0 (.period 1),
      .call 1 (stopSchedulingOps [1]), .op 1] dueTimer)
    (p := fun m => m.Can (.op 1) ∧ m.todo = [.tryToCancel (.period 1)] ∧
      (m.timer (.period 1)).callback = true) (by decide +kernel)
  have hrun : HrRun (fun _ _ => True) dueTimer m := reach_of_follow (.start rfl) hfollow
  obtain ⟨m₁, hexec⟩ := exec_op m 1
  have hdone : m₁.todo = [] := by
    simp only [HrSys.exec, htodo] at hexec
    cases hexec
    rfl
  refine ⟨m₁, .step hrun ⟨hcan, trivial⟩ hexec, hdone, fun hidle => ?_⟩
  have hiff := stops_iff dueTimer_noCallback hrun htodo hcan hexec (.start rfl)
  exact Bool.noConfusion (hcallback.symm.trans (hiff.1 hidle))

/-! ### Where no callback runs -/

/-- The expiry of a timer that is enqueued. -/
def HrSys.pending (m : HrSys) (x : TimerName) : Option ℤ :=
  if (m.timer x).enqueued then some (m.timer x).expires else none

/-- The timers of the tasks. -/
def armed (s : KState) : TimerName → Option ℤ
  | .budget t => (s.task t).budgetTimer
  | .period t => (s.task t).periodTimer

/-- What an operation does to the timers if no callback runs. -/
def pendingStep (now : ℤ) (pending : TimerName → Option ℤ) : TimerOp → TimerName → Option ℤ
  | .tryToCancel x | .cancel x => Function.update pending x none
  | .start x d => Function.update pending x (some (now + d))

section Pending

variable {m : HrSys} {s s' : KState} {list : List Tid}

theorem setTimer_pending (m : HrSys) (x : TimerName) (t : Hrtimer) : (m.setTimer x t).pending =
    Function.update m.pending x (if t.enqueued then some t.expires else none) := by
  funext y
  by_cases hyx : y = x
  · subst hyx
    simp [HrSys.pending, HrSys.setTimer]
  · simp [HrSys.pending, HrSys.setTimer, hyx]

theorem setTimer_callback (hcb : ∀ x, (m.timer x).callback = false) {x : TimerName} {t : Hrtimer}
    (ht : t.callback = false) (y : TimerName) : ((m.setTimer x t).timer y).callback = false := by
  by_cases hyx : y = x
  · subst hyx
    simpa [HrSys.setTimer] using ht
  · simpa [HrSys.setTimer, hyx] using hcb y

theorem perform_pending (hcb : ∀ x, (m.timer x).callback = false) (cpu : Fin maxCpu) (o : TimerOp) :
    (m.perform cpu o).1.pending = pendingStep m.now m.pending o ∧
      (∀ x, ((m.perform cpu o).1.timer x).callback = false) ∧ (m.perform cpu o).1.now = m.now := by
  have hcancel : ∀ x, (m.setTimer x (m.timer x).tryToCancel.1).pending =
      Function.update m.pending x none ∧
      ∀ y, ((m.setTimer x (m.timer x).tryToCancel.1).timer y).callback = false := by
    intro x
    obtain ⟨hq, hc⟩ := (tryToCancel_of_not_callback (hcb x)).1
    rw [setTimer_pending, hq]
    exact ⟨rfl, setTimer_callback hcb hc⟩
  cases o with
  | tryToCancel x => exact ⟨(hcancel x).1, (hcancel x).2, rfl⟩
  | cancel x => exact ⟨(hcancel x).1, (hcancel x).2, rfl⟩
  | start x d =>
    refine ⟨setTimer_pending m x _, setTimer_callback hcb ?_, rfl⟩
    rw [start_callback, hcb x]

theorem performAll_pending (hcb : ∀ x, (m.timer x).callback = false) (cpu : Fin maxCpu)
    (ops : List TimerOp) :
    (ops.foldl (fun m o => (m.perform cpu o).1) m).pending =
      ops.foldl (pendingStep m.now) m.pending := by
  induction ops generalizing m with
  | nil => rfl
  | cons o ops ih =>
    obtain ⟨hpending, hcb', hnow⟩ := perform_pending hcb cpu o
    rw [List.foldl_cons, List.foldl_cons, ih hcb', hpending, hnow]

theorem armed_applyBudget (e : Env) (freq : TaskStruct → ℕ) (s : KState) (t : Tid) :
    armed (applyBudget e freq s t) = (stopTimers t).foldl (pendingStep s.now) (armed s) := by
  have hwake : ∀ s : KState, armed (s.eachThread t wakeUpProcess) = armed s := by
    intro s
    funext x
    cases x <;>
    · rename_i u
      obtain ⟨_, -, heq⟩ := wakeUpProcess_eq (s.task u)
      simp only [armed, KState.eachThread_task, heq]
      split_ifs <;> rfl
  rw [applyBudget, hwake]
  funext x
  cases x with
  | budget u => by_cases hu : u = t <;> simp [armed, stopTimers, pendingStep, hu]
  | period u => by_cases hu : u = t <;> simp [armed, stopTimers, pendingStep, hu]

theorem armed_startPeriodTimer (s : KState) (t : Tid) : armed (startPeriodTimer s t) =
    pendingStep s.now (armed s) (.start (.period t) (timespecToNs (s.task t).timePeriod)) := by
  funext x
  cases x with
  | budget u => by_cases hu : u = t <;> simp [armed, startPeriodTimer, pendingStep, hu]
  | period u => by_cases hu : u = t <;> simp [armed, startPeriodTimer, pendingStep, hu]

theorem applyBudget_timePeriod (e : Env) (freq : TaskStruct → ℕ) (s : KState) (t u : Tid) :
    ((applyBudget e freq s t).task u).timePeriod = (s.task u).timePeriod := by
  obtain ⟨_, -, heq⟩ := wakeUpProcess_eq ((s.modifyTask t fun p => { p with
    budgetTimer := none, periodTimer := none, computeTime := ⟨0, 0⟩
    budgetTime := updatedBudget e.maxFreq (freq p) p.minBudgetTime }).task u)
  simp only [applyBudget, KState.eachThread_task, heq]
  split_ifs <;> simp <;> split_ifs <;> rfl

/-- The first loop. -/
theorem armed_applyBudget_foldl (e : Env) (freq : TaskStruct → ℕ) (s : KState) (list : List Tid) :
    armed (list.foldl (applyBudget e freq) s) =
        (list.flatMap stopTimers).foldl (pendingStep s.now) (armed s) ∧
      (list.foldl (applyBudget e freq) s).now = s.now ∧
      ∀ u, ((list.foldl (applyBudget e freq) s).task u).timePeriod = (s.task u).timePeriod := by
  induction list generalizing s with
  | nil => exact ⟨rfl, rfl, fun _ => rfl⟩
  | cons t list ih =>
    obtain ⟨harmed, hnow, hperiod⟩ := ih (applyBudget e freq s t)
    rw [List.foldl_cons, List.flatMap_cons, List.foldl_append, ← armed_applyBudget e freq s t]
    exact ⟨harmed, hnow, fun u => (hperiod u).trans (applyBudget_timePeriod e freq s t u)⟩

/-- The second loop. -/
theorem armed_startPeriodTimer_foldl (s : KState) (list : List Tid) :
    armed (list.foldl startPeriodTimer s) =
      (list.map fun t => TimerOp.start (.period t) (timespecToNs (s.task t).timePeriod)).foldl
        (pendingStep s.now) (armed s) := by
  induction list generalizing s with
  | nil => rfl
  | cons t list ih =>
    have hperiod : ∀ u, ((startPeriodTimer s t).task u).timePeriod = (s.task u).timePeriod := by
      intro u
      by_cases hu : u = t <;> simp [startPeriodTimer, hu]
    rw [List.foldl_cons, List.map_cons, List.foldl_cons, ← armed_startPeriodTimer, ih]
    simp only [hperiod]
    rfl

/-- While no callback runs, the operations of `apply_sysclock` leave the timers that `applySysclock` says
the tasks have. -/
theorem applySysclock_pending {e : Env} {frequency f : ℕ} (cpu : Fin maxCpu)
    (hcb : ∀ x, (m.timer x).callback = false) (hnow : m.now = s.now) (hpending : m.pending = armed s)
    (hlist : s.periodicTasks e.fuel = .ok list)
    (happly : applySysclock e frequency s = .ok (s', f)) :
    ((applySysclockOps list fun t => timespecToNs (s.task t).timePeriod).foldl
      (fun m o => (m.perform cpu o).1) m).pending = armed s' := by
  have hs' : s' = list.foldl startPeriodTimer
      (list.foldl (applyBudget e fun _ => getTableFrequency e frequency) s) := by
    simp only [applySysclock, applyFrequency, hlist, Call.ok_bind] at happly
    cases happly
    rfl
  obtain ⟨harmed, hnow', hperiod⟩ :=
    armed_applyBudget_foldl e (fun _ => getTableFrequency e frequency) s list
  rw [performAll_pending hcb, hs', armed_startPeriodTimer_foldl, harmed, hnow', applySysclockOps,
    List.foldl_append, hnow, hpending]
  simp only [hperiod]

end Pending

end RtSched
