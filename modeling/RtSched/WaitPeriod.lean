import RtSched.Base.Run
import RtSched.Switch
import RtSched.Syscall

/-!
# Waiting for the next period (`waitUntilNextPeriod.c`)

`sys_waitUntilNextPeriod` writes the time used under `tasklist_lock`, and puts the threads to sleep
one by one after it has given the lock back.  `period_timer_callback` takes `task_spin_lock` only.
So the steps of the two may follow each other in any order.

* `Waiting`, `WaitEvent`, `Waiting.after`: how far the call and the callback are, and their steps;
* `callback_alone`: with no step in between, the callback is `periodCallback`;
* `WaitInv`: a callback that begins when all threads have been put to sleep wakes them all;
* `waitUntilNextPeriod_wakes`: if none begins while they are, no replenishment is lost.
-/

namespace RtSched

open Call

/-! ### The steps -/

/-- How far `sys_waitUntilNextPeriod` is. -/
inductive WaitPc
  | entered
  /-- `compute_time` is written, and the threads `rest` are still to be put to sleep -/
  | setting (rest : List Tid)
  /-- past `schedule()` -/
  | scheduled
  /-- returned with an error -/
  | failed (r : ℤ)
  deriving DecidableEq, Repr

/-- How far `period_timer_callback` is. -/
inductive TimerPc
  | idle
  /-- The budget is replenished for the expiry `expires` and the threads `rest` are still to be woken.
  `late` says that the call had written `compute_time` before. -/
  | waking (expires : ℤ) (late : Bool) (rest : List Tid)
  deriving DecidableEq, Repr

/-- A call for `pid` by the thread `caller`, and the callback of the period timer of that task. -/
structure Waiting where
  st : KState
  caller : Tid
  pid : ℤ
  call : WaitPc
  timer : TimerPc
  /-- the expiry for which a callback has run that began after the call had written `compute_time` -/
  served : Option ℤ

/-- The task that is named, if there is one. -/
def Waiting.target (w : Waiting) : Tid := w.pid.toNat

/-- The call up to `write_unlock`: the checks, and the write of `compute_time`. -/
def waitUntilNextPeriod (pid : ℤ) (s : KState) : KState × WaitPc :=
  if pid ≤ 0 then (s, .failed (-einval))
  else
    match s.findTaskByVpid pid with
    | none => (s, .failed (-esrch))
    | some curr =>
      if (s.task curr).isBudgetSet = false then (s, .failed (-einval))
      else if (s.task curr).budgetTime = ⟨-1, -1⟩ then (s, .failed (-einval))
      else
        (s.modifyTask curr fun p => { p with computeTime := p.budgetTime },
          .setting (s.threads curr))

/-- A step of the call, a step of the callback, or neither. -/
inductive WaitEvent
  /-- the part of the call under `tasklist_lock` -/
  | enter
  /-- the next thread is put to sleep -/
  | sleep
  /-- `schedule()`, which may pick the caller again -/
  | schedule (again : Bool)
  /-- the callback begins -/
  | expire
  /-- the callback wakes the next thread, or ends -/
  | wake
  /-- time passes -/
  | pass (d : ℕ)
  deriving DecidableEq, Repr

/-- The state after a step. -/
def Waiting.after (w : Waiting) : WaitEvent → Waiting
  | .enter =>
      { w with
        st := (waitUntilNextPeriod w.pid w.st).1
        call := (waitUntilNextPeriod w.pid w.st).2 }
  | .sleep =>
      match w.call with
      | .setting (u :: rest) =>
          { w with st := w.st.modifyTask u putToSleep, call := .setting rest }
      | _ => w
  | .schedule again =>
      { w with st := if again then w.st else switchOut w.caller w.st, call := .scheduled }
  | .expire =>
      match (w.st.task w.target).periodTimer with
      | some expires =>
          { w with
            st := w.st.modifyTask w.target fun p => { p with
              computeTime := ⟨0, 0⟩
              periodTimer := some (hrtimerForward expires w.st.now (timespecToNs p.timePeriod)) }
            timer := .waking expires (decide (w.call ≠ .entered)) (w.st.threads w.target) }
      | none => w
  | .wake =>
      match w.timer with
      | .waking expires late (u :: rest) =>
          { w with st := w.st.modifyTask u wakeUpProcess, timer := .waking expires late rest }
      | .waking expires late [] =>
          { w with timer := .idle, served := if late then some expires else w.served }
      | .idle => w
  | .pass d => { w with st := { w.st with now := w.st.now + d } }

def Waiting.exec (w : Waiting) (a : WaitEvent) : Call Waiting (Waiting × Unit) := .ok (w.after a, ())

/-- Between the write of `compute_time` and the last `set_task_state`. -/
def WaitPc.InWindow : WaitPc → Prop
  | .setting (_ :: _) => True
  | _ => False

instance : (pc : WaitPc) → Decidable pc.InWindow
  | .setting (_ :: _) => instDecidableTrue
  | .setting [] | .entered | .scheduled | .failed _ => instDecidableFalse

/-- Each program goes through its steps in order; the callback begins when the timer is due, or
later. -/
def WaitPossible (w : Waiting) : WaitEvent → Prop
  | .enter => w.call = .entered
  | .sleep => w.call.InWindow
  | .schedule _ => w.call = .setting []
  | .expire => w.timer = .idle ∧
      ((w.st.task w.target).periodTimer.any fun x => decide (x ≤ w.st.now)) = true
  | .wake => w.timer ≠ .idle
  | .pass _ => True

instance (w : Waiting) : (a : WaitEvent) → Decidable (WaitPossible w a)
  | .enter => instDecidableEqWaitPc _ _
  | .sleep => inferInstanceAs (Decidable w.call.InWindow)
  | .schedule _ => instDecidableEqWaitPc _ _
  | .expire => instDecidableAnd
  | .wake => instDecidableNot
  | .pass _ => instDecidableTrue

/-- The call has been made, in any state of the kernel. -/
structure WaitCalled (w : Waiting) : Prop where
  call : w.call = .entered
  timer : w.timer = .idle
  served : w.served = none

/-- A callback that began after the write has run, the call is past `schedule()`, and still a thread
of the task sleeps, with no wake-up before another full period is over. -/
structure LostReplenishment (w : Waiting) : Prop where
  scheduled : w.call = .scheduled
  asleep : ∃ u ∈ w.st.threads w.target, (w.st.task u).state = .uninterruptible
  idle : w.timer = .idle
  nextWake : ∃ e ∈ w.served, ∀ x ∈ (w.st.task w.target).periodTimer,
    e + timespecToNs (w.st.task w.target).timePeriod ≤ x

/-! ### The callback by itself -/

section Alone

theorem wakeUpProcess_ne (p : TaskStruct) : (wakeUpProcess p).state ≠ .uninterruptible := by
  obtain ⟨state, hstate, heq⟩ := wakeUpProcess_eq p
  rw [heq]
  exact hstate

theorem wakeUpProcess_idem (p : TaskStruct) : wakeUpProcess (wakeUpProcess p) = wakeUpProcess p := by
  cases h : p.state <;> simp [wakeUpProcess, h]

/-- Waking one thread and then others. -/
theorem modifyTask_wake (u v : Tid) (rest : List Tid) (s : KState) :
    (if v ∈ rest then wakeUpProcess ((s.modifyTask u wakeUpProcess).task v)
      else (s.modifyTask u wakeUpProcess).task v) =
      if v ∈ u :: rest then wakeUpProcess (s.task v) else s.task v := by
  rw [KState.modifyTask_task]
  by_cases hv : v = u
  · simp [hv, wakeUpProcess_idem]
  · simp [hv]

/-- The callback from some point on. -/
theorem wakes_alone (e : ℤ) (late : Bool) (rest : List Tid) (w : Waiting)
    (h : w.timer = .waking e late rest) :
    ((List.replicate (rest.length + 1) WaitEvent.wake).foldl Waiting.after w).st =
      { w.st with task := fun v => if v ∈ rest then wakeUpProcess (w.st.task v) else w.st.task v } := by
  induction rest generalizing w with
  | nil => simp [Waiting.after, h]
  | cons u rest ih =>
    have hafter : w.after .wake =
        { w with st := w.st.modifyTask u wakeUpProcess, timer := .waking e late rest } := by
      simp only [Waiting.after, h]
    rw [List.length_cons, List.replicate_succ, List.foldl_cons, hafter, ih _ rfl]
    have htask := funext fun v => modifyTask_wake u v rest w.st
    simp only [htask]
    rfl

/-- Begun and ended with no other step in between, the callback is `periodCallback`. -/
theorem callback_alone {w : Waiting} {e : ℤ} (h : (w.st.task w.target).periodTimer = some e) :
    ((List.replicate ((w.st.threads w.target).length + 1) WaitEvent.wake).foldl Waiting.after
      (w.after .expire)).st = periodCallback w.target w.st := by
  have hafter : w.after .expire = { w with
      st := w.st.modifyTask w.target fun p => { p with
        computeTime := ⟨0, 0⟩
        periodTimer := some (hrtimerForward e w.st.now (timespecToNs p.timePeriod)) }
      timer := .waking e (decide (w.call ≠ .entered)) (w.st.threads w.target) } := by
    simp only [Waiting.after, h]
  rw [hafter, wakes_alone e _ _ _ rfl, periodCallback]
  have hfirst : (w.st.modifyTask w.target fun p => { p with
        computeTime := ⟨0, 0⟩
        periodTimer := p.periodTimer.map fun expires =>
          hrtimerForward expires w.st.now (timespecToNs p.timePeriod) }) =
      w.st.modifyTask w.target fun p => { p with
        computeTime := ⟨0, 0⟩
        periodTimer := some (hrtimerForward e w.st.now (timespecToNs p.timePeriod)) } := by
    apply modifyTask_congr
    simp only [h, Option.map_some]
  simp only [hfirst]
  rw [KState.eachThread, (sameGroups_modifyTask w.st w.target _).threads]
  exact fun _ => rfl

end Alone

/-! ### Who sleeps -/

/-- The second state has the same groups of threads, and the same threads asleep. -/
structure SameSleepers (s s' : KState) : Prop extends SameGroups s s' where
  state : ∀ u, (s'.task u).state = (s.task u).state

theorem sameSleepers_modifyTask (s : KState) (t : Tid) {f : TaskStruct → TaskStruct}
    (htgid : ∀ p, (f p).tgid = p.tgid) (hstate : ∀ p, (f p).state = p.state) :
    SameSleepers s (s.modifyTask t f) := by
  refine ⟨sameGroups_modifyTask s t htgid, fun u => ?_⟩
  rw [KState.modifyTask_task]
  split_ifs
  · exact hstate _
  · rfl

theorem sameSleepers_switchOut (prev : Tid) (s : KState) : SameSleepers s (switchOut prev s) := by
  refine ⟨sameGroups_switchOut prev s, fun u => ?_⟩
  rw [switchOut_task]
  split_ifs <;> rfl

/-- The threads of `t` that sleep are among `rest`. -/
def SleepersIn (s : KState) (t : Tid) (rest : List Tid) : Prop :=
  ∀ u ∈ s.threads t, (s.task u).state = .uninterruptible → u ∈ rest

section Sleepers

variable {s s' : KState} {t u : Tid} {rest : List Tid}

theorem SleepersIn.same (h : SleepersIn s t rest) (hs : SameSleepers s s') :
    SleepersIn s' t rest := by
  intro v hv hstate
  rw [hs.threads] at hv
  rw [hs.state] at hstate
  exact h v hv hstate

/-- The next of them is woken. -/
theorem SleepersIn.wake (h : SleepersIn s t (u :: rest)) :
    SleepersIn (s.modifyTask u wakeUpProcess) t rest := by
  have hgroups : SameGroups s (s.modifyTask u wakeUpProcess) :=
    sameGroups_modifyTask s u fun p => by
      obtain ⟨_, -, heq⟩ := wakeUpProcess_eq p
      rw [heq]
  intro v hv hstate
  rw [hgroups.threads] at hv
  rw [KState.modifyTask_task] at hstate
  by_cases hvu : v = u
  · rw [if_pos hvu] at hstate
    exact absurd hstate (wakeUpProcess_ne _)
  · rw [if_neg hvu] at hstate
    exact (List.mem_cons.1 (h v hv hstate)).resolve_left hvu

theorem SleepersIn.nil_wake (h : SleepersIn s t []) (u : Tid) :
    SleepersIn (s.modifyTask u wakeUpProcess) t [] :=
  SleepersIn.wake fun v hv hstate => absurd (h v hv hstate) List.not_mem_nil

end Sleepers

/-! ### Runs -/

/-- The callback does not begin between the write of `compute_time` and the last `set_task_state`. -/
def OutsideWindow (w : Waiting) (a : WaitEvent) : Prop :=
  WaitPossible w a ∧ (a = .expire → ¬ w.call.InWindow)

instance (w : Waiting) (a : WaitEvent) : Decidable (OutsideWindow w a) := instDecidableAnd

structure WaitInv (w : Waiting) : Prop where
  /-- as long as the call may put a thread to sleep no callback has begun after the write -/
  early : w.call = .entered ∨ w.call.InWindow →
    w.served = none ∧ ∀ e rest, w.timer ≠ .waking e true rest
  waking : ∀ e rest, w.timer = .waking e true rest → SleepersIn w.st w.target rest
  served : w.served ≠ none → SleepersIn w.st w.target []

section Steps

variable {w : Waiting}

/-- While the call may put a thread to sleep, nothing is to be shown of the threads. -/
theorem WaitInv.of_early {w' : Waiting} (h : w.served = none ∧ ∀ e rest, w.timer ≠ .waking e true rest)
    (hserved : w'.served = w.served) (htimer : w'.timer = w.timer) : WaitInv w' := by
  rw [← hserved, ← htimer] at h
  exact ⟨fun _ => h, fun e rest ht => absurd ht (h.2 e rest), fun hs => absurd h.1 hs⟩

theorem waitInv_enter (h : WaitInv w) (hp : w.call = .entered) : WaitInv (w.after .enter) :=
  WaitInv.of_early (h.early (Or.inl hp)) rfl rfl

theorem waitInv_sleep (h : WaitInv w) (hp : w.call.InWindow) : WaitInv (w.after .sleep) := by
  refine WaitInv.of_early (h.early (Or.inr hp)) ?_ ?_
  all_goals
    simp only [Waiting.after]
    split <;> rfl

theorem waitInv_schedule (h : WaitInv w) (again : Bool) : WaitInv (w.after (.schedule again)) := by
  have hsame : SameSleepers w.st (w.after (.schedule again)).st := by
    cases again
    · exact sameSleepers_switchOut w.caller w.st
    · exact ⟨SameGroups.refl _, fun _ => rfl⟩
  refine ⟨?_, fun e rest ht => (h.waking e rest ht).same hsame, fun hs => (h.served hs).same hsame⟩
  rintro (hcall | hcall)
  · cases hcall
  · exact hcall.elim

/-- Outside the window, the callback has all threads of the task to wake. -/
theorem waitInv_expire (h : WaitInv w) (hwindow : ¬ w.call.InWindow) : WaitInv (w.after .expire) := by
  cases htimer : (w.st.task w.target).periodTimer with
  | none =>
    have hafter : w.after .expire = w := by simp only [Waiting.after, htimer]
    rw [hafter]
    exact h
  | some expires =>
    have hafter : w.after .expire = { w with
        st := w.st.modifyTask w.target fun p => { p with
          computeTime := ⟨0, 0⟩
          periodTimer := some (hrtimerForward expires w.st.now (timespecToNs p.timePeriod)) }
        timer := .waking expires (decide (w.call ≠ .entered)) (w.st.threads w.target) } := by
      simp only [Waiting.after, htimer]
    have hsame : SameSleepers w.st (w.st.modifyTask w.target fun p => { p with
        computeTime := ⟨0, 0⟩
        periodTimer := some (hrtimerForward expires w.st.now (timespecToNs p.timePeriod)) }) :=
      sameSleepers_modifyTask w.st w.target (fun _ => rfl) fun _ => rfl
    rw [hafter]
    refine ⟨fun hcall => ?_, fun e rest ht => ?_, fun hs => (h.served hs).same hsame⟩
    · have hentered : w.call = .entered := hcall.resolve_right hwindow
      refine ⟨(h.early hcall).1, fun e rest ht => ?_⟩
      simp [hentered] at ht
    · obtain ⟨-, -, rfl⟩ := TimerPc.waking.inj ht
      exact SleepersIn.same (fun u hu _ => hu) hsame

theorem waitInv_wake (h : WaitInv w) : WaitInv (w.after .wake) := by
  cases htimer : w.timer with
  | idle =>
    have hafter : w.after .wake = w := by simp only [Waiting.after, htimer]
    rw [hafter]
    exact h
  | waking expires late rest =>
    cases rest with
    | nil =>
      have hafter : w.after .wake =
          { w with timer := .idle, served := if late then some expires else w.served } := by
        simp only [Waiting.after, htimer]
      rw [hafter]
      cases late with
      | false =>
        exact ⟨fun hcall => ⟨(h.early hcall).1, fun e rest ht => nomatch ht⟩,
          fun e rest ht => (nomatch ht), h.served⟩
      | true =>
        exact ⟨fun hcall => absurd htimer ((h.early hcall).2 expires []),
          fun e rest ht => (nomatch ht), fun _ => h.waking expires [] htimer⟩
    | cons u rest =>
      have hafter : w.after .wake =
          { w with st := w.st.modifyTask u wakeUpProcess, timer := .waking expires late rest } := by
        simp only [Waiting.after, htimer]
      rw [hafter]
      refine ⟨fun hcall => ⟨(h.early hcall).1, fun e rest' ht => ?_⟩, fun e rest' ht => ?_,
        fun hs => (h.served hs).nil_wake u⟩
      · cases ht
        exact (h.early hcall).2 expires (u :: rest) htimer
      · cases ht
        exact (h.waking expires (u :: rest) htimer).wake

end Steps

theorem waitInv_after {w : Waiting} (h : WaitInv w) {a : WaitEvent} (ha : OutsideWindow w a) :
    WaitInv (w.after a) := by
  obtain ⟨hp, hwindow⟩ := ha
  cases a with
  | enter => exact waitInv_enter h hp
  | sleep => exact waitInv_sleep h hp
  | schedule again => exact waitInv_schedule h again
  | expire => exact waitInv_expire h (hwindow rfl)
  | wake => exact waitInv_wake h
  | pass d =>
    have hsame : SameSleepers w.st (w.after (.pass d)).st := ⟨⟨rfl, fun _ => rfl⟩, fun _ => rfl⟩
    exact ⟨h.early, fun e rest ht => (h.waking e rest ht).same hsame,
      fun hs => (h.served hs).same hsame⟩

/-- **Replenishments are not lost.**  If the callback never begins between the write of
`compute_time` and the last `set_task_state`, a thread that sleeps after a callback has run will be
woken before another period is over. -/
theorem waitUntilNextPeriod_wakes {w : Waiting} (h : Reach WaitCalled OutsideWindow Waiting.exec w) :
    ¬ LostReplenishment w := by
  have hinv : WaitInv w := by
    refine Reach.inv (I := WaitInv) (E := fun _ => True) (fun w hw => ?_) (fun w a hw ha => ?_) h
    · refine WaitInv.of_early (w := w) ⟨hw.served, fun e rest ht => ?_⟩ rfl rfl
      rw [hw.timer] at ht
      cases ht
    · exact waitInv_after hw ha
  intro hlost
  obtain ⟨e, he, -⟩ := hlost.nextWake
  obtain ⟨u, hu, hstate⟩ := hlost.asleep
  have hserved : w.served ≠ none := by
    rw [Option.mem_def.1 he]
    exact Option.some_ne_none e
  exact List.not_mem_nil (hinv.served hserved u hu hstate)

/-- Process 1 calls for itself. -/
def waitFrom (s : KState) : Waiting := ⟨s, 1, 1, .entered, .idle, none⟩

theorem waitCalled_waitFrom (s : KState) : WaitCalled (waitFrom s) := ⟨rfl, rfl, rfl⟩

/-- 100 ms in every second.  The callback comes when all threads sleep, and they are awake again. -/
theorem waitUntilNextPeriod_wakes_one :
    ∃ s r, exec twoSpeeds (bootState [1] .noPm) (.setProcessBudget 1 100000000 ⟨1, 0⟩) = .ok (s, r) ∧
      ∃ w, Reach WaitCalled OutsideWindow Waiting.exec w ∧ w.st.periodicTasksSize = 1 ∧
        w.call = .scheduled ∧ w.served = some 1000000000 ∧ ¬ LostReplenishment w := by
  obtain ⟨⟨s, r⟩, hs, htest⟩ : ∃ x, exec twoSpeeds (bootState [1] .noPm)
      (.setProcessBudget 1 100000000 ⟨1, 0⟩) = .ok x ∧
      (follow OutsideWindow Waiting.exec [.pass 1000000000, .enter, .sleep, .schedule false, .expire,
        .wake, .wake] (waitFrom x.1)).any (fun w => decide (w.st.periodicTasksSize = 1 ∧
          w.call = .scheduled ∧ w.served = some 1000000000)) = true :=
    exists_ok_of_test (by decide)
  obtain ⟨w, hw, hsize, hcall, hserved⟩ := exists_some_of_test htest
  have hreach := reach_of_follow (Reach.start (waitCalled_waitFrom s)) hw
  exact ⟨s, r, hs, w, hreach, hsize, hcall, hserved, waitUntilNextPeriod_wakes hreach⟩

/-- The same process, with a callback between the write and the last `set_task_state`: it sleeps a
second longer than it should. -/
theorem waitUntilNextPeriod_oversleeps :
    ∃ s r, exec twoSpeeds (bootState [1] .noPm) (.setProcessBudget 1 100000000 ⟨1, 0⟩) = .ok (s, r) ∧
      ¬ ∀ w, Reach (fun w => WaitCalled w ∧ w.st = s) WaitPossible Waiting.exec w →
        ¬ LostReplenishment w := by
  obtain ⟨⟨s, r⟩, hs, htest⟩ : ∃ x, exec twoSpeeds (bootState [1] .noPm)
      (.setProcessBudget 1 100000000 ⟨1, 0⟩) = .ok x ∧
      (follow WaitPossible Waiting.exec [.pass 1000000000, .enter, .expire, .wake, .wake, .sleep,
        .schedule false] (waitFrom x.1)).any (fun w => decide (w.call = .scheduled ∧
          (w.st.task 1).state = .uninterruptible ∧ w.timer = .idle ∧ w.served = some 1000000000 ∧
          w.target = 1 ∧ (w.st.task 1).periodTimer = some 2000000000 ∧
          (w.st.task 1).timePeriod = ⟨1, 0⟩)) = true :=
    exists_ok_of_test (by decide +kernel)
  obtain ⟨w, hw, hcall, hstate, htimer, hserved, htarget, hnext, hperiod⟩ := exists_some_of_test htest
  refine ⟨s, r, hs, fun hall => ?_⟩
  refine hall w (reach_of_follow (Reach.start ⟨waitCalled_waitFrom s, rfl⟩) hw) ⟨hcall, ?_, htimer, ?_⟩
  · exact ⟨1, htarget ▸ KState.self_mem_threads _ _, hstate⟩
  · refine ⟨1000000000, hserved, fun x hx => ?_⟩
    rw [htarget, hnext] at hx
    rw [htarget, hperiod, ← Option.some.inj hx]
    decide

end RtSched
