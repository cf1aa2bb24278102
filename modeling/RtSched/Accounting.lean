import RtSched.Switch

/-!
# What a task is charged for

At switch-out the hook charges the time since `exec_time`, the start of the slice.  That field is
written at switch-in and nowhere else, while `compute_time` is set back by the period timer, at any
time; and it is one field for all threads of a process.

* `charged_since_replenished`: a task of one thread has been charged for what it ran since the last
  `period_timer_callback`, as long as none falls inside a slice;
* `charged_twice`: one that does is followed by a charge for the whole slice;
* `group_charged`: a process has been charged for all its slices, as long as they do not overlap or
  begin at one instant;
* `group_undercharged`: of two overlapping slices one is charged from the start of the other.
-/

namespace RtSched

open Call

/-! ### One task and its replenishments -/

/-- A task with a reservation that has not run yet. -/
structure Uncharged (s : CpuState) : Prop where
  off : s.running = false
  budgetSet : s.task.isBudgetSet = true
  compute : s.task.computeTime = ⟨0, 0⟩
  executed : s.executed = 0

/-- The task gets the CPU when it has not got it, and leaves it when it has.  The timers may expire
at any time. -/
def Alternates (s : CpuState) : CpuEvent → Prop
  | .switchIn => s.running = false
  | .resched _ _ => s.running = true
  | _ => True

instance (s : CpuState) : (a : CpuEvent) → Decidable (Alternates s a)
  | .switchIn | .resched _ _ => instDecidableEqBool _ _
  | .pass _ | .budgetExpiry | .periodExpiry => instDecidableTrue

/-- No replenishment inside a slice. -/
def BetweenSlices (s : CpuState) : CpuEvent → Prop
  | .periodExpiry => s.running = true → timespecToNs s.task.execTime = s.now
  | _ => True

instance (s : CpuState) : (a : CpuEvent) → Decidable (BetweenSlices s a)
  | .periodExpiry => inferInstanceAs (Decidable (s.running = true → _))
  | .pass _ | .switchIn | .resched _ _ | .budgetExpiry => instDecidableTrue

/-- Off the CPU the task has been charged for what it ran, on the CPU for all but the slice. -/
structure ChargeInv (s : CpuState) : Prop where
  budgetSet : s.task.isBudgetSet = true
  off : s.running = false → timespecToNs s.task.computeTime = s.executed
  on : s.running = true →
    timespecToNs s.task.computeTime + (s.now - timespecToNs s.task.execTime) = s.executed

variable {s : CpuState}

theorem chargeInv_start (h : Uncharged s) : ChargeInv s := by
  refine ⟨h.budgetSet, fun _ => ?_, fun hr => ?_⟩
  · rw [h.compute, h.executed]
    rfl
  · rw [h.off] at hr
    cases hr

theorem chargeInv_pass (h : ChargeInv s) (d : ℕ) : ChargeInv (s.after (.pass d)) := by
  refine ⟨h.budgetSet, fun hr => ?_, fun hr => ?_⟩
  · have hoff := h.off hr
    simp only [CpuState.after] at hr ⊢
    rw [hr]
    exact hoff
  · have hon := h.on hr
    simp only [CpuState.after] at hr ⊢
    rw [if_pos hr]
    omega

/-- The hook at switch-in leaves the time used alone and notes the start of the slice. -/
theorem hookIn_fields (now : ℤ) {p : TaskStruct} (hset : p.isBudgetSet = true) :
    (hookIn now p).isBudgetSet = true ∧ (hookIn now p).computeTime = p.computeTime ∧
      (hookIn now p).execTime = nsToTimespec now := by
  simp only [hookIn, hset, if_true, armBudget]
  split_ifs <;> exact ⟨rfl, rfl, rfl⟩

theorem chargeInv_switchIn (h : ChargeInv s) (hoff : s.running = false) :
    ChargeInv (s.after .switchIn) := by
  obtain ⟨hset, hcompute, hexec⟩ := hookIn_fields s.now h.budgetSet
  refine ⟨hset, fun hr => ?_, fun _ => ?_⟩
  · cases hr
  · show timespecToNs (hookIn s.now s.task).computeTime +
      (s.now - timespecToNs (hookIn s.now s.task).execTime) = s.executed
    rw [hcompute, hexec, timespecToNs_nsToTimespec, h.off hoff]
    omega

/-- The hook at switch-out charges the time since the start of the slice. -/
theorem hookOut_fields (now : ℤ) {p : TaskStruct} (hset : p.isBudgetSet = true) :
    (hookOut now p).isBudgetSet = true ∧ timespecToNs (hookOut now p).computeTime =
      timespecToNs p.computeTime + (now - timespecToNs p.execTime) := by
  simp only [hookOut, hset, if_true]
  refine ⟨trivial, ?_⟩
  rw [timespecToNs_add, timespecToNs_sub, timespecToNs_nsToTimespec]

theorem chargeInv_resched (h : ChargeInv s) (hon : s.running = true) (preemptActive again : Bool) :
    ChargeInv (s.after (.resched preemptActive again)) := by
  cases again with
  | true => exact ⟨h.budgetSet, h.off, h.on⟩
  | false =>
    obtain ⟨hset, hcompute⟩ :=
      hookOut_fields s.now (p := { s.task with needResched := false }) h.budgetSet
    refine ⟨hset, fun _ => ?_, fun hr => ?_⟩
    · exact hcompute.trans (h.on hon)
    · cases hr

theorem chargeInv_budgetExpiry (h : ChargeInv s) : ChargeInv (s.after .budgetExpiry) := by
  have htask : (s.after .budgetExpiry).task = budgetTimerCallback s.task := rfl
  unfold budgetTimerCallback at htask
  split_ifs at htask
  all_goals exact ⟨htask ▸ h.budgetSet, htask ▸ h.off, htask ▸ h.on⟩

theorem chargeInv_periodExpiry (h : ChargeInv s) (hok : BetweenSlices s .periodExpiry) :
    ChargeInv (s.after .periodExpiry) := by
  obtain ⟨state, -, hwake⟩ := wakeUpProcess_eq { s.task with
    computeTime := ⟨0, 0⟩
    periodTimer := s.task.periodTimer.map fun expires =>
      hrtimerForward expires s.now (timespecToNs s.task.timePeriod) }
  have htask : (s.after .periodExpiry).task = _ := hwake
  refine ⟨?_, fun _ => ?_, fun hr => ?_⟩ <;> rw [htask]
  · exact h.budgetSet
  · rfl
  · have hnow := hok hr
    show 0 + (s.now - timespecToNs s.task.execTime) = 0
    omega

/-- **Replenishment.**  In every run in which no `period_timer_callback` falls inside a slice, at
every switch-out the task has been charged for what it ran since the last one. -/
theorem charged_since_replenished {s : CpuState}
    (h : Reach Uncharged (fun s a => Alternates s a ∧ BetweenSlices s a) cpuExec s)
    (hr : s.running = true) (preemptActive : Bool) :
    timespecToNs (s.after (.resched preemptActive false)).task.computeTime =
      (s.after (.resched preemptActive false)).executed := by
  have hinv : ChargeInv s := by
    refine h.inv (E := fun _ => False) (fun _ => chargeInv_start) fun s a hs hok => ?_
    cases a with
    | pass d => exact chargeInv_pass hs d
    | switchIn => exact chargeInv_switchIn hs hok.1
    | resched preemptActive again => exact chargeInv_resched hs hok.1 preemptActive again
    | budgetExpiry => exact chargeInv_budgetExpiry hs
    | periodExpiry => exact chargeInv_periodExpiry hs hok.2
  exact (chargeInv_resched hinv hr preemptActive false).off rfl

theorem uncharged_shortBudget : Uncharged shortBudget := ⟨rfl, rfl, rfl, rfl⟩

/-- Two slices of 5 µs and 7 µs, the first before a replenishment. -/
theorem charged_since_replenished_second :
    ∃ s, Reach Uncharged (fun s a => Alternates s a ∧ BetweenSlices s a) cpuExec s ∧
      s.executed = 7000 ∧
      timespecToNs (s.after (.resched false false)).task.computeTime =
        (s.after (.resched false false)).executed := by
  obtain ⟨s, hs, hexec, hr⟩ : ∃ s, follow (fun s a => Alternates s a ∧ BetweenSlices s a) cpuExec
      [.switchIn, .pass 5000, .resched false false, .pass 95000, .periodExpiry, .switchIn,
        .pass 7000] shortBudget = some s ∧ s.executed = 7000 ∧ s.running = true :=
    exists_some_of_test (by decide)
  have hreach := reach_of_follow (Reach.start uncharged_shortBudget) hs
  exact ⟨s, hreach, hexec, charged_since_replenished hreach hr false⟩

/-- A slice of 2 µs with the replenishment in its middle: the second period is charged for all of
it. -/
theorem charged_twice :
    ¬ ∀ s, Reach Uncharged Alternates cpuExec s → s.running = true → ∀ preemptActive,
      timespecToNs (s.after (.resched preemptActive false)).task.computeTime =
        (s.after (.resched preemptActive false)).executed := by
  intro h
  obtain ⟨s, hs, hr, hne⟩ : ∃ s, follow Alternates cpuExec
      [.pass 99000, .switchIn, .pass 1000, .periodExpiry, .pass 1000] shortBudget = some s ∧
      s.running = true ∧ timespecToNs (s.after (.resched false false)).task.computeTime ≠
        (s.after (.resched false false)).executed :=
    exists_some_of_test (by decide)
  exact hne (h s (reach_of_follow (Reach.start uncharged_shortBudget) hs) hr false)

/-! ### A process and its threads -/

/-- The CPUs, with what the threads of a process have run: when the slice on each CPU began, and the
length of all slices that have ended. -/
structure Ledger extends Smp where
  started : Fin maxCpu → ℤ
  used : ℤ

/-- The ledger after an event. -/
def Ledger.after (g : Ledger) (a : SmpEvent) : Ledger where
  toSmp := g.toSmp.after a
  started :=
    match a with
    | .switchIn cpu _ => Function.update g.started cpu g.st.now
    | _ => g.started
  used :=
    match a with
    | .switchOut cpu => g.used + (g.st.now - g.started cpu)
    | _ => g.used

/-- An event as a step of a run. -/
def ledgerExec (g : Ledger) (a : SmpEvent) : Call Ledger (Ledger × Unit) := .ok (g.after a, ())

/-- A process whose threads all have the flag, at the beginning of a period. -/
structure GroupStart (leader : Tid) (g : Ledger) : Prop where
  flagged : ∀ t, (g.st.task t).tgid = leader → (g.st.task t).isBudgetSet = true
  compute : (g.st.task leader).computeTime = ⟨0, 0⟩
  off : ∀ cpu, g.curr cpu = none
  used : g.used = 0

/-- Time passes, and the threads of the process are switched. -/
def GroupEvent (leader : Tid) (g : Ledger) : SmpEvent → Prop
  | .pass _ => True
  | .switchIn cpu t => Possible g.toSmp (.switchIn cpu t) ∧ (g.st.task t).tgid = leader
  | .switchOut cpu => Possible g.toSmp (.switchOut cpu)
  | _ => False

instance (leader : Tid) (g : Ledger) : (a : SmpEvent) → Decidable (GroupEvent leader g a)
  | .pass _ => instDecidableTrue
  | .switchIn _ _ => instDecidableAnd
  | .switchOut cpu => inferInstanceAs (Decidable (Possible g.toSmp (.switchOut cpu)))
  | .budgetExpiry _ | .periodExpiry _ => instDecidableFalse

/-- A slice begins when no other is going on, or at the instant at which the last one began. -/
def ApartSlices (leader : Tid) (g : Ledger) : SmpEvent → Prop
  | .switchIn _ _ => (∀ cpu, g.curr cpu = none) ∨
      timespecToNs (g.st.task leader).execTime = g.st.now
  | _ => True

instance (leader : Tid) (g : Ledger) : (a : SmpEvent) → Decidable (ApartSlices leader g a)
  | .switchIn _ _ => instDecidableOr
  | .pass _ | .switchOut _ | .budgetExpiry _ | .periodExpiry _ => instDecidableTrue

/-- The leader has been charged for the slices that have ended, and `exec_time` is the start of all
that have not. -/
structure GroupInv (leader : Tid) (g : Ledger) : Prop where
  flagged : ∀ t, (g.st.task t).tgid = leader → (g.st.task t).isBudgetSet = true
  member : ∀ cpu t, g.curr cpu = some t → (g.st.task t).tgid = leader
  began : ∀ cpu t, g.curr cpu = some t →
    g.started cpu = timespecToNs (g.st.task leader).execTime
  charged : timespecToNs (g.st.task leader).computeTime = g.used

variable {leader : Tid} {g : Ledger}

theorem groupInv_start (h : GroupStart leader g) : GroupInv leader g := by
  have hno : ∀ {cpu t}, g.curr cpu ≠ some t := fun {cpu t} ht => by
    rw [h.off cpu] at ht
    cases ht
  refine ⟨h.flagged, fun _ _ ht => absurd ht hno, fun _ _ ht => absurd ht hno, ?_⟩
  rw [h.compute, h.used]
  rfl

theorem groupInv_switchIn (h : GroupInv leader g) {cpu : Fin maxCpu} {t : Tid}
    (hok : GroupEvent leader g (.switchIn cpu t)) (hapart : ApartSlices leader g (.switchIn cpu t)) :
    GroupInv leader (g.after (.switchIn cpu t)) := by
  obtain ⟨-, hmember⟩ := hok
  have hhook := fun u => switchIn_hookOnly t u g.st
  have hexec : ((switchIn t g.st).task leader).execTime = nsToTimespec g.st.now := by
    rw [switchIn_execTime, if_pos ⟨h.flagged t hmember, hmember.symm⟩]
  refine ⟨fun u hu => ?_, fun c u hu => ?_, fun c u hu => ?_, ?_⟩
  · have hu : ((switchIn t g.st).task u).tgid = leader := hu
    rw [(hhook u).tgid] at hu
    exact (hhook u).isBudgetSet.trans (h.flagged u hu)
  · have hu : Function.update g.curr cpu (some t) c = some u := hu
    refine (hhook u).tgid.trans ?_
    by_cases hc : c = cpu
    · rw [hc, Function.update_self] at hu
      cases hu
      exact hmember
    · rw [Function.update_of_ne hc] at hu
      exact h.member c u hu
  · have hu : Function.update g.curr cpu (some t) c = some u := hu
    show Function.update g.started cpu g.st.now c =
      timespecToNs ((switchIn t g.st).task leader).execTime
    rw [hexec, timespecToNs_nsToTimespec]
    by_cases hc : c = cpu
    · rw [hc, Function.update_self]
    · -- another slice goes on, so it began at this instant
      rw [Function.update_of_ne hc] at hu ⊢
      rcases hapart with hoff | hnow
      · rw [hoff c] at hu
        cases hu
      · rw [h.began c u hu, hnow]
  · exact (congrArg timespecToNs (hhook leader).computeTime).trans h.charged

theorem groupInv_switchOut (h : GroupInv leader g) {cpu : Fin maxCpu}
    (hok : GroupEvent leader g (.switchOut cpu)) : GroupInv leader (g.after (.switchOut cpu)) := by
  obtain ⟨t, ht⟩ := Option.isSome_iff_exists.1 hok
  have hmember := h.member cpu t ht
  have hset := h.flagged t hmember
  have hsmp : g.toSmp.after (.switchOut cpu) =
      ⟨switchOut t g.st, Function.update g.curr cpu none⟩ := by
    simp only [Smp.after, ht]
  have htask := fun u => switchOut_task t u g.st
  simp only [hset, hmember, true_and] at htask
  have hcurr : ∀ {c u}, Function.update g.curr cpu none c = some u → g.curr c = some u := by
    intro c u hu
    by_cases hc : c = cpu
    · rw [hc, Function.update_self] at hu
      cases hu
    · rwa [Function.update_of_ne hc] at hu
  have htgid : ∀ u, ((switchOut t g.st).task u).tgid = (g.st.task u).tgid := by
    intro u
    rw [htask]
    split_ifs <;> rfl
  refine ⟨fun u hu => ?_, fun c u hu => ?_, fun c u hu => ?_, ?_⟩ <;>
    simp only [Ledger.after, hsmp] at *
  · rw [htgid] at hu
    rw [htask]
    split_ifs <;> exact h.flagged u hu
  · rw [htgid]
    exact h.member c u (hcurr hu)
  · rw [htask, if_pos rfl]
    exact h.began c u (hcurr hu)
  · rw [htask, if_pos rfl, timespecToNs_add, timespecToNs_sub, timespecToNs_nsToTimespec, h.charged,
      h.began cpu t ht]

/-- **Group accounting.**  In every run in which a slice begins while no thread of the process runs,
or at the instant at which the others began, the leader has been charged for all slices that have
ended; so for all there were when no thread runs. -/
theorem group_charged {leader : Tid} {g : Ledger}
    (h : Reach (GroupStart leader) (fun g a => GroupEvent leader g a ∧ ApartSlices leader g a)
      ledgerExec g) :
    timespecToNs (g.st.task leader).computeTime = g.used := by
  refine (h.inv (I := GroupInv leader) (E := fun _ => False) (fun _ => groupInv_start)
    fun g a hg hok => ?_).charged
  cases a with
  | pass d => exact ⟨hg.flagged, hg.member, hg.began, hg.charged⟩
  | switchIn cpu t => exact groupInv_switchIn hg hok.1 hok.2
  | switchOut cpu => exact groupInv_switchOut hg hok.1
  | budgetExpiry t => exact hok.1.elim
  | periodExpiry t => exact hok.1.elim

/-- A process with the threads 1 and 2 and 1 s in 2 s. -/
def twoThreads : Ledger where
  st := { bootState [1, 2] .noPm with
    task := fun t => { newTask t with
      tgid := if t = 2 then 1 else t
      isBudgetSet := true, budgetTime := ⟨1, 0⟩, timePeriod := ⟨2, 0⟩ } }
  curr := fun _ => none
  started := fun _ => 0
  used := 0

theorem groupStart_twoThreads : GroupStart 1 twoThreads :=
  ⟨fun _ _ => rfl, rfl, fun _ => rfl, rfl⟩

/-- Two slices of 10 and 12 ns that begin together. -/
theorem group_charged_together :
    ∃ g, Reach (GroupStart 1) (fun g a => GroupEvent 1 g a ∧ ApartSlices 1 g a) ledgerExec g ∧
      (∀ cpu, g.curr cpu = none) ∧ g.used = 22 ∧
      timespecToNs (g.st.task 1).computeTime = g.used := by
  obtain ⟨g, hg, hused, hoff⟩ : ∃ g, follow (fun g a => GroupEvent 1 g a ∧ ApartSlices 1 g a)
      ledgerExec [.switchIn 0 1, .switchIn 1 2, .pass 10, .switchOut 0, .pass 2, .switchOut 1]
      twoThreads = some g ∧ g.used = 22 ∧ ∀ cpu, g.curr cpu = none :=
    exists_some_of_test (by decide)
  have hreach := reach_of_follow (Reach.start groupStart_twoThreads) hg
  exact ⟨g, hreach, hoff, hused, group_charged hreach⟩

/-- The slices 0 to 10 and 5 to 12: the leader is charged 12 ns, and 17 ns have been run. -/
theorem group_undercharged :
    ¬ ∀ leader g, Reach (GroupStart leader) (GroupEvent leader) ledgerExec g →
      (∀ cpu, g.curr cpu = none) → timespecToNs (g.st.task leader).computeTime = g.used := by
  intro h
  obtain ⟨g, hg, hoff, hne⟩ : ∃ g, follow (GroupEvent 1) ledgerExec
      [.switchIn 0 1, .pass 5, .switchIn 1 2, .pass 5, .switchOut 0, .pass 2, .switchOut 1]
      twoThreads = some g ∧ (∀ cpu, g.curr cpu = none) ∧
      timespecToNs (g.st.task 1).computeTime ≠ g.used :=
    exists_some_of_test (by decide)
  exact hne (h 1 g (reach_of_follow (Reach.start groupStart_twoThreads) hg) hoff)

end RtSched
