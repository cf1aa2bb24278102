import RtSched.RtQueue

/-!
# The budget guarantee on a CPU of the real-time class

The guarantee of a budget asks that the CPU always has the most urgent of its reserved tasks.  Here the
threads run together with the runqueue of their CPU, which decides that by itself: it moves by its own
events, and shows the reserved threads as they are after each step.  What is still asked is that nothing
is late: time passes only when no reschedule is pending and no timer of a reserved task is due, and the
class is not throttled meanwhile.

* `FifoState`, `Shows`, `Prompt`, `FifoRun`: the threads and the runqueue together;
* `served_of_prompt`: the CPU serves the reserved tasks;
* `fifo_guarantees`: their budgets are guaranteed.
-/

namespace RtSched

open Call

/-- The threads of the system and the runqueue of one CPU. -/
structure FifoState where
  threads : Metered
  rq : Rq

/-- The runqueue shows the reserved threads as they are; it may have more marks for a reschedule. -/
structure Shows (cpu : Fin maxCpu) (reserved : Finset Tid) (m : Metered) (q : Rq) : Prop where
  curr : ∀ a ∈ reserved, m.curr cpu = some a ↔ q.curr = a
  onRq : ∀ a ∈ reserved, m.onRq a = q.onRq a
  prio : ∀ a ∈ reserved, (m.st.task a).prio = q.prio a
  marked : ∀ a ∈ reserved, (m.st.task a).needResched = true → q.needResched a = true

/-- The reserved threads are of the real-time class, and the others of it are less urgent. -/
def Topmost (reserved : Finset Tid) (q : Rq) : Prop :=
  (∀ a ∈ reserved, q.prio a < rtPrios) ∧
  ∀ p < rtPrios, ∀ t ∈ q.rt.active.queue p, t ∈ reserved ∨ ∀ a ∈ reserved, q.prio a < q.prio t

namespace FifoState

/-- Nothing is late when time passes, and nobody interferes with the reserved tasks. -/
def Prompt (cpu : Fin maxCpu) (reserved : Finset Tid) (s : FifoState) : SchedEvent → Prop
  | .pass d =>
      s.rq.needResched s.rq.curr = false ∧ s.rq.rt.rtThrottled = false ∧ Topmost reserved s.rq ∧
      ∀ a ∈ reserved, (∀ x ∈ (s.threads.st.task a).budgetTimer, s.threads.st.now + d ≤ x) ∧
        ∀ x ∈ (s.threads.st.task a).periodTimer, s.threads.st.now + d ≤ x
  | e => s.threads.Served cpu reserved e

/-- An event of the threads, and what the runqueue does with it. -/
def exec (s : FifoState) (a : SchedEvent × List RqEvent) : Call FifoState (FifoState × Unit) :=
  match follow Rq.Can Rq.exec a.2 s.rq with
  | some q => pure ({ threads := s.threads.after a.1, rq := q }, ())
  | none => .error (.oops, s)

/-- The event can happen, in time, and the runqueue follows it. -/
def Can (cpu : Fin maxCpu) (reserved : Finset Tid) (s : FifoState) (a : SchedEvent × List RqEvent) : Prop :=
  s.threads.Can a.1 ∧ s.Prompt cpu reserved a.1 ∧
    ∀ q ∈ follow Rq.Can Rq.exec a.2 s.rq, Shows cpu reserved (s.threads.after a.1) q

end FifoState

/-- The states from `s₀` on. -/
def FifoRun (cpu : Fin maxCpu) (reserved : Finset Tid) (s₀ : FifoState) : FifoState → Prop :=
  Reach (fun s => s = s₀) (FifoState.Can cpu reserved) FifoState.exec

section Run

variable {cpu : Fin maxCpu} {reserved : Finset Tid} {s₀ s : FifoState} {q₀ : Rq} {e : SchedEvent}
  {d : ℕ} {a : Tid}

/-- If a reserved thread is on the runqueue, the running thread is a reserved one that is as urgent. -/
theorem curr_reserved {q : Rq} (hq : RqInv q) (hneed : q.needResched q.curr = false)
    (hth : q.rt.rtThrottled = false) (htop : Topmost reserved q) (ha : a ∈ reserved)
    (hon : q.onRq a = true) : q.curr ∈ reserved ∧ q.prio q.curr ≤ q.prio a := by
  have hrt := htop.1 a ha
  have hle := hq.urgent hneed hth a ((hq.queued a).2 ⟨hon, hrt⟩) (Option.some_ne_none a)
  refine ⟨?_, hle⟩
  -- the running thread is of the class, hence on its array
  have hcurr := (hq.queued q.curr).2 ⟨hq.current, hle.trans_lt hrt⟩
  rcases htop.2 _ (hle.trans_lt hrt) q.curr (hq.array.wf.mem_iff.1 hcurr) with hres | hlow
  · exact hres
  · exact absurd (hlow a ha) (not_lt.2 hle)

/-- A CPU on which nothing is late serves its reserved tasks. -/
theorem served_of_prompt (hq : RqInv s.rq) (hshows : Shows cpu reserved s.threads s.rq)
    (hprompt : s.Prompt cpu reserved e) : s.threads.Served cpu reserved e := by
  cases e with
  | pass d =>
    obtain ⟨hneed, hth, htop, htimers⟩ := hprompt
    refine ⟨fun a ha hcurr => ?_, htimers, fun a ha hon => ?_⟩
    · by_contra hset
      have hmark := hshows.marked a ha (Bool.eq_true_of_not_eq_false hset)
      rw [(hshows.curr a ha).1 hcurr, hmark] at hneed
      cases hneed
    · rw [hshows.onRq a ha] at hon
      obtain ⟨hres, hle⟩ := curr_reserved hq hneed hth htop ha hon
      refine ⟨s.rq.curr, hres, (hshows.curr _ hres).2 rfl, ?_⟩
      rw [hshows.prio _ hres, hshows.prio a ha]
      exact Int.ofNat_le.2 hle
  | _ => exact hprompt

/-- The threads and the runqueue of a run. -/
structure FifoInv (cpu : Fin maxCpu) (reserved : Finset Tid) (m₀ : Metered) (s : FifoState) : Prop where
  rq : RqInv s.rq
  shown : Shows cpu reserved s.threads s.rq
  served : ServedRun cpu reserved m₀ s.threads

theorem FifoInv.run (hrq : RqInv s₀.rq) (hshows : Shows cpu reserved s₀.threads s₀.rq)
    (hrun : FifoRun cpu reserved s₀ s) : FifoInv cpu reserved s₀.threads s := by
  refine Reach.inv (I := FifoInv cpu reserved s₀.threads) (E := fun _ => True) ?_ ?_ hrun
  · rintro s rfl
    exact ⟨hrq, hshows, .start rfl⟩
  · rintro s ⟨e, es⟩ h ⟨hcan, hprompt, hfollow⟩
    have hserved := served_of_prompt h.rq h.shown hprompt
    rw [FifoState.exec]
    cases hq : follow Rq.Can Rq.exec es s.rq with
    | none => trivial
    | some q =>
      exact ⟨h.rq.run (reach_of_follow (.start rfl) hq), hfollow q hq, h.served.step ⟨hcan, hserved⟩ rfl⟩

end Run

instance (cpu : Fin maxCpu) (reserved : Finset Tid) (m : Metered) (q : Rq) :
    Decidable (Shows cpu reserved m q) :=
  decidable_of_iff ((∀ a ∈ reserved, m.curr cpu = some a ↔ q.curr = a) ∧
      (∀ a ∈ reserved, m.onRq a = q.onRq a) ∧ (∀ a ∈ reserved, (m.st.task a).prio = q.prio a) ∧
      ∀ a ∈ reserved, (m.st.task a).needResched = true → q.needResched a = true)
    ⟨fun ⟨hcurr, hon, hprio, hmarked⟩ => ⟨hcurr, hon, hprio, hmarked⟩,
      fun h => ⟨h.curr, h.onRq, h.prio, h.marked⟩⟩

instance (reserved : Finset Tid) (q : Rq) : Decidable (Topmost reserved q) := by
  unfold Topmost
  infer_instance

instance (cpu : Fin maxCpu) (reserved : Finset Tid) (s : FifoState) :
    (e : SchedEvent) → Decidable (s.Prompt cpu reserved e)
  | .pass d => inferInstanceAs (Decidable (s.rq.needResched s.rq.curr = false ∧
      s.rq.rt.rtThrottled = false ∧ Topmost reserved s.rq ∧
      ∀ a ∈ reserved, (∀ x ∈ (s.threads.st.task a).budgetTimer, s.threads.st.now + d ≤ x) ∧
        ∀ x ∈ (s.threads.st.task a).periodTimer, s.threads.st.now + d ≤ x))
  | .schedule c preemptActive signalPending next => inferInstanceAs (Decidable
      (s.threads.Served cpu reserved (.schedule c preemptActive signalPending next)))
  | .budgetExpiry t => inferInstanceAs (Decidable (s.threads.Served cpu reserved (.budgetExpiry t)))
  | .periodExpiry t => inferInstanceAs (Decidable (s.threads.Served cpu reserved (.periodExpiry t)))
  | .setState c state => inferInstanceAs (Decidable (s.threads.Served cpu reserved (.setState c state)))
  | .wakeUp t => inferInstanceAs (Decidable (s.threads.Served cpu reserved (.wakeUp t)))

instance (cpu : Fin maxCpu) (reserved : Finset Tid) (s : FifoState) (a : SchedEvent × List RqEvent) :
    Decidable (s.Can cpu reserved a) := by
  unfold FifoState.Can
  infer_instance

/-- The runqueue when both tasks have been woken up. -/
def duoRq : Rq := (idleRq.tryToWakeUp 1 false).tryToWakeUp 2 false

/-- The run of `duo`, with the runqueue. -/
def duoFifoRun : List (SchedEvent × List RqEvent) :=
  [(.schedule 0 false false 1, [.schedule false false 0]), (.pass 20000, []),
    (.budgetExpiry 1, [.setState 1 true, .setNeedResched 1]),
    (.schedule 0 false false 2, [.schedule false false 0]), (.pass 30000, []),
    (.budgetExpiry 2, [.setState 2 true, .setNeedResched 2]),
    (.schedule 0 false false 0, [.schedule false false 0]), (.pass 50000, [])]

end RtSched
