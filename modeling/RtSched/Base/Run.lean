import RtSched.Base.Call

/-!
# Runs of calls

A system makes calls `exec s a`, one at a time, from some first state.  `ok s a` restricts the
calls: only those that meet it are made.

* `Reach`: the states between calls;
* `Seen`: these and the states in which a call dies.  Nothing runs on after an oops;
* `Reach.inv`, `Seen.inv`: what the first states have and every call keeps holds throughout;
* `follow`: a run of given calls, to exhibit a reached state;
* `record`: the calls of a system whose states carry a record of what was called.
-/

namespace Call

variable {σ τ α ρ : Type}

/-- The states reached between calls that all meet `ok`. -/
inductive Reach (init : σ → Prop) (ok : σ → α → Prop) (exec : σ → α → Call σ (σ × ρ)) : σ → Prop
  | start {s : σ} (h : init s) : Reach init ok exec s
  | step {s s' : σ} {a : α} {r : ρ} (h : Reach init ok exec s) (hok : ok s a)
      (hexec : exec s a = .ok (s', r)) : Reach init ok exec s'

/-- The states reached between calls, and those a call oopses in. -/
inductive Seen (init : σ → Prop) (ok : σ → α → Prop) (exec : σ → α → Call σ (σ × ρ)) : σ → Prop
  | between {s : σ} (h : Reach init ok exec s) : Seen init ok exec s
  | oops {s s' : σ} {a : α} (h : Reach init ok exec s) (hok : ok s a)
      (hexec : exec s a = .error (.oops, s')) : Seen init ok exec s'

variable {init : σ → Prop} {ok ok' : σ → α → Prop} {exec : σ → α → Call σ (σ × ρ)} {I P : σ → Prop}
  {E : σ → Prop}

/-- An invariant of the calls holds of every state between them. -/
theorem Reach.inv (hinit : ∀ s, init s → I s)
    (hstep : ∀ s a, I s → ok s a → Sat (fun x => I x.1) E (exec s a))
    {s : σ} (h : Reach init ok exec s) : I s := by
  induction h with
  | start h => exact hinit _ h
  | step _ hok hexec ih => exact sat_of_eq (Q := fun x => I x.1) (hstep _ _ ih hok) hexec

theorem Reach.mono {s : σ} (h : Reach init ok exec s) (hok : ∀ s a, ok s a → ok' s a) :
    Reach init ok' exec s := by
  induction h with
  | start h => exact .start h
  | step _ hs hexec ih => exact ih.step (hok _ _ hs) hexec

/-- An invariant that gives `P`, also where a call dies, makes `P` hold wherever one looks. -/
theorem Seen.inv (hinit : ∀ s, init s → I s)
    (hstep : ∀ s a, I s → ok s a → Sat (fun x => I x.1) P (exec s a)) (hP : ∀ s, I s → P s)
    {s : σ} (h : Seen init ok exec s) : P s := by
  cases h with
  | between h => exact hP _ (h.inv hinit hstep)
  | oops h hok hexec => exact sat_of_oops (hstep _ _ (h.inv hinit hstep) hok) hexec

/-- The calls `as` from `s`, as long as they meet `ok` and return. -/
def follow (ok : σ → α → Prop) [∀ s a, Decidable (ok s a)] (exec : σ → α → Call σ (σ × ρ)) :
    List α → σ → Option σ
  | [], s => some s
  | a :: as, s =>
      if ok s a then
        match exec s a with
        | .ok (s', _) => follow ok exec as s'
        | .error _ => none
      else none

theorem reach_of_follow [∀ s a, Decidable (ok s a)] {as : List α} {s s' : σ}
    (h : Reach init ok exec s) (hf : follow ok exec as s = some s') : Reach init ok exec s' := by
  induction as generalizing s with
  | nil =>
    cases hf
    exact h
  | cons a as ih =>
    rw [follow] at hf
    split_ifs at hf with hok
    cases hc : exec s a with
    | ok x =>
      rw [hc] at hf
      exact ih (h.step hok hc) hf
    | error t =>
      rw [hc] at hf
      cases hf

/-- The end of a run of given calls can be tested by running it. -/
theorem exists_some_of_test {o : Option σ} {p : σ → Prop} [DecidablePred p]
    (h : o.any (fun s => decide (p s)) = true) : ∃ s, o = some s ∧ p s := by
  cases o with
  | none => cases h
  | some s => exact ⟨s, rfl, of_decide_eq_true h⟩

/-- A call, with a record `f` made when it returns and `g` when it dies. -/
def record (f : σ → ρ → τ) (g : σ → τ) : Call σ (σ × ρ) → Call τ (τ × ρ)
  | .ok (s, r) => .ok (f s r, r)
  | .error (trap, s) => .error (trap, g s)

theorem sat_record {f : σ → ρ → τ} {g : σ → τ} {Q : τ × ρ → Prop} {F : τ → Prop}
    {c : Call σ (σ × ρ)} (h : Sat (fun x => Q (f x.1 x.2, x.2)) (fun s => F (g s)) c) :
    Sat Q F (record f g c) := by
  cases c with
  | ok x => exact h
  | error x =>
    obtain ⟨trap, s⟩ := x
    cases trap with
    | oops => exact h
    | spins => trivial

end Call
