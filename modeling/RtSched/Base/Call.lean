import Mathlib.Tactic

/-!
# Calls that return, fault or spin

Kernel code is followed as a function of the state that either returns a value, or traps: it
dereferences a bad pointer (`oops`), or it is still inside one of its loops when the turns we
follow it for are used up (`spins`).  A trap carries the state the code was in.

* `Trap`, `Call σ α`;
* `Call.Sat Q E c`: a returned value satisfies `Q`, and the state of an oops satisfies `E`
  (nothing is asked of a call that spins);
* the rules for `pure`, `bind`, branches, loops and weakening.
-/

/-- Why a call does not return. -/
inductive Trap
  | oops
  | spins
  deriving DecidableEq, Repr

/-- A call over states `σ`: a value, or a trap with the state it happened in. -/
abbrev Call (σ α : Type) := Except (Trap × σ) α

namespace Call

variable {σ α β : Type}

/-- A lower-level result inside a call made in state `s`. -/
def lift (s : σ) : Except Trap α → Call σ α
  | .ok a => .ok a
  | .error t => .error (t, s)

/-- An answer of a loop that may not have come back yet. -/
def ofOption (s : σ) : Option α → Call σ α
  | some a => .ok a
  | none => .error (.spins, s)

/-- What a call guarantees: `Q` of the value it returns, `E` of the state it oopses in. -/
def Sat (Q : α → Prop) (E : σ → Prop) : Call σ α → Prop
  | .ok a => Q a
  | .error (.oops, s) => E s
  | .error (.spins, _) => True

variable {Q Q' : α → Prop} {R : β → Prop} {E E' : σ → Prop}

@[simp] theorem sat_pure (a : α) : Sat Q E (pure a : Call σ α) ↔ Q a := Iff.rfl

theorem sat_of_eq {c : Call σ α} {a : α} (h : Sat Q E c) (hc : c = .ok a) : Q a := by
  rw [hc] at h
  exact h

theorem sat_of_oops {c : Call σ α} {s : σ} (h : Sat Q E c) (hc : c = .error (.oops, s)) : E s := by
  rw [hc] at h
  exact h

theorem Sat.mono {c : Call σ α} (h : Sat Q E c) (hQ : ∀ a, Q a → Q' a) (hE : ∀ s, E s → E' s) :
    Sat Q' E' c := by
  match c, h with
  | .ok a, h => exact hQ a h
  | .error (.oops, s), h => exact hE s h
  | .error (.spins, _), _ => trivial

theorem Sat.and {c : Call σ α} (h : Sat Q E c) (h' : Sat Q' E' c) :
    Sat (fun a => Q a ∧ Q' a) (fun s => E s ∧ E' s) c := by
  match c, h, h' with
  | .ok _, h, h' => exact ⟨h, h'⟩
  | .error (.oops, _), h, h' => exact ⟨h, h'⟩
  | .error (.spins, _), _, _ => trivial

theorem Sat.bind {c : Call σ α} {f : α → Call σ β} (h : Sat Q E c)
    (hf : ∀ a, Q a → Sat R E (f a)) : Sat R E (c >>= f) := by
  match c, h with
  | .ok a, h => exact hf a h
  | .error (.oops, _), h => exact h
  | .error (.spins, _), _ => trivial

/-- What is known of every returned value is guaranteed, an oops apart. -/
theorem sat_of_forall_ok {c : Call σ α} (h : ∀ a, c = .ok a → Q a) : Sat Q (fun _ => True) c := by
  match c, h with
  | .ok a, h => exact h a rfl
  | .error (.oops, _), _ => trivial
  | .error (.spins, _), _ => trivial

theorem sat_ite {p : Prop} [Decidable p] {c d : Call σ α} (hc : p → Sat Q E c)
    (hd : ¬ p → Sat Q E d) : Sat Q E (if p then c else d) := by
  split_ifs with h
  · exact hc h
  · exact hd h

/-- A loop of calls keeps what every turn keeps. -/
theorem sat_foldlM {I : β → Prop} {f : β → α → Call σ β} {l : List α}
    (hf : ∀ b, ∀ a ∈ l, I b → Sat I E (f b a)) {b : β} (hb : I b) : Sat I E (l.foldlM f b) := by
  induction l generalizing b with
  | nil => exact hb
  | cons a l ih =>
    rw [List.foldlM_cons]
    refine (hf b a List.mem_cons_self hb).bind fun b' hb' => ?_
    exact ih (fun b a ha => hf b a (List.mem_cons_of_mem _ ha)) hb'

/-- A sequence that comes back has come back from its first call. -/
theorem bind_eq_ok {c : Call σ α} {f : α → Call σ β} {b : β} :
    (c >>= f) = .ok b ↔ ∃ a, c = .ok a ∧ f a = .ok b := by
  cases c with
  | ok a =>
    constructor
    · exact fun h => ⟨a, rfl, h⟩
    · rintro ⟨a, ⟨⟩, h⟩
      exact h
  | error t =>
    constructor
    · intro h
      cases h
    · rintro ⟨a, ⟨⟩, -⟩

theorem ofOption_eq_ok {s : σ} {o : Option α} {a : α} : ofOption s o = .ok a ↔ o = some a := by
  cases o with
  | some b => exact ⟨fun h => congrArg some (Except.ok.inj h), fun h => congrArg _ (Option.some.inj h)⟩
  | none => exact ⟨fun h => (nomatch h), fun h => (nomatch h)⟩

@[simp] theorem ok_bind (a : α) (f : α → Call σ β) : ((.ok a : Call σ α) >>= f) = f a := rfl

/-- A returned value can be tested by running the call. -/
def test (p : α → Bool) : Call σ α → Bool
  | .ok a => p a
  | .error _ => false

theorem exists_ok_of_test {c : Call σ α} {p : α → Prop} [DecidablePred p]
    (h : c.test (fun a => decide (p a)) = true) : ∃ a, c = .ok a ∧ p a := by
  match c, h with
  | .ok a, h => exact ⟨a, rfl, of_decide_eq_true h⟩

theorem sat_ofOption {s : σ} {o : Option α} (h : ∀ a, o = some a → Q a) :
    Sat Q E (ofOption s o) := by
  cases o with
  | some a => exact h a rfl
  | none => trivial

theorem sat_lift {s : σ} {r : Except Trap α} (hQ : ∀ a, r = .ok a → Q a) (hE : E s) :
    Sat Q E (lift s r) := by
  match r, hQ with
  | .ok a, hQ => exact hQ a rfl
  | .error .oops, _ => exact hE
  | .error .spins, _ => trivial

end Call
