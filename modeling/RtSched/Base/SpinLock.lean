import Mathlib.Data.Fintype.Order
import Mathlib.Data.Set.Insert
import Mathlib.Tactic

/-!
# Spin locks

Agents go through scripts of lock operations.  A lock that somebody has makes those that want it wait;
nothing is ever taken away from an agent, and a script can be put in front of what it has to do.

* `LockOp`, `LockSys`, `advance`, `push`: the agents and the locks;
* `Orderly may s h h'`: with the locks `h`, the script `s` takes a lock only where `may` allows it, gives
  back what it has, and ends with the locks `h'`;
* `LockSys.Inv`: every agent is orderly and ends with no lock;
* `Needs`: an agent takes a lock before it gives back another; two such agents, or one with a single lock,
  never come out of it (`Needs.advance`, `Needs.push`);
* `exists_backward`: if nobody can go on, somebody waits for a lock that comes before one it has.
-/

namespace SpinLock

/-- An operation: take a lock, give it back, or wait until nobody has it. -/
inductive LockOp (L : Type*)
  | acq (l : L)
  | rel (l : L)
  | await (l : L)
  deriving DecidableEq

/-- The agents and the locks. -/
structure LockSys (A L : Type*) where
  todo : A → List (LockOp L)
  owner : L → Option A

section Script

variable {L : Type*}

/-- A script that starts with the locks `h` and ends with `h'`.  Who takes a lock that it has does not get
any further. -/
def Orderly (may : Set L → L → Prop) : List (LockOp L) → Set L → Set L → Prop
  | [], h, h' => h = h'
  | .acq l :: s, h, h' => may h l ∧ (l ∉ h → Orderly may s (insert l h) h')
  | .rel l :: s, h, h' => l ∈ h ∧ Orderly may s (h \ {l}) h'
  | .await l :: s, h, h' => may h l ∧ Orderly may s h h'

variable {may : Set L → L → Prop} {s s' : List (LockOp L)} {h h' h'' : Set L}

theorem Orderly.append (hs : Orderly may s h h') (hs' : Orderly may s' h' h'') :
    Orderly may (s ++ s') h h'' := by
  induction s generalizing h with
  | nil =>
    cases hs
    exact hs'
  | cons op s ih =>
    cases op with
    | acq l => exact ⟨hs.1, fun hnot => ih (hs.2 hnot)⟩
    | rel l => exact ⟨hs.1, ih hs.2⟩
    | await l => exact ⟨hs.1, ih hs.2⟩

/-- A script made of parts that each leave the locks as they were. -/
theorem Orderly.flatMap {β : Type*} {f : β → List (LockOp L)} {xs : List β}
    (hf : ∀ x ∈ xs, Orderly may (f x) h h) : Orderly may (xs.flatMap f) h h := by
  induction xs with
  | nil => rfl
  | cons x xs ih =>
    rw [List.flatMap_cons]
    exact (hf x List.mem_cons_self).append (ih fun y hy => hf y (List.mem_cons_of_mem x hy))

/-- A lock that is taken around a script. -/
theorem Orderly.around {l : L} (hmay : may h l) (hs : Orderly may s (insert l h) (insert l h)) :
    Orderly may (.acq l :: s ++ [.rel l]) h h := by
  refine ⟨hmay, fun hnot => hs.append ⟨Set.mem_insert l h, ?_⟩⟩
  rw [Orderly, Set.insert_sdiff_self_of_notMem hnot]

/-- `l` is not given back before it is taken. -/
def Fresh (l : L) : List (LockOp L) → Prop
  | [] => True
  | .acq k :: s => k = l ∨ Fresh l s
  | .rel k :: s => k ≠ l ∧ Fresh l s
  | .await _ :: s => Fresh l s

variable {l : L}

theorem Fresh.append (hs : Fresh l s) (hs' : Fresh l s') : Fresh l (s ++ s') := by
  induction s with
  | nil => exact hs'
  | cons op s ih =>
    cases op with
    | acq k => exact hs.imp id ih
    | rel k => exact ⟨hs.1, ih hs.2⟩
    | await k => exact ih hs

theorem Fresh.flatMap {β : Type*} {f : β → List (LockOp L)} {xs : List β}
    (hf : ∀ x ∈ xs, Fresh l (f x)) : Fresh l (xs.flatMap f) := by
  induction xs with
  | nil => trivial
  | cons x xs ih =>
    rw [List.flatMap_cons]
    exact (hf x List.mem_cons_self).append (ih fun y hy => hf y (List.mem_cons_of_mem x hy))

/-- A lock that is taken around a script. -/
theorem Fresh.around {k : L} (hs : Fresh l s) : Fresh l (.acq k :: s ++ [.rel k]) := by
  by_cases hk : k = l
  · exact Or.inl hk
  · exact Or.inr (hs.append ⟨hk, trivial⟩)

/-- Up to the place where the lock is taken it is not given back. -/
theorem Fresh.split (hs : Fresh l s) (hmem : .acq l ∈ s) :
    ∃ mid post, s = mid ++ .acq l :: post ∧ .rel l ∉ mid := by
  induction s with
  | nil => cases hmem
  | cons op s ih =>
    by_cases hop : op = .acq l
    · exact ⟨[], s, by rw [hop, List.nil_append], List.not_mem_nil⟩
    have hmem' : .acq l ∈ s := (List.mem_cons.1 hmem).resolve_left (Ne.symm hop)
    have hs' : Fresh l s ∧ op ≠ .rel l := by
      cases op with
      | acq k =>
        refine ⟨hs.resolve_left ?_, by simp⟩
        rintro rfl
        exact hop rfl
      | rel k => exact ⟨hs.2, fun hk => hs.1 (LockOp.rel.inj hk)⟩
      | await k => exact ⟨hs, by simp⟩
    obtain ⟨mid, post, rfl, hmid⟩ := ih hs'.1 hmem'
    refine ⟨op :: mid, post, rfl, fun hrel => ?_⟩
    exact (List.mem_cons.1 hrel).elim (fun heq => hs'.2 heq.symm) hmid

end Script

namespace LockSys

variable {A L : Type*}

/-- The locks of `a`. -/
def held (m : LockSys A L) (a : A) : Set L := {l | m.owner l = some a}

/-- `a` is about to take `l`, or to wait for it. -/
def Wants (m : LockSys A L) (a : A) (l : L) : Prop :=
  ∃ rest, m.todo a = .acq l :: rest ∨ m.todo a = .await l :: rest

/-- Every agent is orderly, and gives back all its locks. -/
def Inv (may : Set L → L → Prop) (m : LockSys A L) : Prop :=
  ∀ a, Orderly may (m.todo a) (m.held a) ∅

/-- `a` has `k`, and takes `l` before it gives `k` back. -/
def Needs (m : LockSys A L) (a : A) (k l : L) : Prop :=
  m.owner k = some a ∧ ∃ pre post, m.todo a = pre ++ .acq l :: post ∧ .rel k ∉ pre

/-- `a` takes `k` twice without giving it back in between. -/
def Stumbles (m : LockSys A L) (a : A) (k : L) : Prop :=
  ∃ pre mid post, m.todo a = pre ++ .acq k :: (mid ++ .acq k :: post) ∧ .rel k ∉ mid

variable {may : Set L → L → Prop} {m m' : LockSys A L} {a b c : A} {k l : L} {s : List (LockOp L)}

@[simp] theorem held_mk (todo : A → List (LockOp L)) :
    (⟨todo, m.owner⟩ : LockSys A L).held a = m.held a := rfl

/-- An orderly agent gives back what it has. -/
theorem Inv.owner_of_rel (h : m.Inv may) {rest : List (LockOp L)} (htodo : m.todo c = .rel l :: rest) :
    m.owner l = some c := by
  have hc := h c
  rw [htodo] at hc
  exact hc.1

/-- Who has a lock has something to do. -/
theorem Inv.busy (h : m.Inv may) (howner : m.owner l = some a) : m.todo a ≠ [] := by
  intro hnil
  have ha := h a
  rw [hnil] at ha
  have hmem : l ∈ m.held a := howner
  rw [show m.held a = ∅ from ha] at hmem
  exact hmem

theorem Needs.busy (h : m.Needs a k l) : m.todo a ≠ [] := by
  obtain ⟨-, pre, post, htodo, -⟩ := h
  rw [htodo]
  exact List.append_ne_nil_of_right_ne_nil _ (List.cons_ne_nil _ _)

theorem Stumbles.busy (h : m.Stumbles a k) : m.todo a ≠ [] := by
  obtain ⟨pre, mid, post, htodo, -⟩ := h
  rw [htodo]
  exact List.append_ne_nil_of_right_ne_nil _ (List.cons_ne_nil _ _)

section Push

variable [DecidableEq A]

/-- `a` goes through `s` first. -/
def push (m : LockSys A L) (a : A) (s : List (LockOp L)) : LockSys A L :=
  { m with todo := Function.update m.todo a (s ++ m.todo a) }

theorem Inv.push (h : m.Inv may) (hs : Orderly may s (m.held c) (m.held c)) : (m.push c s).Inv may := by
  intro a
  have ha := h a
  by_cases hac : a = c
  · subst hac
    simpa [LockSys.push] using hs.append ha
  · simpa [LockSys.push, hac] using ha

theorem Needs.push (h : m.Needs a k l) (hac : a ≠ c) : (m.push c s).Needs a k l := by
  obtain ⟨hk, pre, post, htodo, hpre⟩ := h
  exact ⟨hk, pre, post, by simpa [LockSys.push, hac] using htodo, hpre⟩

theorem Stumbles.push (h : m.Stumbles a k) : (m.push c s).Stumbles a k := by
  obtain ⟨pre, mid, post, htodo, hmid⟩ := h
  by_cases hac : a = c
  · subst hac
    exact ⟨s ++ pre, mid, post, by simp [LockSys.push, htodo], hmid⟩
  · exact ⟨pre, mid, post, by simpa [LockSys.push, hac] using htodo, hmid⟩

end Push

section Advance

variable [DecidableEq A] [DecidableEq L]

/-- The state after the next operation of `a`; nothing if it has none, or has to wait. -/
def advance (m : LockSys A L) (a : A) : Option (LockSys A L) :=
  match m.todo a with
  | [] => none
  | .acq l :: rest =>
      if m.owner l = none then some
        { todo := Function.update m.todo a rest, owner := Function.update m.owner l (some a) }
      else none
  | .rel l :: rest => some
      { todo := Function.update m.todo a rest, owner := Function.update m.owner l none }
  | .await l :: rest =>
      if m.owner l = none then some { m with todo := Function.update m.todo a rest } else none

/-- What the next operation does. -/
theorem advance_cases (h : m.advance c = some m') :
    (∃ l rest, m.todo c = .acq l :: rest ∧ m.owner l = none ∧
      m' = ⟨Function.update m.todo c rest, Function.update m.owner l (some c)⟩) ∨
    (∃ l rest, m.todo c = .rel l :: rest ∧
      m' = ⟨Function.update m.todo c rest, Function.update m.owner l none⟩) ∨
    ∃ l rest, m.todo c = .await l :: rest ∧ m.owner l = none ∧
      m' = ⟨Function.update m.todo c rest, m.owner⟩ := by
  unfold advance at h
  split at h
  · cases h
  · split_ifs at h with hfree
    exact .inl ⟨_, _, ‹_›, hfree, (Option.some.inj h).symm⟩
  · exact .inr (.inl ⟨_, _, ‹_›, (Option.some.inj h).symm⟩)
  · split_ifs at h with hfree
    exact .inr (.inr ⟨_, _, ‹_›, hfree, (Option.some.inj h).symm⟩)

/-- An agent that cannot go on has nothing to do, or wants a lock that somebody has. -/
theorem wants_of_advance_none (h : m.advance a = none) (hbusy : m.todo a ≠ []) :
    ∃ l b, m.Wants a l ∧ m.owner l = some b := by
  unfold advance at h
  split at h
  · exact absurd ‹_› hbusy
  · split_ifs at h with hfree
    obtain ⟨b, hb⟩ := Option.ne_none_iff_exists'.1 hfree
    exact ⟨_, b, ⟨_, .inl ‹_›⟩, hb⟩
  · cases h
  · split_ifs at h with hfree
    obtain ⟨b, hb⟩ := Option.ne_none_iff_exists'.1 hfree
    exact ⟨_, b, ⟨_, .inr ‹_›⟩, hb⟩

theorem todo_advance (h : m.advance c = some m') : m'.todo = Function.update m.todo c (m.todo c).tail := by
  obtain ⟨l, rest, htodo, -, rfl⟩ | ⟨l, rest, htodo, rfl⟩ | ⟨l, rest, htodo, -, rfl⟩ := advance_cases h
  all_goals rw [htodo, List.tail_cons]

theorem held_acq (todo : A → List (LockOp L)) (hfree : m.owner l = none) :
    (⟨todo, Function.update m.owner l (some c)⟩ : LockSys A L).held a =
      if a = c then insert l (m.held a) else m.held a := by
  ext k
  by_cases hk : k = l
  · subst hk
    split_ifs with hac <;> simp [held, hfree, eq_comm, hac]
  · split_ifs <;> simp [held, hk]

theorem held_rel (todo : A → List (LockOp L)) (howner : m.owner l = some c) :
    (⟨todo, Function.update m.owner l none⟩ : LockSys A L).held a =
      if a = c then m.held a \ {l} else m.held a := by
  ext k
  by_cases hk : k = l
  · subst hk
    split_ifs with hac <;> simp [held, howner, eq_comm, hac]
  · split_ifs <;> simp [held, hk]

theorem Inv.advance (h : m.Inv may) (hadvance : m.advance c = some m') : m'.Inv may := by
  intro a
  have ha := h a
  rw [todo_advance hadvance]
  obtain ⟨l, rest, htodo, hfree, rfl⟩ | ⟨l, rest, htodo, rfl⟩ | ⟨l, rest, htodo, -, rfl⟩ :=
    advance_cases hadvance
  · rw [held_acq _ hfree]
    split_ifs with hac
    · subst hac
      rw [htodo] at ha
      have hnot : l ∉ m.held a := fun hmem => Option.some_ne_none a (Eq.trans (Eq.symm hmem) hfree)
      simpa [htodo] using ha.2 hnot
    · simpa [hac] using ha
  · rw [held_rel _ (h.owner_of_rel htodo)]
    split_ifs with hac
    · subst hac
      rw [htodo] at ha
      simpa [htodo] using ha.2
    · simpa [hac] using ha
  · by_cases hac : a = c
    · subst hac
      rw [htodo] at ha
      simpa [htodo] using ha.2
    · simpa [hac] using ha

/-- A lock stays with its owner until the owner gives it back. -/
theorem Inv.owner_advance (h : m.Inv may) (hk : m.owner k = some a)
    (hkeep : (m.todo a).head? ≠ some (.rel k)) (hadvance : m.advance c = some m') :
    m'.owner k = some a := by
  obtain ⟨x, rest, htodo, hfree, rfl⟩ | ⟨x, rest, htodo, rfl⟩ | ⟨x, rest, htodo, -, rfl⟩ :=
    advance_cases hadvance
  · have hne : k ≠ x := by
      rintro rfl
      rw [hk] at hfree
      cases hfree
    simpa [hne] using hk
  · have hne : k ≠ x := by
      rintro rfl
      rw [h.owner_of_rel htodo, Option.some.injEq] at hk
      rw [← hk, htodo] at hkeep
      exact hkeep rfl
    simpa [hne] using hk
  · exact hk

/-- The lock that `a` needs is not free, so `a` does not get past the place where it takes it. -/
theorem Needs.advance (h : m.Needs a k l) (hinv : m.Inv may) (hl : m.owner l ≠ none)
    (hadvance : m.advance c = some m') : m'.Needs a k l := by
  obtain ⟨hk, pre, post, htodo, hpre⟩ := h
  have hkeep : (m.todo a).head? ≠ some (.rel k) := by
    rw [htodo]
    cases pre with
    | nil => simp
    | cons op pre =>
      intro hop
      exact hpre (List.mem_cons.2 (.inl (Option.some.inj hop).symm))
  refine ⟨hinv.owner_advance hk hkeep hadvance, ?_⟩
  rw [todo_advance hadvance]
  by_cases hac : a = c
  · subst hac
    cases pre with
    | nil =>
      rw [List.nil_append] at htodo
      simp [LockSys.advance, htodo, hl] at hadvance
    | cons op pre =>
      exact ⟨pre, post, by simp [htodo], fun hmem => hpre (List.mem_cons_of_mem op hmem)⟩
  · exact ⟨pre, post, by simpa [hac] using htodo, hpre⟩

/-- Two agents that each need the lock of the other never get it. -/
theorem needs_advance_of_needs (hab : m.Needs a k l) (hba : m.Needs b l k) (hinv : m.Inv may)
    (hadvance : m.advance c = some m') : m'.Needs a k l ∧ m'.Needs b l k := by
  refine ⟨hab.advance hinv ?_ hadvance, hba.advance hinv ?_ hadvance⟩
  · rw [hba.1]
    exact Option.some_ne_none b
  · rw [hab.1]
    exact Option.some_ne_none a

/-- Once it has taken the lock, the agent that stumbles needs its own lock. -/
theorem Stumbles.advance (h : m.Stumbles a k) (hadvance : m.advance c = some m') :
    m'.Stumbles a k ∨ m'.Needs a k k := by
  obtain ⟨pre, mid, post, htodo, hmid⟩ := h
  have htodo' := todo_advance hadvance
  by_cases hac : a = c
  · subst hac
    cases pre with
    | nil =>
      right
      rw [List.nil_append] at htodo
      obtain ⟨x, rest, hx, -, rfl⟩ | ⟨x, rest, hx, rfl⟩ | ⟨x, rest, hx, -, rfl⟩ := advance_cases hadvance
      · rw [htodo, List.cons.injEq, LockOp.acq.injEq] at hx
        obtain ⟨rfl, rfl⟩ := hx
        exact ⟨Function.update_self _ _ _, mid, post, Function.update_self _ _ _, hmid⟩
      · simp [htodo] at hx
      · simp [htodo] at hx
    | cons op pre =>
      left
      exact ⟨pre, mid, post, by simp [htodo', htodo], hmid⟩
  · left
    exact ⟨pre, mid, post, by simpa [htodo', hac] using htodo, hmid⟩

/-- If nobody can go on, somebody wants a lock that does not come after all those it has: otherwise the
one that wants the last lock would be waiting for somebody who wants a later one. -/
theorem exists_backward [Finite A] (rank : L → ℕ) (h : m.Inv may) (hbusy : ∃ a, m.todo a ≠ [])
    (hstuck : ∀ a, m.advance a = none) :
    ∃ a l k, m.Wants a l ∧ m.owner k = some a ∧ rank l ≤ rank k := by
  by_contra hforward
  push Not at hforward
  have hwants : ∀ a : {a // m.todo a ≠ []}, ∃ l b, m.Wants a.1 l ∧ m.owner l = some b :=
    fun a => wants_of_advance_none (hstuck a.1) a.2
  choose lock owner hlock howner using hwants
  have : Nonempty {a // m.todo a ≠ []} := hbusy.elim fun a ha => ⟨⟨a, ha⟩⟩
  obtain ⟨a, ha⟩ := Finite.exists_max fun a => rank (lock a)
  have hb : m.todo (owner a) ≠ [] := h.busy (howner a)
  exact absurd (ha ⟨_, hb⟩) (not_le.2 (hforward _ _ _ (hlock ⟨_, hb⟩) (howner a)))

end Advance

end LockSys

end SpinLock
