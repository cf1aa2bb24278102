import Mathlib.Tactic

/-!
# Loops followed for a number of turns

A `while` loop is one `turn`, from the state at the loop head to the next one (`next`) or to the
value the loop is left with (`exit`).  The body may itself contain a loop, so a turn can be
undefined.  `run turn n s` follows the loop for at most `n` turns.

* more turns never change an answer (`run_mono`), nor do turns that are defined more often
  (`run_mono_of`), so the answer is the loop's own (`run_unique`);
* `run_total`: an invariant with a decreasing measure gives an answer;
* `run_eq_none`: one that every turn keeps, and no turn leaves the loop from, gives none;
* `run_rel`: two loops whose turns go in step;
* `guarded ok turn`: the loop that dies where `ok` fails.  A guard that follows from an invariant
  changes nothing (`run_guarded`).

A `for` loop over `i, i + 1, …` is a monadic fold: what every turn keeps holds at the end
(`foldlM_inv`), turns that are defined wherever it holds make the loop defined (`foldlM_total`), and
two loops whose turns agree wherever it holds agree (`foldlM_congr`).

A loop over a list is a fold.  What holds of it is said for the elements it has been through
(`foldl_inv`).
-/

namespace Loop

variable {σ ρ : Type*}

/-- The outcome of one turn. -/
inductive Turn (σ ρ : Type*)
  | next (s : σ)
  | exit (r : ρ)

/-- Follow the loop for at most `n` turns. -/
def run (turn : σ → Option (Turn σ ρ)) : ℕ → σ → Option ρ
  | 0, _ => none
  | n + 1, s =>
      match turn s with
      | some (.next s') => run turn n s'
      | some (.exit r) => some r
      | none => none

variable {turn : σ → Option (Turn σ ρ)}

theorem run_succ_next {s s' : σ} (h : turn s = some (.next s')) (n : ℕ) :
    run turn (n + 1) s = run turn n s' := by
  simp only [run, h]

theorem run_succ_exit {s : σ} {r : ρ} (h : turn s = some (.exit r)) (n : ℕ) :
    run turn (n + 1) s = some r := by
  simp only [run, h]

/-- More turns, each defined at least as often, give the same answer. -/
theorem run_mono_of {turn' : σ → Option (Turn σ ρ)} (hturn : ∀ s t, turn s = some t → turn' s = some t)
    {m n : ℕ} {s : σ} {r : ρ} (hmn : m ≤ n) (h : run turn m s = some r) :
    run turn' n s = some r := by
  induction m generalizing n s with
  | zero => cases h
  | succ m ih =>
    obtain ⟨k, rfl⟩ := Nat.exists_eq_add_of_le' (Nat.one_le_of_lt hmn)
    simp only [run] at h ⊢
    cases ht : turn s with
    | none => rw [ht] at h; cases h
    | some t =>
      rw [ht] at h
      rw [hturn s t ht]
      cases t with
      | next s' => exact ih (by omega) h
      | exit r' => exact h

theorem run_mono {m n : ℕ} {s : σ} {r : ρ} (hmn : m ≤ n) (h : run turn m s = some r) :
    run turn n s = some r :=
  run_mono_of (fun _ _ ht => ht) hmn h

/-- Two answers of one loop agree, however long it was followed. -/
theorem run_unique {m n : ℕ} {s : σ} {r r' : ρ} (h : run turn m s = some r)
    (h' : run turn n s = some r') : r = r' := by
  have h1 := run_mono (le_max_left m n) h
  have h2 := run_mono (le_max_right m n) h'
  rw [h1] at h2
  exact Option.some.inj h2

/-- Total correctness: a measure that every further turn lowers bounds the number of turns. -/
theorem run_total {I : σ → Prop} {Q : ρ → Prop} (μ : σ → ℕ)
    (hturn : ∀ s, I s → (∃ s', turn s = some (.next s') ∧ I s' ∧ μ s' < μ s) ∨
      ∃ r, turn s = some (.exit r) ∧ Q r)
    {n : ℕ} {s : σ} (hs : I s) (hn : μ s < n) : ∃ r, run turn n s = some r ∧ Q r := by
  induction n generalizing s with
  | zero => omega
  | succ n ih =>
    rcases hturn s hs with ⟨s', ht, hs', hμ⟩ | ⟨r, ht, hr⟩
    · rw [run_succ_next ht]
      exact ih hs' (by omega)
    · exact ⟨r, run_succ_exit ht n, hr⟩

/-- A loop that is never left. -/
theorem run_eq_none {I : σ → Prop} (hturn : ∀ s, I s → ∃ s', turn s = some (.next s') ∧ I s')
    {s : σ} (hs : I s) (n : ℕ) : run turn n s = none := by
  induction n generalizing s with
  | zero => rfl
  | succ n ih =>
    obtain ⟨s', ht, hs'⟩ := hturn s hs
    rw [run_succ_next ht]
    exact ih hs'

section Related

variable {σ' ρ' : Type*} {turn' : σ' → Option (Turn σ' ρ')}

/-- Two turns that lead to related states or are left with related values. -/
inductive Turn.Rel (R : σ → σ' → Prop) (Q : ρ → ρ' → Prop) : Turn σ ρ → Turn σ' ρ' → Prop
  | next {s : σ} {s' : σ'} (h : R s s') : Turn.Rel R Q (.next s) (.next s')
  | exit {r : ρ} {r' : ρ'} (h : Q r r') : Turn.Rel R Q (.exit r) (.exit r')

/-- Two loops whose turns stay related end with related values, after as many turns. -/
theorem run_rel {R : σ → σ' → Prop} {Q : ρ → ρ' → Prop}
    (hturn : ∀ s s', R s s' → Option.Rel (Turn.Rel R Q) (turn s) (turn' s')) {s : σ} {s' : σ'}
    (hs : R s s') (n : ℕ) : Option.Rel Q (run turn n s) (run turn' n s') := by
  induction n generalizing s s' with
  | zero => exact .none
  | succ n ih =>
    have hrel := hturn s s' hs
    simp only [run]
    generalize turn s = x at hrel
    generalize turn' s' = y at hrel
    cases hrel with
    | none => exact .none
    | some h =>
      cases h with
      | next h => exact ih h
      | exit h => exact .some h

end Related

section Guarded

/-- The turn is taken only where `ok` holds. -/
def guarded (ok : σ → Prop) [DecidablePred ok] (turn : σ → Option (Turn σ ρ)) (s : σ) :
    Option (Turn σ ρ) :=
  if ok s then turn s else none

theorem run_guarded {ok : σ → Prop} [DecidablePred ok] {I : σ → Prop} (hok : ∀ s, I s → ok s)
    (hturn : ∀ s s', I s → turn s = some (.next s') → I s') {s : σ} (hs : I s) (n : ℕ) :
    run (guarded ok turn) n s = run turn n s := by
  induction n generalizing s with
  | zero => rfl
  | succ n ih =>
    have hg : guarded ok turn s = turn s := if_pos (hok s hs)
    simp only [run, hg]
    cases ht : turn s with
    | none => rfl
    | some t =>
      cases t with
      | next s' => exact ih (hturn s s' hs ht)
      | exit r => rfl

end Guarded

section Counted

variable {I : ℕ → σ → Prop} {f g : σ → ℕ → Option σ} {m : ℕ}

theorem foldlM_inv (hf : ∀ i s s', i < m → I i s → f s i = some s' → I (i + 1) s') {i n : ℕ}
    (hm : i + n ≤ m) {s s' : σ} (hs : I i s) (h : (List.range' i n).foldlM f s = some s') :
    I (i + n) s' := by
  induction n generalizing i s with
  | zero =>
    cases h
    exact hs
  | succ n ih =>
    obtain ⟨t, ht, hrest⟩ := Option.bind_eq_some_iff.1 h
    have := ih (i := i + 1) (by omega) (hf i s t (by omega) hs ht) hrest
    rwa [Nat.add_right_comm] at this

theorem foldlM_total (hf : ∀ i s, i < m → I i s → ∃ s', f s i = some s' ∧ I (i + 1) s') {i n : ℕ}
    (hm : i + n ≤ m) {s : σ} (hs : I i s) :
    ∃ s', (List.range' i n).foldlM f s = some s' ∧ I (i + n) s' := by
  induction n generalizing i s with
  | zero => exact ⟨s, rfl, hs⟩
  | succ n ih =>
    obtain ⟨t, ht, hit⟩ := hf i s (by omega) hs
    obtain ⟨s', hrest, hs'⟩ := ih (i := i + 1) (by omega) hit
    refine ⟨s', ?_, by rwa [Nat.add_right_comm] at hs'⟩
    rw [List.range'_succ, List.foldlM_cons, ht]
    exact hrest

/-- The states that a loop which comes back goes through. -/
theorem foldlM_states {n : ℕ} {s s' : σ} (h : (List.range' 0 n).foldlM f s = some s') :
    ∃ state : ℕ → σ, state 0 = s ∧ state n = s' ∧
      ∀ i < n, f (state i) i = some (state (i + 1)) := by
  induction n generalizing s' with
  | zero =>
    cases h
    exact ⟨fun _ => s, rfl, rfl, fun i hi => absurd hi (Nat.not_lt_zero i)⟩
  | succ n ih =>
    rw [List.range'_1_concat, List.foldlM_append, Nat.zero_add] at h
    obtain ⟨t, ht, hlast⟩ := Option.bind_eq_some_iff.1 h
    obtain ⟨state, hstart, hend, hstep⟩ := ih ht
    obtain ⟨t', ht', heq⟩ := Option.bind_eq_some_iff.1 hlast
    obtain rfl : t' = s' := Option.some.inj heq
    refine ⟨fun i => if i ≤ n then state i else t', hstart, if_neg (by omega), fun i hi => ?_⟩
    rcases (Nat.le_of_lt_succ hi).eq_or_lt with rfl | hlt
    · simp only [le_refl, if_true, if_neg (by omega : ¬ i + 1 ≤ i), hend, ht']
    · simp only [if_pos hlt.le, if_pos (by omega : i + 1 ≤ n), hstep i hlt]

theorem foldlM_congr (hg : ∀ i s s', i < m → I i s → g s i = some s' → I (i + 1) s')
    (hfg : ∀ i s, i < m → I i s → f s i = g s i) {i n : ℕ} (hm : i + n ≤ m) {s : σ} (hs : I i s) :
    (List.range' i n).foldlM f s = (List.range' i n).foldlM g s := by
  induction n generalizing i s with
  | zero => rfl
  | succ n ih =>
    rw [List.range'_succ, List.foldlM_cons, List.foldlM_cons, hfg i s (by omega) hs]
    refine Option.bind_congr fun t ht => ?_
    exact ih (i := i + 1) (by omega) (hg i s t (by omega) hs ht)

end Counted

/-- A loop over a list: `I done s` is what holds when the loop has been through `done`. -/
theorem foldl_inv {α : Type*} {I : List α → σ → Prop} {f : σ → α → σ} {list : List α} {s : σ}
    (hs : I [] s)
    (hf : ∀ done t rest s, list = done ++ t :: rest → I done s → I (done ++ [t]) (f s t)) :
    I list (list.foldl f s) := by
  -- the last turn, and the turns before it
  induction list using List.reverseRecOn with
  | nil => exact hs
  | append_singleton list t ih =>
    have hbefore : I list (list.foldl f s) := by
      refine ih fun done u rest s hlist => hf done u (rest ++ [t]) s ?_
      rw [hlist, List.append_assoc, List.cons_append]
    rw [List.foldl_append]
    exact hf list t [] _ rfl hbefore

end Loop
