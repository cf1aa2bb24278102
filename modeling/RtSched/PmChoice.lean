import RtSched.Inflate

/-!
# The speeds that `pmclock` chooses

`pmclock` goes through the tasks in the order of their periods.  A task gets the highest of the
speeds that it and the tasks after it need; if that is less than what the task before it got, their
speeds are computed again by `inflated_freq`, with the work before them inflated.

* `chosenSpeeds`: the same choice from the speeds in closed form.  With enough fuel it is what
  `pmclock` computes (`pmclockFreqs_eq`), and there is none where a walk never ends;
* `PmChoice`: what the chosen speeds are, without the loop.  They are exactly what `chosenSpeeds`
  gives (`exists_pmChoice`, `PmChoice.chosenSpeeds_eq`).
-/

namespace RtSched

open TimeDemand Loop

/-! ### The choice -/

/-- The loop that computes the speeds from task `i` on again, whatever computes one of them. -/
def reinflateWith (speed : List ℤ → ℕ → Option ℤ) (size : ℕ) (pmFreq : List ℤ) (i : ℕ)
    (minFreq : List ℤ) : Option (List ℤ) :=
  (List.range' i (size - i)).foldlM (fun minFreq j => do
    let freq ← speed pmFreq j
    some (minFreq.set j freq)) minFreq

/-- One turn of the choice. -/
def pmclockStepWith (speed : List ℤ → ℕ → Option ℤ) (size : ℕ) (x : List ℤ × List ℤ) (i : ℕ) :
    Option (List ℤ × List ℤ) :=
  let pmFreq := x.2.set i (getMax x.1 i)
  if i ≠ 0 ∧ pmFreq.getD (i - 1) 0 > pmFreq.getD i 0 then
    let pmFreq := pmFreq.set i 0
    (reinflateWith speed size pmFreq i x.1).map fun minFreq =>
      (minFreq, pmFreq.set i (getMax minFreq i))
  else some (x.1, pmFreq.set i (getMax x.1 i))

/-- The choice, from the speeds `minFreq` that `sysclock` found. -/
def pmclockWith (speed : List ℤ → ℕ → Option ℤ) (size : ℕ) (minFreq : List ℤ) :
    Option (List ℤ) := do
  let x ← (List.range' 0 size).foldlM (pmclockStepWith speed size)
    (minFreq, List.replicate size 0)
  some x.2

theorem pmclockFreqs_with (fuel : ℕ) (list : List TaskCt) (minFreq : List ℤ) :
    pmclockFreqs fuel list minFreq =
      pmclockWith (inflatedFreq fuel list) list.length minFreq := by
  rw [pmclockFreqs, pmclockWith, List.range_eq_range']
  rfl

/-- The speeds `pmclock` chooses, in thousandths; none if it never ends. -/
noncomputable def chosenSpeeds (list : List TaskCt) : Option (List ℤ) :=
  pmclockWith (lowestSpeed list) list.length (sysSpeeds list)

section Choice

variable {list : List TaskCt}

/-- What the choice keeps before task `i`. -/
structure Choosing (list : List TaskCt) (i : ℕ) (x : List ℤ × List ℤ) : Prop where
  lowest : ∀ v ∈ x.1, 0 ≤ v
  length : x.2.length = list.length
  nonneg : ∀ v ∈ x.2, 0 ≤ v
  unset : ∀ j, i ≤ j → x.2.getD j 0 = 0

theorem getMax_nonneg {freqs : List ℤ} (h : ∀ v ∈ freqs, 0 ≤ v) (pos : ℕ) :
    0 ≤ getMax freqs pos := by
  refine (le_foldl_max_iff _ _ _).2 (Or.inl ?_)
  rcases lt_or_ge pos freqs.length with hlt | hge
  · rw [List.getD_eq_getElem _ _ hlt]
    exact h _ (List.getElem_mem hlt)
  · rw [List.getD_eq_default _ _ hge]

theorem Undecided.lowSpeed_zero {pmFreq : List ℤ} {pos : ℕ} (h : Undecided list pmFreq pos) :
    LowSpeed list pmFreq pos 0 := by
  refine ⟨by norm_num [scaleUpFactor], fun t ht _ _ => ?_⟩
  have hb := h.budget_le_freeBefore ht
  have := h.positive.get h.lt
  unfold SpeedFits
  simp only [zero_mul, scaleUpFactor]
  omega

theorem lowestSpeed_le {pmFreq : List ℤ} {pos : ℕ} (h : Undecided list pmFreq pos) {v : ℤ}
    (hv : lowestSpeed list pmFreq pos = some v) : 0 ≤ v ∧ v ≤ scaleUpFactor := by
  unfold lowestSpeed at hv
  split_ifs at hv
  cases hv
  have hzero := h.lowSpeed_zero
  exact ⟨le_csSup ⟨scaleUpFactor, fun k hk => hk.le⟩ hzero, csSup_le ⟨0, hzero⟩ fun k hk => hk.le⟩

/-- The tasks from `i` on have no frequency when their speeds are computed again. -/
theorem Choosing.undecided {i j : ℕ} {x : List ℤ × List ℤ} (hx : Choosing list i x)
    (h : Positive list) (hs : list.Pairwise fun a b => a.period ≤ b.period) (hij : i ≤ j)
    (hj : j < list.length) (v : ℤ) : Undecided list ((x.2.set i v).set i 0) j := by
  rw [List.set_set]
  refine ⟨h, hs, by rw [List.length_set, hx.length], fun u hu => ?_, hj, ?_⟩
  · rcases List.mem_or_eq_of_mem_set hu with hu | rfl
    · exact hx.nonneg u hu
    · exact le_rfl
  · have := hx.unset j hij
    rw [List.getD_eq_getElem?_getD] at this ⊢
    rw [List.getElem?_set]
    split_ifs
    · rfl
    · rfl
    · exact this

theorem Choosing.set {i : ℕ} {x : List ℤ × List ℤ} (hx : Choosing list i x) {minFreq : List ℤ}
    (hmin : ∀ v ∈ minFreq, 0 ≤ v) {v : ℤ} (hv : 0 ≤ v) :
    Choosing list (i + 1) (minFreq, x.2.set i v) := by
  refine ⟨hmin, by rw [List.length_set, hx.length], fun u hu => ?_, fun j hj => ?_⟩
  · rcases List.mem_or_eq_of_mem_set hu with hu | rfl
    · exact hx.nonneg u hu
    · exact hv
  · have := hx.unset j (by omega)
    rw [List.getD_eq_getElem?_getD] at this ⊢
    rwa [List.getElem?_set_ne (by omega)]

theorem reinflateWith_nonneg {i : ℕ} {pmFreq minFreq freqs : List ℤ}
    (h : ∀ j, i ≤ j → j < list.length → Undecided list pmFreq j) (hmin : ∀ v ∈ minFreq, 0 ≤ v)
    (hfreqs : reinflateWith (lowestSpeed list) list.length pmFreq i minFreq = some freqs) :
    ∀ v ∈ freqs, 0 ≤ v := by
  refine (foldlM_inv (I := fun j l => i ≤ j ∧ ∀ v ∈ l, 0 ≤ v) (fun j l l' hj hl hstep => ?_) le_rfl
    ⟨le_rfl, hmin⟩ hfreqs).2
  obtain ⟨freq, hfreq, hset⟩ := Option.bind_eq_some_iff.1 hstep
  cases hset
  refine ⟨by omega, fun u hu => ?_⟩
  rcases List.mem_or_eq_of_mem_set hu with hu | rfl
  · exact hl.2 u hu
  · exact (lowestSpeed_le (h j hl.1 (by omega)) hfreq).1

section

variable (h : Positive list) (hs : list.Pairwise fun a b => a.period ≤ b.period)

include h hs in
theorem Choosing.next {i : ℕ} {x y : List ℤ × List ℤ} (hx : Choosing list i x)
    (hy : pmclockStepWith (lowestSpeed list) list.length x i = some y) :
    Choosing list (i + 1) y := by
  simp only [pmclockStepWith] at hy
  split_ifs at hy
  · obtain ⟨minFreq, hmin, rfl⟩ := Option.map_eq_some_iff.1 hy
    have hnonneg := reinflateWith_nonneg (fun j hij hj => hx.undecided h hs hij hj _) hx.lowest hmin
    rw [List.set_set, List.set_set]
    exact hx.set hnonneg (getMax_nonneg hnonneg i)
  · cases hy
    rw [List.set_set]
    exact hx.set hx.lowest (getMax_nonneg hx.lowest i)

variable {speed : List ℤ → ℕ → Option ℤ}
  (hspeed : ∀ pmFreq pos, Undecided list pmFreq pos →
    speed pmFreq pos = lowestSpeed list pmFreq pos)

include h hs hspeed in
theorem pmclockStepWith_eq {i : ℕ} {x : List ℤ × List ℤ} (hx : Choosing list i x) :
    pmclockStepWith speed list.length x i =
      pmclockStepWith (lowestSpeed list) list.length x i := by
  have hre : ∀ v, reinflateWith speed list.length ((x.2.set i v).set i 0) i x.1 =
      reinflateWith (lowestSpeed list) list.length ((x.2.set i v).set i 0) i x.1 := by
    intro v
    refine foldlM_congr (I := fun j _ => i ≤ j) (fun j _ _ _ hj _ => by omega)
      (fun j l hj hij => ?_) le_rfl le_rfl
    rw [hspeed _ _ (hx.undecided h hs hij (by omega) v)]
  simp only [pmclockStepWith, hre]

theorem choosing_start {minFreq : List ℤ} (hmin : ∀ v ∈ minFreq, 0 ≤ v) :
    Choosing list 0 (minFreq, List.replicate list.length 0) := by
  refine ⟨hmin, by simp, fun v hv => (List.eq_of_mem_replicate hv).ge, fun j _ => ?_⟩
  rw [List.getD_eq_getElem?_getD, List.getElem?_replicate]
  split_ifs <;> rfl

include h hs hspeed in
/-- The choice is the same, whatever computes the speeds of the closed form. -/
theorem pmclockWith_eq {minFreq : List ℤ} (hmin : ∀ v ∈ minFreq, 0 ≤ v) :
    pmclockWith speed list.length minFreq = pmclockWith (lowestSpeed list) list.length minFreq := by
  have hloop := foldlM_congr (I := Choosing list) (m := list.length)
    (fun i x y _ hx hy => hx.next h hs hy)
    (fun i x _ hx => pmclockStepWith_eq h hs hspeed hx) (by omega : 0 + list.length ≤ _)
    (choosing_start hmin)
  rw [pmclockWith, pmclockWith, hloop]

end

/-- With enough fuel, `pmclock` computes the speeds of the closed form. -/
theorem pmclockFreqs_eq (h : Proper list) (hs : list.Pairwise fun a b => a.period ≤ b.period)
    {fuel : ℕ} (hfuel : ∀ c ∈ list, 2 * c.period.toNat + 2 < fuel) :
    pmclockFreqs fuel list (sysSpeeds list) = chosenSpeeds list := by
  rw [pmclockFreqs_with, chosenSpeeds]
  refine pmclockWith_eq h.positive hs (fun pmFreq pos hu => ?_) fun v hv => ?_
  · exact inflatedFreq_eq hu (hfuel _ (getD_mem hu.lt))
  · obtain ⟨i, hi, rfl⟩ := List.mem_map.1 hv
    exact sysSpeed_nonneg h (by simpa using List.mem_range'_1.1 hi)

end Choice

/-! ### The choice without the loop -/

/-- `k` is the lowest speed at which task `pos` and the tasks before it can run, with the work of
those that have a frequency inflated; and the walk that looks for it ends. -/
structure IsLowest (list : List TaskCt) (pmFreq : List ℤ) (pos : ℕ) (k : ℤ) : Prop where
  ends : ¬ Stalls list pmFreq pos
  greatest : IsGreatest {k | LowSpeed list pmFreq pos k} k

/-- The speeds `v` of the tasks before task `i`, and zero for the others. -/
def decided (size : ℕ) (v : ℕ → ℤ) (i : ℕ) : List ℤ :=
  (List.range size).map fun m => if m < i then v m else 0

/-- The speeds `v` that the tasks get.  Row `i` of `lowest` has the speeds that the tasks need when
it is the turn of task `i`. -/
structure PmChoice (list : List TaskCt) (v : ℕ → ℤ) (lowest : ℕ → ℕ → ℤ) : Prop where
  first : ∀ j < list.length, lowest 0 j = sysSpeed list j
  /-- Some task from `i` on needs as much as task `i - 1` got: nothing is computed again. -/
  kept : ∀ i < list.length, (i = 0 ∨ ∃ j, i ≤ j ∧ j < list.length ∧ v (i - 1) ≤ lowest i j) →
    ∀ j, i ≤ j → j < list.length → lowest (i + 1) j = lowest i j
  /-- All of them need less: their speeds are computed again. -/
  again : ∀ i < list.length, 0 < i → (∀ j, i ≤ j → j < list.length → lowest i j < v (i - 1)) →
    ∀ j, i ≤ j → j < list.length → IsLowest list (decided list.length v i) j (lowest (i + 1) j)
  chosen : ∀ i < list.length,
    IsGreatest {k | ∃ j, i ≤ j ∧ j < list.length ∧ k = lowest (i + 1) j} (v i)

section Rows

variable {size i : ℕ} {v : ℕ → ℤ}

theorem decided_length (size : ℕ) (v : ℕ → ℤ) (i : ℕ) : (decided size v i).length = size := by
  simp [decided]

theorem decided_getD {j : ℕ} (hj : j < size) :
    (decided size v i).getD j 0 = if j < i then v j else 0 := by
  rw [List.getD_eq_getElem _ _ (by rwa [decided_length])]
  simp [decided]

theorem decided_zero (size : ℕ) (v : ℕ → ℤ) : decided size v 0 = List.replicate size 0 := by
  simp [decided, List.map_const']

theorem decided_set (size : ℕ) (v : ℕ → ℤ) (i : ℕ) :
    (decided size v i).set i (v i) = decided size v (i + 1) := by
  refine List.ext_getElem (by simp [decided]) fun j h1 h2 => ?_
  rw [List.getElem_set]
  simp only [decided, List.getElem_map, List.getElem_range]
  split_ifs <;> first | rfl | omega | simp_all

theorem decided_set_zero (size : ℕ) (v : ℕ → ℤ) (i : ℕ) :
    (decided size v i).set i 0 = decided size v i := by
  refine List.ext_getElem (by simp [decided]) fun j h1 h2 => ?_
  rw [List.getElem_set]
  simp only [decided, List.getElem_map, List.getElem_range]
  split_ifs <;> first | rfl | omega

/-- `get_max` is the greatest entry from `i` on. -/
theorem getMax_isGreatest (freqs : List ℤ) (hi : i < freqs.length) :
    IsGreatest {k | ∃ j, i ≤ j ∧ j < freqs.length ∧ k = freqs.getD j 0} (getMax freqs i) := by
  have hmax := le_foldl_max_iff (freqs.drop (i + 1)) (freqs.getD i 0)
  have hdrop : ∀ a ∈ freqs.drop (i + 1), ∃ j, i ≤ j ∧ j < freqs.length ∧ a = freqs.getD j 0 := by
    intro a ha
    obtain ⟨k, hk, rfl⟩ := List.mem_iff_getElem.1 ha
    rw [List.length_drop] at hk
    refine ⟨i + 1 + k, by omega, by omega, ?_⟩
    rw [List.getD_eq_getElem _ _ (by omega), List.getElem_drop]
  rw [getMax]
  set m := (freqs.drop (i + 1)).foldl (fun m f => if f > m then f else m) (freqs.getD i 0)
  constructor
  · rcases (hmax m).1 le_rfl with hm | ⟨a, ha, hle⟩
    · exact ⟨i, le_rfl, hi, le_antisymm hm ((hmax _).2 (Or.inl le_rfl))⟩
    · obtain ⟨j, hij, hj, rfl⟩ := hdrop a ha
      exact ⟨j, hij, hj, le_antisymm hle ((hmax _).2 (Or.inr ⟨_, ha, le_rfl⟩))⟩
  · rintro k ⟨j, hij, hj, rfl⟩
    refine (hmax _).2 ?_
    rcases hij.eq_or_lt with rfl | hlt
    · exact Or.inl le_rfl
    · refine Or.inr ⟨_, ?_, le_rfl⟩
      rw [List.getD_eq_getElem _ _ hj, List.mem_iff_getElem]
      refine ⟨j - (i + 1), by rw [List.length_drop]; omega, ?_⟩
      rw [List.getElem_drop]
      congr 1
      omega

end Rows

section Turn

variable {speed : List ℤ → ℕ → Option ℤ} {size i : ℕ} {pmFreq minFreq : List ℤ}
  {x y : List ℤ × List ℤ}

theorem reinflateWith_spec (hlen : minFreq.length = size) {freqs : List ℤ}
    (h : reinflateWith speed size pmFreq i minFreq = some freqs) :
    freqs.length = size ∧
      ∀ j, i ≤ j → j < size → speed pmFreq j = some (freqs.getD j 0) := by
  have hinv := foldlM_inv (I := fun j l => i ≤ j ∧ l.length = size ∧
      ∀ k, i ≤ k → k < j → k < size → speed pmFreq k = some (l.getD k 0))
    (fun j l l' hj hl hstep => ?_) le_rfl ⟨le_rfl, hlen, fun k h1 h2 => absurd h1 (by omega)⟩ h
  · obtain ⟨-, hsize, hall⟩ := hinv
    exact ⟨hsize, fun j hij hj => hall j hij (by omega) hj⟩
  · obtain ⟨freq, hfreq, hset⟩ := Option.bind_eq_some_iff.1 hstep
    cases hset
    obtain ⟨hij, hsize, hall⟩ := hl
    refine ⟨by omega, by rw [List.length_set, hsize], fun k hik hk hks => ?_⟩
    rw [List.getD_eq_getElem?_getD, List.getElem?_set]
    by_cases hjk : j = k
    · subst hjk
      rw [if_pos rfl, if_pos (by omega), hfreq]
      rfl
    · rw [if_neg hjk, ← List.getD_eq_getElem?_getD]
      exact hall k hik (by omega) hks

theorem reinflateWith_exists (minFreq : List ℤ)
    (h : ∀ j, i ≤ j → j < size → ∃ k, speed pmFreq j = some k) :
    ∃ freqs, reinflateWith speed size pmFreq i minFreq = some freqs := by
  have hstep : ∀ j (l : List ℤ), j < i + (size - i) → i ≤ j →
      ∃ l', (do
        let freq ← speed pmFreq j
        some (l.set j freq)) = some l' ∧ i ≤ j + 1 := by
    intro j l hj hij
    obtain ⟨k, hk⟩ := h j hij (by omega)
    exact ⟨l.set j k, by rw [hk]; rfl, by omega⟩
  obtain ⟨freqs, hfreqs, -⟩ := foldlM_total hstep le_rfl le_rfl
  exact ⟨freqs, hfreqs⟩

/-- When the speeds are computed again. -/
theorem slower_iff (hi : i < size) (h1 : x.1.length = size) (h2 : x.2.length = size) :
    (i ≠ 0 ∧ (x.2.set i (getMax x.1 i)).getD (i - 1) 0 >
        (x.2.set i (getMax x.1 i)).getD i 0) ↔
      0 < i ∧ ∀ j, i ≤ j → j < size → x.1.getD j 0 < x.2.getD (i - 1) 0 := by
  obtain ⟨hmem, hupper⟩ := getMax_isGreatest (i := i) x.1 (by omega)
  rw [← Nat.pos_iff_ne_zero]
  refine and_congr_right fun h0 => ?_
  have hprev : (x.2.set i (getMax x.1 i)).getD (i - 1) 0 = x.2.getD (i - 1) 0 := by
    rw [List.getD_eq_getElem?_getD, List.getElem?_set_ne (by omega), ← List.getD_eq_getElem?_getD]
  have hself : (x.2.set i (getMax x.1 i)).getD i 0 = getMax x.1 i := by
    rw [List.getD_eq_getElem _ _ (by rw [List.length_set]; omega), List.getElem_set_self]
  rw [hprev, hself]
  constructor
  · intro hlt j hij hj
    exact lt_of_le_of_lt (hupper ⟨j, hij, by omega, rfl⟩) hlt
  · intro hall
    obtain ⟨j, hij, hj, heq⟩ := hmem
    rw [heq]
    exact hall j hij (by omega)

/-- One turn of the choice. -/
structure TurnOf (speed : List ℤ → ℕ → Option ℤ) (size i : ℕ) (x y : List ℤ × List ℤ) : Prop where
  length : y.1.length = size
  chosen : y.2 = x.2.set i (getMax y.1 i)
  kept : (i = 0 ∨ ∃ j, i ≤ j ∧ j < size ∧ x.2.getD (i - 1) 0 ≤ x.1.getD j 0) → y.1 = x.1
  again : 0 < i → (∀ j, i ≤ j → j < size → x.1.getD j 0 < x.2.getD (i - 1) 0) →
    ∀ j, i ≤ j → j < size → speed (x.2.set i 0) j = some (y.1.getD j 0)

theorem turnOf_step (hi : i < size) (h1 : x.1.length = size) (h2 : x.2.length = size)
    (h : pmclockStepWith speed size x i = some y) : TurnOf speed size i x y := by
  simp only [pmclockStepWith, slower_iff hi h1 h2] at h
  split_ifs at h with hslow
  · obtain ⟨minFreq, hmin, rfl⟩ := Option.map_eq_some_iff.1 h
    rw [List.set_set] at hmin
    obtain ⟨hlen, hspeed⟩ := reinflateWith_spec h1 hmin
    refine ⟨hlen, by simp only [List.set_set], fun hkept => ?_, fun _ _ => hspeed⟩
    rcases hkept with h0 | ⟨j, hij, hj, hle⟩
    · omega
    · exact absurd (hslow.2 j hij hj) (not_lt.2 hle)
  · cases h
    exact ⟨h1, by simp only [List.set_set], fun _ => rfl, fun h0 hall => absurd ⟨h0, hall⟩ hslow⟩

theorem step_exists (hi : i < size) (h1 : x.1.length = size) (h2 : x.2.length = size)
    (h : 0 < i → (∀ j, i ≤ j → j < size → x.1.getD j 0 < x.2.getD (i - 1) 0) →
      ∀ j, i ≤ j → j < size → ∃ k, speed (x.2.set i 0) j = some k) :
    ∃ y, pmclockStepWith speed size x i = some y := by
  simp only [pmclockStepWith, slower_iff hi h1 h2]
  split_ifs with hslow
  · obtain ⟨freqs, hfreqs⟩ := reinflateWith_exists x.1 (h hslow.1 hslow.2)
    rw [List.set_set, hfreqs]
    exact ⟨_, rfl⟩
  · exact ⟨_, rfl⟩

end Turn

section Equivalence

variable {list : List TaskCt}

theorem lowestSpeed_eq_some_iff {pmFreq : List ℤ} {pos : ℕ} (h : Undecided list pmFreq pos) {k : ℤ} :
    lowestSpeed list pmFreq pos = some k ↔ IsLowest list pmFreq pos k := by
  have hbdd : BddAbove {k | LowSpeed list pmFreq pos k} := ⟨scaleUpFactor, fun k hk => hk.le⟩
  have hne : {k | LowSpeed list pmFreq pos k}.Nonempty := ⟨0, h.lowSpeed_zero⟩
  constructor
  · intro heq
    unfold lowestSpeed at heq
    split_ifs at heq with hstall
    cases heq
    exact ⟨hstall, Int.csSup_mem hne hbdd, fun k hk => le_csSup hbdd hk⟩
  · rintro ⟨hends, hgreatest⟩
    rw [lowestSpeed, if_neg hends, greatest, hgreatest.csSup_eq]

variable (h : Proper list) (hs : list.Pairwise fun a b => a.period ≤ b.period)

include h in
theorem choosing_sysSpeeds :
    Choosing list 0 (sysSpeeds list, List.replicate list.length 0) := by
  refine choosing_start fun v hv => ?_
  obtain ⟨i, hi, rfl⟩ := List.mem_map.1 hv
  exact sysSpeed_nonneg h (by simpa using List.mem_range'_1.1 hi)

include hs h in
/-- When their speeds are computed again, the tasks from `i` on have no frequency. -/
theorem Choosing.undecided_zero {i j : ℕ} {x : List ℤ × List ℤ} (hx : Choosing list i x)
    (hij : i ≤ j) (hj : j < list.length) : Undecided list (x.2.set i 0) j := by
  have := hx.undecided h.positive hs hij hj 0
  rwa [List.set_set] at this

/-- The variables of `pmclock` before the turn of task `i`: the tasks before it have the speeds `v`. -/
structure Follows (list : List TaskCt) (v : ℕ → ℤ) (i : ℕ) (x : List ℤ × List ℤ) : Prop extends
    Choosing list i x where
  lengthLowest : x.1.length = list.length
  freqs : x.2 = decided list.length v i

section Follows

variable {v : ℕ → ℤ} {lowest : ℕ → ℕ → ℤ} {i : ℕ} {x y : List ℤ × List ℤ}

include h in
theorem follows_start (v : ℕ → ℤ) :
    Follows list v 0 (sysSpeeds list, List.replicate list.length 0) :=
  ⟨choosing_sysSpeeds h, sysSpeeds_length list, (decided_zero list.length v).symm⟩

theorem Follows.turn (hx : Follows list v i x) (hi : i < list.length)
    (hy : pmclockStepWith (lowestSpeed list) list.length x i = some y) :
    TurnOf (lowestSpeed list) list.length i x y :=
  turnOf_step hi hx.lengthLowest hx.length hy

theorem Follows.prev (hx : Follows list v i x) (hi : i < list.length) (h0 : 0 < i) :
    x.2.getD (i - 1) 0 = v (i - 1) := by
  rw [hx.freqs, decided_getD (by omega), if_pos (by omega)]

include h hs in
/-- The turn of task `i`, if it gets `v i`. -/
theorem Follows.next (hx : Follows list v i x) (hi : i < list.length)
    (hy : pmclockStepWith (lowestSpeed list) list.length x i = some y) (hv : getMax y.1 i = v i) :
    Follows list v (i + 1) y := by
  refine ⟨hx.toChoosing.next h.positive hs hy, (hx.turn hi hy).length, ?_⟩
  rw [(hx.turn hi hy).chosen, hv, hx.freqs, decided_set]

include h hs in
theorem Follows.lowestSpeed_iff (hx : Follows list v i x) {j : ℕ} (hij : i ≤ j)
    (hj : j < list.length) {k : ℤ} :
    lowestSpeed list (x.2.set i 0) j = some k ↔ IsLowest list (decided list.length v i) j k := by
  rw [lowestSpeed_eq_some_iff (hx.toChoosing.undecided_zero h hs hij hj), hx.freqs,
    decided_set_zero]

include h hs in
/-- The choice of the loop is one. -/
theorem exists_pmChoice {freqs : List ℤ} (hfreqs : chosenSpeeds list = some freqs) :
    ∃ v lowest, PmChoice list v lowest ∧ freqs = decided list.length v list.length := by
  obtain ⟨last, hlast, hfreqs⟩ := Option.bind_eq_some_iff.1 hfreqs
  obtain ⟨state, hstart, hend, hstep⟩ := foldlM_states hlast
  let v : ℕ → ℤ := fun i => getMax (state (i + 1)).1 i
  have hstate : ∀ m, m ≤ list.length → Follows list v m (state m) := by
    intro m
    induction m with
    | zero =>
      intro _
      rw [hstart]
      exact follows_start h v
    | succ m ih => exact fun hm => (ih (by omega)).next h hs hm (hstep m hm) rfl
  have hturn : ∀ m, m < list.length →
      TurnOf (lowestSpeed list) list.length m (state m) (state (m + 1)) :=
    fun m hm => (hstate m hm.le).turn hm (hstep m hm)
  refine ⟨v, fun i j => (state i).1.getD j 0, ⟨fun j hj => ?_, fun i hi hkept j _ _ => ?_,
    fun i hi h0 hall j hij hj => ?_, fun i hi => ?_⟩, ?_⟩
  · rw [hstart]
    exact sysSpeeds_getD list hj
  · rw [(hturn i hi).kept]
    rcases Nat.eq_zero_or_pos i with h0 | h0
    · exact Or.inl h0
    · rw [(hstate i hi.le).prev hi h0]
      exact hkept
  · rw [← (hstate i hi.le).lowestSpeed_iff h hs hij hj]
    exact (hturn i hi).again h0 (by rwa [(hstate i hi.le).prev hi h0]) j hij hj
  · have hmax := getMax_isGreatest (i := i) (state (i + 1)).1
      (by rw [(hturn i hi).length]; exact hi)
    rwa [(hturn i hi).length] at hmax
  · rw [← (hstate _ le_rfl).freqs, hend]
    exact (Option.some.inj hfreqs).symm

include h hs in
/-- Where the speeds are computed again, those of the choice are found. -/
theorem PmChoice.lowestSpeed_eq (hc : PmChoice list v lowest) (hx : Follows list v i x)
    (hi : i < list.length) (hrow : ∀ j, i ≤ j → j < list.length → x.1.getD j 0 = lowest i j)
    (h0 : 0 < i) (hall : ∀ j, i ≤ j → j < list.length → x.1.getD j 0 < x.2.getD (i - 1) 0) {j : ℕ}
    (hij : i ≤ j) (hj : j < list.length) :
    lowestSpeed list (x.2.set i 0) j = some (lowest (i + 1) j) := by
  rw [hx.lowestSpeed_iff h hs hij hj]
  refine hc.again i hi h0 (fun k hik hk => ?_) j hij hj
  rw [← hrow k hik hk, ← hx.prev hi h0]
  exact hall k hik hk

include h hs in
/-- After the turn of task `i` the tasks from `i` on have the speeds of the next row. -/
theorem PmChoice.row_next (hc : PmChoice list v lowest) (hx : Follows list v i x)
    (hi : i < list.length) (hrow : ∀ j, i ≤ j → j < list.length → x.1.getD j 0 = lowest i j)
    (hturn : TurnOf (lowestSpeed list) list.length i x y) {j : ℕ} (hij : i ≤ j)
    (hj : j < list.length) : y.1.getD j 0 = lowest (i + 1) j := by
  by_cases hkept : i = 0 ∨ ∃ j, i ≤ j ∧ j < list.length ∧ x.2.getD (i - 1) 0 ≤ x.1.getD j 0
  · rw [hturn.kept hkept, hrow j hij hj]
    refine (hc.kept i hi ?_ j hij hj).symm
    rcases Nat.eq_zero_or_pos i with h0 | h0
    · exact Or.inl h0
    · obtain ⟨k, hik, hk, hle⟩ := hkept.resolve_left h0.ne'
      rw [hx.prev hi h0, hrow k hik hk] at hle
      exact Or.inr ⟨k, hik, hk, hle⟩
  · push Not at hkept
    obtain ⟨hne, hall⟩ := hkept
    have h0 := Nat.pos_of_ne_zero hne
    have hagain := hc.lowestSpeed_eq h hs hx hi hrow h0 hall hij hj
    rw [hturn.again h0 hall j hij hj] at hagain
    exact Option.some.inj hagain

/-- The highest of that row is what the choice gives the task. -/
theorem PmChoice.getMax_eq (hc : PmChoice list v lowest) (hi : i < list.length)
    (hlen : y.1.length = list.length)
    (hnext : ∀ j, i ≤ j → j < list.length → y.1.getD j 0 = lowest (i + 1) j) :
    getMax y.1 i = v i := by
  have hmax := getMax_isGreatest (i := i) y.1 (by rw [hlen]; exact hi)
  rw [hlen] at hmax
  have hset : {k | ∃ j, i ≤ j ∧ j < list.length ∧ k = y.1.getD j 0} =
      {k | ∃ j, i ≤ j ∧ j < list.length ∧ k = lowest (i + 1) j} := by
    ext k
    refine exists_congr fun j => and_congr_right fun hij => and_congr_right fun hj => ?_
    rw [hnext j hij hj]
  rw [hset] at hmax
  exact hmax.unique (hc.chosen i hi)

include h hs in
/-- A choice is what the loop computes. -/
theorem PmChoice.chosenSpeeds_eq (hc : PmChoice list v lowest) :
    chosenSpeeds list = some (decided list.length v list.length) := by
  have hturns := foldlM_total (m := list.length) (i := 0) (n := list.length)
    (f := pmclockStepWith (lowestSpeed list) list.length)
    (I := fun i x => Follows list v i x ∧
      ∀ j, i ≤ j → j < list.length → x.1.getD j 0 = lowest i j)
    (s := (sysSpeeds list, List.replicate list.length 0)) (fun i x hi hx => ?_) (by omega)
    ⟨follows_start h v, fun j _ hj => ?_⟩
  · obtain ⟨x, hx, hfollows, -⟩ := hturns
    rw [chosenSpeeds, pmclockWith, hx]
    have hfreqs := hfollows.freqs
    rw [Nat.zero_add] at hfreqs
    exact congrArg some hfreqs
  · obtain ⟨hx, hrow⟩ := hx
    obtain ⟨y, hy⟩ := step_exists hi hx.lengthLowest hx.length fun h0 hall j hij hj =>
      ⟨_, hc.lowestSpeed_eq h hs hx hi hrow h0 hall hij hj⟩
    have hturn := hx.turn hi hy
    have hnext : ∀ j, i ≤ j → j < list.length → y.1.getD j 0 = lowest (i + 1) j :=
      fun j hij hj => hc.row_next h hs hx hi hrow hturn hij hj
    exact ⟨y, hy, hx.next h hs hi hy (hc.getMax_eq hi hturn.length hnext),
      fun j hij hj => hnext j (by omega) hj⟩
  · rw [hc.first j hj]
    exact sysSpeeds_getD list hj

end Follows

end Equivalence

end RtSched
