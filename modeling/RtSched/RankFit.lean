import RtSched.CpuListRun
import RtSched.FirstFit

/-!
# Best fit and worst fit (`bin_packing`, schemes 2, 3 and 4)

The CPUs are tried by rank, in the order of what is left of them.  `get_util_bin` answers with the
first CPU that has so much left, so of CPUs that have equally much left only the foremost is ever
tried (`Foremost`, `getUtilBin_eq_some`).

* `RankTurn`: what one turn of schemes 2 and 4 does; `FitTurn`: what it is to do;
* `binPacking_byRank_iff`: they agree exactly if the foremost CPUs are enough;
* `binPacking_worstFit_iff`: in scheme 3 the rank is counted from the top, and after a CPU has been
  opened it denotes the fullest one, never the new one.
-/

namespace RtSched

open LinkRing Call

/-! ### CPUs by rank -/

/-- The array that `get_util_bin` sorts. -/
def sortedBins (bins : ℕ → ℤ) (m : ℕ) : List ℤ :=
  bubbleSort (fun a b => decide (b < a)) ((List.range m).map bins)

section Rank

variable {bins : ℕ → ℤ} {m r b : ℕ}

theorem sortedBins_length (bins : ℕ → ℤ) (m : ℕ) : (sortedBins bins m).length = m := by
  rw [sortedBins, (bubbleSort_perm _ _).length_eq, List.length_map, List.length_range]

theorem mem_sortedBins {v : ℤ} : v ∈ sortedBins bins m ↔ ∃ d < m, bins d = v := by
  simp only [sortedBins, (bubbleSort_perm _ _).mem_iff, List.mem_map, List.mem_range]

theorem sortedBins_mono {i j : ℕ} (hij : i ≤ j) (hj : j < m) :
    (sortedBins bins m).getD i 0 ≤ (sortedBins bins m).getD j 0 := by
  have hsorted : (sortedBins bins m).Pairwise (· ≤ ·) := by
    have h : (sortedBins bins m).Pairwise fun a b => decide (b < a) = false := by
      refine bubbleSort_sorted (fun a b => ?_) (fun a b c => ?_) _
      · simp only [decide_eq_true_eq, decide_eq_false_iff_not]
        omega
      · simp only [decide_eq_false_iff_not]
        omega
    refine h.imp fun hab => ?_
    rw [decide_eq_false_iff_not] at hab
    omega
  have hlen := sortedBins_length bins m
  have hi' : i < (sortedBins bins m).length := by omega
  have hj' : j < (sortedBins bins m).length := by omega
  rw [List.getD_eq_getElem _ _ hi', List.getD_eq_getElem _ _ hj']
  rcases Nat.eq_or_lt_of_le hij with rfl | hlt
  · exact le_rfl
  · exact List.pairwise_iff_getElem.1 hsorted i j hi' hj' hlt

/-- No CPU in front has as much left. -/
def Foremost (bins : ℕ → ℤ) (b : ℕ) : Prop := ∀ d < b, bins d ≠ bins b

instance (bins : ℕ → ℤ) (b : ℕ) : Decidable (Foremost bins b) :=
  inferInstanceAs (Decidable (∀ d < b, bins d ≠ bins b))

theorem Foremost.unique {b' : ℕ} (h : Foremost bins b) (h' : Foremost bins b')
    (heq : bins b = bins b') : b = b' := by
  rcases Nat.lt_trichotomy b b' with hlt | rfl | hlt
  · exact absurd heq (h' b hlt)
  · rfl
  · exact absurd heq.symm (h b' hlt)

theorem getUtilBin_eq_some : getUtilBin bins r m = some b ↔
    b < m ∧ bins b = (sortedBins bins m).getD r 0 ∧ Foremost bins b := by
  show (List.range m).find? (fun i => decide (bins i = (sortedBins bins m).getD r 0)) = some b ↔ _
  rw [List.find?_range_eq_some]
  simp only [decide_eq_true_eq, List.mem_range, Foremost, Bool.not_eq_true', decide_eq_false_iff_not]
  constructor
  · rintro ⟨hb, hlt, hfirst⟩
    exact ⟨hlt, hb, fun d hd heq => hfirst d hd (heq.trans hb)⟩
  · rintro ⟨hlt, hb, hfirst⟩
    exact ⟨hb, hlt, fun d hd heq => hfirst d hd (heq.trans hb.symm)⟩

/-- Every rank denotes a CPU. -/
theorem exists_getUtilBin (bins : ℕ → ℤ) (hr : r < m) : ∃ b, getUtilBin bins r m = some b := by
  have hmem : (sortedBins bins m).getD r 0 ∈ sortedBins bins m := by
    rw [List.getD_eq_getElem _ _ (by rwa [sortedBins_length])]
    exact List.getElem_mem _
  obtain ⟨d, hd, heq⟩ := mem_sortedBins.1 hmem
  cases h : getUtilBin bins r m with
  | some b => exact ⟨b, rfl⟩
  | none =>
    have hnone := List.find?_eq_none.1 h d (List.mem_range.2 hd)
    exact absurd (decide_eq_true heq) hnone

/-- A CPU has a rank if no CPU in front has as much left. -/
theorem Foremost.exists_rank (h : Foremost bins b) (hb : b < m) :
    ∃ r < m, getUtilBin bins r m = some b := by
  have hmem : bins b ∈ sortedBins bins m := mem_sortedBins.2 ⟨b, hb, rfl⟩
  obtain ⟨r, hr, heq⟩ := List.mem_iff_getElem.1 hmem
  refine ⟨r, by rwa [sortedBins_length] at hr, getUtilBin_eq_some.2 ⟨hb, ?_, h⟩⟩
  rw [List.getD_eq_getElem _ _ hr, heq]

theorem getUtilBin_mono {r' b' : ℕ} (h : getUtilBin bins r m = some b)
    (h' : getUtilBin bins r' m = some b') (hle : r ≤ r') (hr' : r' < m) : bins b ≤ bins b' := by
  rw [(getUtilBin_eq_some.1 h).2.1, (getUtilBin_eq_some.1 h').2.1]
  exact sortedBins_mono hle hr'

/-- Only the open CPUs matter. -/
theorem getUtilBin_congr {bins' : ℕ → ℤ} (h : ∀ d < m, bins d = bins' d) (r : ℕ) :
    getUtilBin bins r m = getUtilBin bins' r m := by
  have hmap : (List.range m).map bins = (List.range m).map bins' :=
    List.map_congr_left fun d hd => h d (List.mem_range.1 hd)
  rw [getUtilBin, getUtilBin, hmap]
  refine List.find?_congr fun d hd => ?_
  rw [h d (List.mem_range.1 hd)]

/-- The last rank denotes the foremost of the CPUs with the most left. -/
theorem getUtilBin_last (h : Foremost bins b) (hb : b < m) (hmost : ∀ d < m, bins d ≤ bins b) :
    getUtilBin bins (m - 1) m = some b := by
  obtain ⟨d, hd⟩ := exists_getUtilBin bins (show m - 1 < m by omega)
  obtain ⟨hdm, -, hfirst⟩ := getUtilBin_eq_some.1 hd
  obtain ⟨r, hr, hrank⟩ := h.exists_rank hb
  have hle := getUtilBin_mono hrank hd (show r ≤ m - 1 by omega) (by omega)
  rwa [← hfirst.unique h (le_antisymm (hmost d hdm) hle)]

/-- The first rank denotes the foremost of those with the least left. -/
theorem getUtilBin_zero (h : Foremost bins b) (hb : b < m) (hleast : ∀ d < m, bins b ≤ bins d) :
    getUtilBin bins 0 m = some b := by
  obtain ⟨d, hd⟩ := exists_getUtilBin bins (show 0 < m by omega)
  obtain ⟨hdm, -, hfirst⟩ := getUtilBin_eq_some.1 hd
  obtain ⟨r, hr, hrank⟩ := h.exists_rank hb
  have hle := getUtilBin_mono hd hrank (Nat.zero_le r) hr
  rwa [← hfirst.unique h (le_antisymm hle (hleast d hdm))]

end Rank

/-! ### One turn by rank -/

section Scan

variable {fuel : ℕ} {index : ℕ → ℕ → ℕ} {c : TaskCt} {k : Packing} {cand : ℕ → ℕ}

/-- The attempts on the open bins, from the `j`-th on: one of them admits the task, or one more bin
is opened. -/
theorem packByUtil_scan (hcheck : ∀ cpu, ∃ b,
      checkAdmissionPerCpu fuel c.budget c.period cpu k.st = .ok b)
    (hcand : ∀ i < k.currentBins,
      getUtilBin k.st.cpuUtil (index k.currentBins i) k.currentBins = some (cand i))
    (hmax : k.currentBins ≤ maxBins) {j l : ℕ} (hl : j + (l + 1) = k.currentBins) (n : ℕ) :
    (∃ i, j ≤ i ∧ i < k.currentBins ∧ Accepts fuel c k (cand i) ∧
      (∀ i', j ≤ i' → i' < i → Refuses fuel c k (cand i')) ∧
      packByUtil fuel index c (n + (l + 1)) j k =
        place fuel c (cand i) k >>= fun k' => pure (k', true)) ∨
    (∀ i, j ≤ i → i < k.currentBins → Refuses fuel c k (cand i)) ∧
      packByUtil fuel index c (n + (l + 1)) j k =
        if k.currentBins + 1 > maxBins then
          pure ({ k with currentBins := k.currentBins + 1 }, false)
        else packByUtil fuel index c n k.currentBins
          { k with currentBins := k.currentBins + 1 } := by
  induction l generalizing j with
  | zero =>
    obtain ⟨b, hb⟩ := hcheck (cand j)
    rw [packByUtil, hcand j (by omega)]
    simp only [hb, ok_bind]
    cases b with
    | true => exact Or.inl ⟨j, le_rfl, by omega, hb, fun i' h1 h2 => by omega, rfl⟩
    | false =>
      refine Or.inr ⟨fun i h1 h2 => ?_, ?_⟩
      · obtain rfl : i = j := by omega
        exact hb
      · have hj : j + 1 = k.currentBins := hl
        simp only [Bool.false_eq_true, if_false, hj, if_true]
  | succ l ih =>
    obtain ⟨b, hb⟩ := hcheck (cand j)
    rw [show n + (l + 1 + 1) = n + (l + 1) + 1 from rfl, packByUtil, hcand j (by omega)]
    simp only [hb, ok_bind]
    cases b with
    | true => exact Or.inl ⟨j, le_rfl, by omega, hb, fun i' h1 h2 => by omega, rfl⟩
    | false =>
      have hj : j + 1 ≠ k.currentBins := by omega
      simp only [Bool.false_eq_true, if_false, hj, not_lt.2 hmax]
      -- the `j`-th attempt joins those that fail
      have hfrom : ∀ i, j ≤ i → (j + 1 ≤ i → Refuses fuel c k (cand i)) →
          Refuses fuel c k (cand i) := by
        intro i hi hrest
        rcases Nat.eq_or_lt_of_le hi with rfl | hlt
        · exact hb
        · exact hrest hlt
      rcases ih (j := j + 1) (by omega) with ⟨i, hji, hi, hacc, href, heq⟩ | ⟨href, heq⟩
      · exact Or.inl ⟨i, by omega, hi, hacc, fun i' h1 h2 => hfrom i' h1 fun h => href i' h h2, heq⟩
      · exact Or.inr ⟨fun i h1 h2 => hfrom i h1 fun h => href i h h2, heq⟩

/-- If the rank that is tried for every newly opened bin denotes one CPU, which refuses, the bins
run out. -/
theorem packByUtil_stuck (index : ℕ → ℕ → ℕ) {z : ℕ}
    (hz : ∀ m, k.currentBins ≤ m → m ≤ maxBins → getUtilBin k.st.cpuUtil (index m (m - 1)) m = some z)
    (hrefuse : Refuses fuel c k z) {n : ℕ} (hmax : k.currentBins ≤ maxBins)
    (hpos : 0 < k.currentBins) (hn : maxBins < n + k.currentBins) :
    ∃ k', packByUtil fuel index c n (k.currentBins - 1) k = .ok (k', false) := by
  induction n generalizing k with
  | zero => omega
  | succ n ih =>
    have hb : checkAdmissionPerCpu fuel c.budget c.period z k.st = .ok false := hrefuse
    have hj : k.currentBins - 1 + 1 = k.currentBins := by omega
    rw [packByUtil, hz k.currentBins le_rfl hmax]
    simp only [hb, ok_bind, Bool.false_eq_true, if_false, hj, if_true]
    by_cases hroom : k.currentBins + 1 > maxBins
    · exact ⟨_, if_pos hroom⟩
    · rw [if_neg hroom]
      exact ih (k := { k with currentBins := k.currentBins + 1 })
        (fun m h1 h2 => hz m (by dsimp only at h1; omega) h2) hrefuse (by dsimp only; omega)
        (Nat.succ_pos _) (by dsimp only; omega)

end Scan

/-- What is left of each CPU. -/
def utilsLeft (s : KState) (cl : ℕ → List Tid) (cpu : ℕ) : ℤ := utilLeft s (cl cpu)

/-- What a turn by rank does, `better` being the order of the attempts: the best of the foremost CPUs
that admit the task gets it.  If all refuse, a bin is opened, unless a CPU in use has everything
left: that one is then tried in the place of the new bin. -/
inductive RankTurn (better : ℤ → ℤ → Prop) (s : KState) (list : List Tid) (c : TaskCt)
    (rem : List TaskCt) (k : Packing) (cl : ℕ → List Tid) : Packing × Bool → Prop
  | picked {b : ℕ} {k' : Packing} (hb : b < k.currentBins) (hfirst : Foremost (utilsLeft s cl) b)
      (hadm : Admits s (cl b) c)
      (hbest : ∀ d < k.currentBins, Foremost (utilsLeft s cl) d → Admits s (cl d) c →
        better (utilsLeft s cl b) (utilsLeft s cl d))
      (hL : Loaded s list k' (put s cl c.task b) rem) (hbins : k'.currentBins = k.currentBins) :
      RankTurn better s list c rem k cl (k', true)
  | opened {k' : Packing} (hrefuse : ∀ d < k.currentBins, Foremost (utilsLeft s cl) d →
        ¬ Admits s (cl d) c)
      (hroom : k.currentBins < maxBins) (hused : ∀ d < k.currentBins, utilsLeft s cl d ≠ 1000)
      (hL : Loaded s list k' (put s cl c.task k.currentBins) rem)
      (hbins : k'.currentBins = k.currentBins + 1) : RankTurn better s list c rem k cl (k', true)
  | full {k' : Packing} (hrefuse : ∀ d < k.currentBins, Foremost (utilsLeft s cl) d →
        ¬ Admits s (cl d) c)
      (hfull : k.currentBins < maxBins → ∃ d < k.currentBins, utilsLeft s cl d = 1000) :
      RankTurn better s list c rem k cl (k', false)

section ByRank

variable {s : KState} {list : List Tid} {fuel : ℕ} {k : Packing} {cl : ℕ → List Tid}
  {c : TaskCt} {rem : List TaskCt} (hres : ∀ t ∈ list, Unscaled (s.task t))
  (hfuel : Ample s list fuel)

/-- The ranks, in terms of what the lists leave. -/
theorem Loaded.getUtilBin_eq (h : Loaded s list k cl rem) {m : ℕ} (hm : m ≤ maxBins) (r : ℕ) :
    getUtilBin k.st.cpuUtil r m = getUtilBin (utilsLeft s cl) r m :=
  getUtilBin_congr (fun d hd => h.util d (by omega)) r

include hres hfuel in
/-- The attempts on the open bins, in either direction. -/
theorem Loaded.scan (index : ℕ → ℕ → ℕ) (better : ℤ → ℤ → Prop) {n : ℕ}
    (h : Loaded s list k cl (c :: rem)) (hindex : ∀ i < k.currentBins,
      index k.currentBins i < k.currentBins)
    (hsurj : ∀ r < k.currentBins, ∃ i < k.currentBins, index k.currentBins i = r)
    (hbetter : ∀ i j b d, i ≤ j → j < k.currentBins →
      getUtilBin (utilsLeft s cl) (index k.currentBins i) k.currentBins = some b →
      getUtilBin (utilsLeft s cl) (index k.currentBins j) k.currentBins = some d →
      better (utilsLeft s cl b) (utilsLeft s cl d)) (hn : k.currentBins ≤ n) :
    (∃ x, packByUtil fuel index c n 0 k = .ok x ∧ x.2 = true ∧
      RankTurn better s list c rem k cl x ∧ x.1.currentBins = k.currentBins) ∨
    (∀ d < k.currentBins, Foremost (utilsLeft s cl) d → ¬ Admits s (cl d) c) ∧
      packByUtil fuel index c n 0 k =
        if k.currentBins + 1 > maxBins then
          pure ({ k with currentBins := k.currentBins + 1 }, false)
        else packByUtil fuel index c (n - k.currentBins) k.currentBins
          { k with currentBins := k.currentBins + 1 } := by
  have hopen := h.opened.prev
  have hmax := h.opened.max
  have hex : ∀ i, ∃ b, i < k.currentBins →
      getUtilBin (utilsLeft s cl) (index k.currentBins i) k.currentBins = some b := by
    intro i
    by_cases hi : i < k.currentBins
    · obtain ⟨b, hb⟩ := exists_getUtilBin (utilsLeft s cl) (hindex i hi)
      exact ⟨b, fun _ => hb⟩
    · exact ⟨0, fun h => absurd h hi⟩
  choose cand hcand using hex
  have hcode : ∀ i < k.currentBins,
      getUtilBin k.st.cpuUtil (index k.currentBins i) k.currentBins = some (cand i) := by
    intro i hi
    rw [h.getUtilBin_eq hmax]
    exact hcand i hi
  -- every foremost CPU is one of the attempts
  have hattempt : ∀ d < k.currentBins, Foremost (utilsLeft s cl) d →
      ∃ i < k.currentBins, cand i = d := by
    intro d hd hfirst
    obtain ⟨r, hr, hrank⟩ := hfirst.exists_rank hd
    obtain ⟨i, hi, rfl⟩ := hsurj r hr
    have heq := (hcand i hi).symm.trans hrank
    exact ⟨i, hi, Option.some.inj heq⟩
  obtain ⟨l, hl⟩ : ∃ l, 0 + (l + 1) = k.currentBins := ⟨k.currentBins - 1, by omega⟩
  have hscan := packByUtil_scan (h.check hres hfuel) hcode hmax hl (n - k.currentBins)
  rw [show n - k.currentBins + (l + 1) = n by omega] at hscan
  rcases hscan with ⟨i, -, hi, hacc, href, heq⟩ | ⟨href, heq⟩
  · have hb := getUtilBin_eq_some.1 (hcand i hi)
    obtain ⟨k', hplace, hL, hbins⟩ := h.place hfuel rfl h.opened le_rfl hb.1
    refine Or.inl ⟨(k', true), heq.trans (bind_eq_ok.2 ⟨k', hplace, rfl⟩), rfl, ?_, hbins⟩
    refine .picked hb.1 hb.2.2 ((h.accepts_iff hres hfuel).1 hacc) (fun d hd hfirst hadm => ?_) hL
      hbins
    obtain ⟨j, hj, rfl⟩ := hattempt d hd hfirst
    refine hbetter i j _ _ ?_ hj (hcand i hi) (hcand j hj)
    by_contra hlt
    exact (h.refuses_iff hres hfuel).1 (href j (Nat.zero_le j) (not_le.1 hlt)) hadm
  · refine Or.inr ⟨fun d hd hfirst => ?_, heq⟩
    obtain ⟨j, hj, rfl⟩ := hattempt d hd hfirst
    exact (h.refuses_iff hres hfuel).1 (href j (Nat.zero_le j) hj)

theorem Loaded.utilsLeft_fresh (h : Loaded s list k cl rem) {d : ℕ} (hd : k.currentBins ≤ d) :
    utilsLeft s cl d = 1000 := by
  rw [utilsLeft, h.fresh d hd]
  rfl

theorem Foremost.exists_le {bins : ℕ → ℤ} {d : ℕ} {v : ℤ} (hd : bins d = v) :
    ∃ z ≤ d, bins z = v ∧ Foremost bins z := by
  induction d using Nat.strong_induction_on with
  | _ d ih =>
    by_cases hfirst : Foremost bins d
    · exact ⟨d, le_rfl, hd, hfirst⟩
    · simp only [Foremost, not_forall, not_not] at hfirst
      obtain ⟨i, hi, heq⟩ := hfirst
      obtain ⟨z, hz, hv, hf⟩ := ih i hi (heq.trans hd)
      exact ⟨z, hz.trans hi.le, hv, hf⟩

include hres hfuel in
/-- A turn of best fit. -/
theorem Loaded.bestFit (h : Loaded s list k cl (c :: rem)) :
    ∃ x, packOne fuel 2 c k = .ok x ∧ RankTurn (· ≤ ·) s list c rem k cl x := by
  have hturns := hfuel.turns
  have hmax := h.opened.max
  rcases h.scan hres hfuel (fun _ j => j) (· ≤ ·) (fun i hi => hi) (fun r hr => ⟨r, hr, rfl⟩)
    (fun i j b d hij hj hb hd => getUtilBin_mono hb hd hij hj)
    (show k.currentBins ≤ fuel by omega) with ⟨x, hx, -, hrank, -⟩ | ⟨hrefuse, heq⟩
  · exact ⟨x, hx, hrank⟩
  by_cases hroom : k.currentBins + 1 > maxBins
  · rw [if_pos hroom] at heq
    exact ⟨_, heq, .full hrefuse fun hlt => absurd hroom (by omega)⟩
  rw [if_neg hroom] at heq
  -- the last rank now denotes the foremost CPU that has everything left
  obtain ⟨z, hzle, hz, hfirst⟩ := Foremost.exists_le (h.utilsLeft_fresh le_rfl)
  have hrank : ∀ m, k.currentBins + 1 ≤ m → m ≤ maxBins →
      getUtilBin k.st.cpuUtil (m - 1) m = some z := by
    intro m hm hmmax
    rw [h.getUtilBin_eq hmmax]
    refine getUtilBin_last hfirst (by omega) fun d _ => ?_
    rw [hz]
    exact h.utilLeft_le hres d
  rcases Nat.eq_or_lt_of_le hzle with rfl | hlt
  · -- it is the new one, which admits the task
    have hacc : checkAdmissionPerCpu fuel c.budget c.period k.currentBins k.st = .ok true :=
      (h.accepts_iff hres hfuel).2 (h.admits_of_nil hres (h.fresh _ le_rfl))
    have hopened : Opened { k with currentBins := k.currentBins + 1 } :=
      (h.openBin (by omega)).opened
    obtain ⟨k', hplace, hL, hbins⟩ := h.place hfuel (by rfl) hopened (Nat.le_succ _)
      (Nat.lt_succ_self _)
    refine ⟨(k', true), heq.trans ?_, .opened hrefuse (by omega) (fun d hd => ?_) hL hbins⟩
    · obtain ⟨n, hn⟩ : ∃ n, fuel - k.currentBins = n + 1 := ⟨fuel - k.currentBins - 1, by omega⟩
      have hnew := hrank (k.currentBins + 1) le_rfl (by omega)
      rw [Nat.add_sub_cancel] at hnew
      rw [hn, packByUtil, hnew]
      simp only [hacc, ok_bind, if_true]
      exact bind_eq_ok.2 ⟨k', hplace, rfl⟩
    · rw [← hz]
      exact hfirst d hd
  · -- it is one that has refused already
    obtain ⟨k', hk'⟩ := packByUtil_stuck (fun _ j => j)
      (k := { k with currentBins := k.currentBins + 1 }) hrank
      ((h.refuses_iff hres hfuel).2 (hrefuse z hlt hfirst)) (n := fuel - k.currentBins)
      (by dsimp only; omega) (Nat.succ_pos _) (by dsimp only; omega)
    exact ⟨_, heq.trans hk', .full hrefuse fun _ => ⟨z, hlt, hz⟩⟩

include hres hfuel in
/-- A turn of worst fit over all four CPUs. -/
theorem Loaded.worstFitAll (h : Loaded s list k cl (c :: rem)) (hall : k.currentBins = maxBins) :
    ∃ x, packOne fuel 4 c k = .ok x ∧ RankTurn (· ≥ ·) s list c rem k cl x := by
  have hturns := hfuel.turns
  rcases h.scan hres hfuel (fun m j => m - 1 - j) (· ≥ ·)
    (fun i hi => by omega) (fun r hr => ⟨k.currentBins - 1 - r, by omega, by omega⟩)
    (fun i j b d hij hj hb hd => getUtilBin_mono hd hb (by omega) (by omega))
    (show k.currentBins ≤ fuel by omega) with ⟨x, hx, -, hrank, -⟩ | ⟨hrefuse, heq⟩
  · exact ⟨x, hx, hrank⟩
  · rw [if_pos (by omega)] at heq
    exact ⟨_, heq, .full hrefuse fun hlt => absurd hlt (by omega)⟩

include hres hfuel in
/-- A turn of worst fit while CPU 0 is the only open one.  If it refuses, every further attempt is
made on it again. -/
theorem Loaded.worstFit (h : Loaded s list k cl (c :: rem)) (hone : k.currentBins = 1) :
    ∃ x, packOne fuel 3 c k = .ok x ∧
      (Admits s (cl 0) c ∧ Loaded s list x.1 (put s cl c.task 0) rem ∧ x.1.currentBins = 1 ∧
        x.2 = true ∨ ¬ Admits s (cl 0) c ∧ x.2 = false) := by
  have hturns := hfuel.turns
  rcases h.scan hres hfuel (fun m j => m - 1 - j) (· ≥ ·)
    (fun i hi => by omega) (fun r hr => ⟨k.currentBins - 1 - r, by omega, by omega⟩)
    (fun i j b d hij hj hb hd => getUtilBin_mono hd hb (by omega) (by omega))
    (show k.currentBins ≤ fuel by omega) with ⟨x, hx, htrue, hrank, hbins⟩ | ⟨hrefuse, heq⟩
  · refine ⟨x, hx, Or.inl ?_⟩
    cases hrank with
    | @picked b k' hb hfirst hadm hbest hL hbins =>
      obtain rfl : b = 0 := by omega
      exact ⟨hadm, hL, hbins.trans hone, rfl⟩
    | opened hrefuse hroom hused hL hbins' =>
      dsimp only at hbins
      omega
    | full => cases htrue
  · have hfirst : Foremost (utilsLeft s cl) 0 := fun d hd => absurd hd (Nat.not_lt_zero d)
    have hnot := hrefuse 0 (by omega) hfirst
    have hroom : ¬ k.currentBins + 1 > maxBins := by
      rw [hone]
      decide
    rw [if_neg hroom] at heq
    have hrank : ∀ m, k.currentBins + 1 ≤ m → m ≤ maxBins →
        getUtilBin k.st.cpuUtil (m - 1 - (m - 1)) m = some 0 := by
      intro m hm hmmax
      rw [h.getUtilBin_eq hmmax, Nat.sub_self]
      refine getUtilBin_zero hfirst (by omega) fun d _ => ?_
      rcases Nat.eq_zero_or_pos d with rfl | hd
      · exact le_rfl
      · rw [h.utilsLeft_fresh (show k.currentBins ≤ d by omega)]
        exact h.utilLeft_le hres 0
    obtain ⟨k', hk'⟩ := packByUtil_stuck (fun m j => m - 1 - j)
      (k := { k with currentBins := k.currentBins + 1 }) hrank
      ((h.refuses_iff hres hfuel).2 hnot) (n := fuel - k.currentBins)
      (by dsimp only; omega) (Nat.succ_pos _) (by dsimp only; omega)
    exact ⟨_, heq.trans hk', Or.inr ⟨hnot, rfl⟩⟩

end ByRank

/-! ### Best fit and worst fit -/

/-- What a turn of a fit is to do when CPUs `0, …, m - 1` are open: the task goes to an open CPU that
admits it, the best of them by what is left; if there is none, to a new CPU; and it is given up only
if all four CPUs refuse it. -/
def FitTurn (better : ℤ → ℤ → Prop) (m fuel : ℕ) (c : TaskCt) (k : Packing) (x : Packing × Bool) :
    Prop :=
  (∃ cpu < m, Accepts fuel c k cpu ∧
    (∀ d < m, Accepts fuel c k d → better (k.st.cpuUtil cpu) (k.st.cpuUtil d)) ∧
    PutOn c cpu k x.1 ∧ x.1.currentBins = m ∧ x.2 = true) ∨
  ((∀ d < m, Refuses fuel c k d) ∧ m < maxBins ∧ Accepts fuel c k m ∧ PutOn c m k x.1 ∧
    x.1.currentBins = m + 1 ∧ x.2 = true) ∨
  (∀ d < maxBins, Refuses fuel c k d) ∧ x.2 = false

/-- A packing of `list` by decreasing utilisation in which every turn meets `P`.  A turn with outcome
`false` is the `return 0`, next to the one for an empty list. -/
structure FitsAs (P : TaskCt → Packing → Packing × Bool → Prop) (fuel scheme : ℕ) (s : KState)
    (list : List Tid) : Prop where
  order : list ≠ [] → sortPeriodicTasklist fuel s = .ok (utilOrder s list)
  decreasing : (utilOrder s list).Pairwise fun a b => b.util ≤ a.util
  turns : ∀ c k x, PackTurn fuel scheme s list c k x → P c k x
  result : ∃ s' bins, binPacking fuel scheme s = .ok (s', bins) ∧
    (bins = 0 ↔ list = [] ∨ ∃ c k x, PackTurn fuel scheme s list c k x ∧ x.2 = false)

section Fits

variable {s : KState} {list : List Tid} {fuel scheme : ℕ} {k k' : Packing} {cl : ℕ → List Tid}
  {c : TaskCt} {rem : List TaskCt} {better : ℤ → ℤ → Prop}

/-- All but the turns is so in every call that comes back. -/
theorem fitsAs_iff {P : TaskCt → Packing → Packing × Bool → Prop} (hk : Kept s list)
    (hfuel : Ample s list fuel) {x : Packing × Bool}
    (hx : packAll fuel scheme (utilOrder s list) (packStart scheme s) = .ok x)
    (hopen : x.2 = true → 0 < x.1.currentBins) :
    FitsAs P fuel scheme s list ↔ ∀ c k x, PackTurn fuel scheme s list c k x → P c k x := by
  refine ⟨fun h => h.turns, fun h => ?_⟩
  have hlen : list.length < fuel := by
    have := hfuel.turns
    omega
  refine ⟨fun hne => sortPeriodicTasklist_returns hk hne hlen, utilOrder_sorted s list, h, ?_⟩
  by_cases hne : list = []
  · subst hne
    exact ⟨s, 0, binPacking_empty hk, iff_of_true rfl (Or.inl rfl)⟩
  · refine ⟨_, _, binPacking_returns hk hne (sortPeriodicTasklist_returns hk hne hlen) hx, ?_⟩
    rw [or_iff_right hne, bins_eq_zero_iff hopen]
    exact packAll_eq_false_iff hx

variable (hres : ∀ t ∈ list, Unscaled (s.task t)) (hfuel : Ample s list fuel)

include hres hfuel in
theorem fitTurn_picked (h : Loaded s list k cl (c :: rem)) {b : ℕ} (hb : b < k.currentBins)
    (hadm : Admits s (cl b) c) (hL : Loaded s list k' (put s cl c.task b) rem)
    (hbins : k'.currentBins = k.currentBins) :
    FitTurn better k.currentBins fuel c k (k', true) ↔
      ∀ d < k.currentBins, Admits s (cl d) c → better (utilsLeft s cl b) (utilsLeft s cl d) := by
  have hmax := h.opened.max
  have hutil : ∀ d < k.currentBins, k.st.cpuUtil d = utilsLeft s cl d :=
    fun d hd => h.util d (by omega)
  constructor
  · rintro (⟨cpu, hcpu, -, hbest, hput, -⟩ | ⟨-, -, -, hput, -⟩ | ⟨-, hfalse⟩) d hd hd'
    · obtain rfl := h.putOn_unique hL hput
      rw [← hutil cpu hb, ← hutil d hd]
      exact hbest d hd ((h.accepts_iff hres hfuel).2 hd')
    · have heq := h.putOn_unique hL hput
      omega
    · cases hfalse
  · intro hbest
    refine Or.inl ⟨b, hb, (h.accepts_iff hres hfuel).2 hadm, fun d hd hacc => ?_, h.putOn hL, hbins,
      rfl⟩
    rw [hutil b hb, hutil d hd]
    exact hbest d hd ((h.accepts_iff hres hfuel).1 hacc)

include hres hfuel in
theorem fitTurn_opened (h : Loaded s list k cl (c :: rem)) (hroom : k.currentBins < maxBins)
    (hL : Loaded s list k' (put s cl c.task k.currentBins) rem)
    (hbins : k'.currentBins = k.currentBins + 1) :
    FitTurn better k.currentBins fuel c k (k', true) ↔
      ∀ d < k.currentBins, ¬ Admits s (cl d) c := by
  constructor
  · rintro (⟨cpu, hcpu, -, -, hput, -⟩ | ⟨hrefuse, -⟩ | ⟨-, hfalse⟩) d hd
    · have heq := h.putOn_unique hL hput
      omega
    · exact (h.refuses_iff hres hfuel).1 (hrefuse d hd)
    · cases hfalse
  · intro hrefuse
    refine Or.inr (Or.inl ⟨fun d hd => (h.refuses_iff hres hfuel).2 (hrefuse d hd), hroom,
      (h.accepts_iff hres hfuel).2 ?_, h.putOn hL, hbins, rfl⟩)
    exact h.admits_of_nil hres (h.fresh _ le_rfl)

include hres hfuel in
theorem fitTurn_full (h : Loaded s list k cl (c :: rem)) (m : ℕ) :
    FitTurn better m fuel c k (k', false) ↔ ∀ d < maxBins, ¬ Admits s (cl d) c := by
  constructor
  · rintro (⟨-, -, -, -, -, -, htrue⟩ | ⟨-, -, -, -, -, htrue⟩ | ⟨hrefuse, -⟩) d hd
    · cases htrue
    · cases htrue
    · exact (h.refuses_iff hres hfuel).1 (hrefuse d hd)
  · intro hrefuse
    exact Or.inr (Or.inr ⟨fun d hd => (h.refuses_iff hres hfuel).2 (hrefuse d hd), rfl⟩)

/-- The tasks `rem`, packed one after the other from the lists `cl` with `m` CPUs open, never need a
CPU that has as much left as a CPU in front of it.  If an open CPU admits the task, of those with the
best remaining capacity one is foremost; if none does and a CPU is opened, no open CPU has everything
left. -/
def RankFits (better : ℤ → ℤ → Prop) (s : KState) : (ℕ → List Tid) → ℕ → List TaskCt → Prop
  | _, _, [] => True
  | cl, m, c :: rem =>
      (∃ cpu < m, Foremost (utilsLeft s cl) cpu ∧ Admits s (cl cpu) c ∧
        (∀ d < m, Admits s (cl d) c → better (utilsLeft s cl cpu) (utilsLeft s cl d)) ∧
        RankFits better s (put s cl c.task cpu) m rem) ∨
      (∀ d < m, ¬ Admits s (cl d) c) ∧
        (m < maxBins → (∀ d < m, utilsLeft s cl d ≠ 1000) ∧
          RankFits better s (put s cl c.task m) (m + 1) rem)

include hres hfuel in
/-- The turns by rank are those of the fit exactly when the foremost CPUs are enough. -/
theorem rank_turns_iff (hanti : ∀ a b, better a b → better b a → a = b) {B : ℕ → Prop}
    (hB : ∀ m, B m → m < maxBins → B (m + 1))
    (hturn : ∀ k cl c rem, Loaded s list k cl (c :: rem) → B k.currentBins →
      ∃ x, packOne fuel scheme c k = .ok x ∧ RankTurn better s list c rem k cl x)
    (h : Loaded s list k cl rem) (hbins : B k.currentBins) :
    (∀ c k₁ x, Turn fuel scheme c k₁ x rem k → FitTurn better k₁.currentBins fuel c k₁ x) ↔
      RankFits better s cl k.currentBins rem := by
  induction rem generalizing k cl with
  | nil => exact iff_of_true (fun c k₁ x hturn => nomatch hturn) trivial
  | cons c rem ih =>
    obtain ⟨x, hx, hrank⟩ := hturn k cl c rem h hbins
    rw [forall_turn_cons hx, RankFits]
    cases hrank with
    | @picked b k' hb hfirst hadm hbest hL hsame =>
      have hrest := ih hL (hsame ▸ hbins)
      rw [hsame] at hrest
      rw [fitTurn_picked hres hfuel h hb hadm hL hsame, hrest]
      constructor
      · exact fun ⟨hall, hnext⟩ => Or.inl ⟨b, hb, hfirst, hadm, hall, hnext rfl⟩
      · rintro (⟨cpu, hcpu, hfirst', hadm', hall, hnext⟩ | ⟨hnone, -⟩)
        · -- two foremost CPUs with the same left are one
          obtain rfl := hfirst.unique hfirst'
            (hanti _ _ (hbest cpu hcpu hfirst' hadm') (hall b hb hadm))
          exact ⟨hall, fun _ => hnext⟩
        · exact absurd hadm (hnone b hb)
    | @opened k' hrefuse hroom hused hL hmore =>
      have hrest := ih hL (hmore ▸ hB _ hbins hroom)
      rw [hmore] at hrest
      rw [fitTurn_opened hres hfuel h hroom hL hmore, hrest]
      constructor
      · exact fun ⟨hnone, hnext⟩ => Or.inr ⟨hnone, fun _ => ⟨hused, hnext rfl⟩⟩
      · rintro (⟨cpu, hcpu, hfirst, hadm, -⟩ | ⟨hnone, hnext⟩)
        · exact absurd hadm (hrefuse cpu hcpu hfirst)
        · exact ⟨hnone, fun _ => (hnext hroom).2⟩
    | @full k' hrefuse hfull =>
      rw [fitTurn_full hres hfuel h]
      constructor
      · rintro ⟨hnone, -⟩
        refine Or.inr ⟨fun d hd => hnone d (lt_of_lt_of_le hd h.opened.max), fun hroom => ?_⟩
        -- a CPU that is still closed would have admitted the task
        exact absurd (h.admits_of_nil hres (h.fresh _ le_rfl)) (hnone _ hroom)
      · rintro (⟨cpu, hcpu, hfirst, hadm, -⟩ | ⟨hnone, hnext⟩)
        · exact absurd hadm (hrefuse cpu hcpu hfirst)
        · have hmax := h.opened.max
          have hall : ¬ k.currentBins < maxBins := by
            intro hroom
            obtain ⟨d, hd, heq⟩ := hfull hroom
            exact (hnext hroom).1 d hd heq
          exact ⟨fun d hd => hnone d (by omega), fun htrue => nomatch htrue⟩

/-- A turn by rank that places its task leaves a packing to go on with. -/
theorem RankTurn.next {B : ℕ → Prop} (hB : ∀ m, B m → m < maxBins → B (m + 1))
    {x : Packing × Bool} (hr : RankTurn better s list c rem k cl x) (hbins : B k.currentBins)
    (htrue : x.2 = true) : ∃ cl', Loaded s list x.1 cl' rem ∧ B x.1.currentBins := by
  cases hr with
  | @picked b k' hb hfirst hadm hbest hL hsame =>
    refine ⟨_, hL, ?_⟩
    dsimp only
    rwa [hsame]
  | @opened k' hrefuse hroom hused hL hmore =>
    refine ⟨_, hL, ?_⟩
    dsimp only
    rw [hmore]
    exact hB _ hbins hroom
  | full => cases htrue

include hres hfuel in
/-- A whole packing by rank. -/
theorem fitsAs_rank_iff (hk : Kept s list) (hc : Cleared s)
    (hanti : ∀ a b, better a b → better b a → a = b) {B : ℕ → Prop}
    (hB : ∀ m, B m → m < maxBins → B (m + 1))
    (hturn : ∀ k cl c rem, Loaded s list k cl (c :: rem) → B k.currentBins →
      ∃ x, packOne fuel scheme c k = .ok x ∧ RankTurn better s list c rem k cl x)
    (hbins : B (packStart scheme s).currentBins) {m : Packing → ℕ}
    (hm : ∀ k, B k.currentBins → m k = k.currentBins) :
    FitsAs (fun c k x => FitTurn better (m k) fuel c k x) fuel scheme s list ↔
      RankFits better s (fun _ => []) (packStart scheme s).currentBins (utilOrder s list) := by
  have hstart := loaded_start hk hc scheme
  have hstep : ∀ c rem k cl, (Loaded s list k cl (c :: rem) ∧ B k.currentBins) →
      ∃ x, packOne fuel scheme c k = .ok x ∧
        (x.2 = true → ∃ cl', Loaded s list x.1 cl' rem ∧ B x.1.currentBins) := by
    rintro c rem k cl ⟨h, hb⟩
    obtain ⟨x, hx, hrank⟩ := hturn k cl c rem h hb
    exact ⟨x, hx, hrank.next hB hb⟩
  obtain ⟨x, hx, hend⟩ := packAll_returns (I := fun k cl rem => Loaded s list k cl rem ∧
    B k.currentBins) hstep ⟨hstart, hbins⟩
  have hopen : x.2 = true → 0 < x.1.currentBins := by
    intro htrue
    obtain ⟨cl, h, -⟩ := hend htrue
    exact Nat.zero_lt_of_lt h.opened.prev
  rw [fitsAs_iff hk hfuel hx hopen, ← rank_turns_iff hres hfuel hanti hB hturn hstart hbins]
  refine forall_congr' fun c => forall_congr' fun k => forall_congr' fun y => ?_
  refine imp_congr_right fun hturn' => ?_
  obtain ⟨cl, rem, -, hb⟩ := Turn.inv (I := fun k cl rem => Loaded s list k cl rem ∧
    B k.currentBins) hstep hturn' ⟨hstart, hbins⟩
  rw [hm k hb]

include hres hfuel in
theorem fitsAs_best_iff (hk : Kept s list) (hc : Cleared s) :
    FitsAs (fun c k x => FitTurn (· ≤ ·) k.currentBins fuel c k x) fuel 2 s list ↔
      RankFits (· ≤ ·) s (fun _ => []) 1 (utilOrder s list) :=
  fitsAs_rank_iff (B := fun _ => True) (m := Packing.currentBins) hres hfuel hk hc
    (fun _ _ => le_antisymm) (fun _ _ _ => trivial) (fun _ _ _ _ h _ => h.bestFit hres hfuel) trivial
    fun _ _ => rfl

include hres hfuel in
theorem fitsAs_worstAll_iff (hk : Kept s list) (hc : Cleared s) :
    FitsAs (fun c k x => FitTurn (· ≥ ·) maxBins fuel c k x) fuel 4 s list ↔
      RankFits (· ≥ ·) s (fun _ => []) maxBins (utilOrder s list) :=
  fitsAs_rank_iff (B := fun m => m = maxBins) (m := fun _ => maxBins) hres hfuel hk hc
    (fun _ _ h h' => le_antisymm h' h) (fun _ hm hlt => absurd hm hlt.ne)
    (fun _ _ _ _ h hall => h.worstFitAll hres hfuel hall) rfl fun _ h => h.symm

include hres hfuel in
/-- With scheme 3 all turns are taken with only CPU 0 open. -/
theorem worst_turns_iff (h : Loaded s list k cl rem) (hone : k.currentBins = 1) :
    (∀ c k₁ x, Turn fuel 3 c k₁ x rem k → FitTurn (· ≥ ·) k₁.currentBins fuel c k₁ x) ↔
      AllAdmitted s (cl 0) rem := by
  induction rem generalizing k cl with
  | nil =>
    refine iff_of_true (fun c k₁ x hturn => ?_) trivial
    cases hturn
  | cons c rem ih =>
    obtain ⟨⟨k', fits⟩, hx, hcases⟩ := h.worstFit hres hfuel hone
    rw [forall_turn_cons hx, AllAdmitted]
    rcases hcases with ⟨hadm, hL, hone', rfl⟩ | ⟨hnot, rfl⟩
    · have hrest := ih hL hone'
      have hcl : put s cl c.task 0 0 = insertByPeriod s.periods c.task (cl 0) :=
        Function.update_self ..
      rw [hcl] at hrest
      rw [fitTurn_picked hres hfuel h (show 0 < k.currentBins by omega) hadm hL
        (hone'.trans hone.symm), hrest]
      constructor
      · rintro ⟨-, hnext⟩
        exact ⟨hadm, hnext rfl⟩
      · rintro ⟨-, hnext⟩
        refine ⟨fun d hd _ => ?_, fun _ => hnext⟩
        obtain rfl : d = 0 := by omega
        exact le_rfl
    · rw [fitTurn_full hres hfuel h]
      apply iff_of_false
      · -- CPU 1 is empty
        rintro ⟨hnone, -⟩
        exact hnone 1 (by decide) (h.admits_of_nil hres (h.fresh 1 hone.le))
      · rintro ⟨hadm, -⟩
        exact hnot hadm

include hres hfuel in
theorem fitsAs_worst_iff (hk : Kept s list) (hc : Cleared s) :
    FitsAs (fun c k x => FitTurn (· ≥ ·) k.currentBins fuel c k x) fuel 3 s list ↔
      AllAdmitted s [] (utilOrder s list) := by
  have hstart := loaded_start hk hc 3
  have hone : (packStart 3 s).currentBins = 1 := rfl
  have hstep : ∀ c rem k cl, (Loaded s list k cl (c :: rem) ∧ k.currentBins = 1) →
      ∃ x, packOne fuel 3 c k = .ok x ∧
        (x.2 = true → ∃ cl', Loaded s list x.1 cl' rem ∧ x.1.currentBins = 1) := by
    rintro c rem k cl ⟨h, hone⟩
    obtain ⟨x, hx, ⟨-, hL, hone', -⟩ | ⟨-, hfalse⟩⟩ := h.worstFit hres hfuel hone
    · exact ⟨x, hx, fun _ => ⟨_, hL, hone'⟩⟩
    · refine ⟨x, hx, fun htrue => ?_⟩
      rw [hfalse] at htrue
      cases htrue
  obtain ⟨x, hx, hend⟩ := packAll_returns (I := fun k cl rem => Loaded s list k cl rem ∧
    k.currentBins = 1) hstep ⟨hstart, hone⟩
  have hopen : x.2 = true → 0 < x.1.currentBins := by
    intro htrue
    obtain ⟨cl, h, -⟩ := hend htrue
    exact Nat.zero_lt_of_lt h.opened.prev
  rw [fitsAs_iff hk hfuel hx hopen]
  exact worst_turns_iff hres hfuel hstart hone

end Fits

/-! ### The schemes -/

section Schemes

variable {s : KState} {list : List Tid}

/-- What holds with ample fuel or not at all. -/
theorem exists_ample_iff {A : ℕ → Prop} {B : Prop} (h : ∀ fuel, Ample s list fuel → (A fuel ↔ B)) :
    (∃ n, ∀ fuel, n ≤ fuel → A fuel) ↔ B := by
  obtain ⟨n₀, hn₀⟩ := exists_ample s list
  constructor
  · rintro ⟨n, hn⟩
    exact (h _ (hn₀ _ (le_max_right n n₀))).1 (hn _ (le_max_left n n₀))
  · exact fun hB => ⟨n₀, fun fuel hf => (h fuel (hn₀ fuel hf)).2 hB⟩

/-- Worst fit from one CPU: the open CPU with the most left. -/
def WorstFits (s : KState) (list : List Tid) : Prop :=
  ∃ n, ∀ fuel, n ≤ fuel →
    FitsAs (fun c k x => FitTurn (· ≥ ·) k.currentBins fuel c k x) fuel 3 s list

/-- Best fit: the open CPU with the least left. -/
def BestFits (s : KState) (list : List Tid) : Prop :=
  ∃ n, ∀ fuel, n ≤ fuel →
    FitsAs (fun c k x => FitTurn (· ≤ ·) k.currentBins fuel c k x) fuel 2 s list

/-- Worst fit over all four CPUs. -/
def WorstFitsAll (s : KState) (list : List Tid) : Prop :=
  ∃ n, ∀ fuel, n ≤ fuel → FitsAs (fun c k x => FitTurn (· ≥ ·) maxBins fuel c k x) fuel 4 s list

/-- The test of an empty CPU. -/
theorem admits_nil_iff {c : TaskCt} :
    Admits s [] c ↔ (c.budget * scaleUpFactor).tdiv c.period ≤ 1000 := by
  rw [Admits, if_pos rfl]

/-- The test, run on a CPU in use. -/
theorem admits_iff_of_check {bin : List Tid} {c : TaskCt} {n : ℕ} {v : Bool} (hne : bin ≠ [])
    (h : checkAdmissionList n (insertCt { budget := c.budget, period := c.period }
      (bin.map (cpuCtOf s))) (bin.length + 1) = some v) : Admits s bin c ↔ v = true := by
  have hlen : (insertCt { budget := c.budget, period := c.period }
      (bin.map (cpuCtOf s))).length = bin.length + 1 := by
    rw [insertCt, List.orderedInsert_length, List.length_map]
  rw [← hlen] at h
  rw [Admits, if_neg hne, checkAdmissionList_passes h]

/-- **Worst fit never gets past CPU 0.**  Scheme 3 is worst fit exactly for the lists whose tasks all
fit on CPU 0. -/
theorem binPacking_worstFit_iff (hk : Kept s list) (hc : Cleared s)
    (hres : ∀ t ∈ list, Unscaled (s.task t)) :
    WorstFits s list ↔ AllAdmitted s [] (utilOrder s list) :=
  exists_ample_iff fun _ hfuel => fitsAs_worst_iff hres hfuel hk hc

/-- Two tasks of 300 ms in 1 s. -/
theorem binPacking_worstFit_iff_pair :
    WorstFits (listed 2 (fun _ => ⟨0, 300000000⟩) fun _ => ⟨1, 0⟩) [1, 2] := by
  refine (binPacking_worstFit_iff (by decide) (listed_cleared _ _ _) (by decide)).2
    ⟨admits_nil_iff.2 (by decide), ?_, trivial⟩
  exact (admits_iff_of_check (n := 10) (by decide) (by decide)).2 rfl

/-- Of two tasks of 600 ms in 1 s the second is refused, with three CPUs empty. -/
theorem binPacking_worstFit_stuck :
    ¬ ∀ (s : KState) (list : List Tid), Kept s list → Cleared s →
      (∀ t ∈ list, Unscaled (s.task t)) → WorstFits s list := by
  intro hall
  obtain ⟨n, hn⟩ := hall (listed 2 (fun _ => ⟨0, 600000000⟩) fun _ => ⟨1, 0⟩) [1, 2] (by decide)
    (listed_cleared _ _ _) (by decide)
  obtain ⟨n₀, hn₀⟩ := exists_ample (listed 2 (fun _ => ⟨0, 600000000⟩) fun _ => ⟨1, 0⟩) [1, 2]
  have hadm := (fitsAs_worst_iff (by decide) (hn₀ _ (le_max_right n n₀)) (by decide)
    (listed_cleared _ _ _)).1 (hn _ (le_max_left n n₀))
  have hsecond := hadm.2.1
  rw [admits_iff_of_check (v := false) (n := 10) (by decide) (by decide)] at hsecond
  exact Bool.false_ne_true hsecond

/-- **Best fit and worst fit by rank.**  Scheme 2 is best fit, and scheme 4 worst fit, exactly when
the turn never comes to a CPU that has as much left as one in front of it. -/
theorem binPacking_byRank_iff (hk : Kept s list) (hc : Cleared s)
    (hres : ∀ t ∈ list, Unscaled (s.task t)) :
    (BestFits s list ↔ RankFits (· ≤ ·) s (fun _ => []) 1 (utilOrder s list)) ∧
    (WorstFitsAll s list ↔ RankFits (· ≥ ·) s (fun _ => []) maxBins (utilOrder s list)) :=
  ⟨exists_ample_iff fun _ hfuel => fitsAs_best_iff hres hfuel hk hc,
    exists_ample_iff fun _ hfuel => fitsAs_worstAll_iff hres hfuel hk hc⟩

/-- Two tasks of 600 ms in 1 s, which get a CPU each. -/
theorem binPacking_byRank_iff_pair :
    BestFits (listed 2 (fun _ => ⟨0, 600000000⟩) fun _ => ⟨1, 0⟩) [1, 2] ∧
      WorstFitsAll (listed 2 (fun _ => ⟨0, 600000000⟩) fun _ => ⟨1, 0⟩) [1, 2] := by
  set s : KState := listed 2 (fun _ => ⟨0, 600000000⟩) fun _ => ⟨1, 0⟩ with hs
  have hempty : ∀ t : Tid, Admits s [] (utilCt s t) := fun t =>
    admits_nil_iff.2 (show (600000 * scaleUpFactor).tdiv 1000000 ≤ 1000 by decide)
  have hrefuse : ¬ Admits s [1] (utilCt s 2) := by
    rw [admits_iff_of_check (v := false) (n := 10) (by decide) (by decide)]
    exact Bool.false_ne_true
  have hfirst : ∀ bins, Foremost bins 0 := fun _ d hd => absurd hd (Nat.not_lt_zero d)
  obtain ⟨hbest, hworst⟩ := binPacking_byRank_iff (show Kept s [1, 2] by decide)
    (listed_cleared _ _ _) (by decide)
  refine ⟨hbest.2 (Or.inl ⟨0, by decide, hfirst _, hempty 1, ?_, Or.inr ⟨?_, fun _ => ⟨?_, trivial⟩⟩⟩),
    hworst.2 (Or.inl ⟨0, by decide, hfirst _, hempty 1, ?_, Or.inl ⟨1, by decide, ?_, hempty 2, ?_,
      trivial⟩⟩)⟩
  · exact fun d _ _ => le_rfl
  · intro d hd
    obtain rfl : d = 0 := by omega
    exact hrefuse
  · decide
  · exact fun d _ _ => le_rfl
  · decide
  · exact fun d hd _ => (show ∀ d < maxBins, utilsLeft s (put s (fun _ => []) 1 0) d ≤ 1000 by decide) d hd

/-- Tasks of 30 ms in 50 ms, 42 ms in 70 ms and 28 ms in 70 ms: the first two leave 400 of CPUs 0 and
1 each, and the third, which only CPU 1 admits, is never tried there. -/
theorem binPacking_byRank_tie :
    ¬ ∀ (s : KState) (list : List Tid), Kept s list → Cleared s →
      (∀ t ∈ list, Unscaled (s.task t)) → BestFits s list ∧ WorstFitsAll s list := by
  intro hall
  set s : KState := listed 3
    (fun t => if t = 1 then ⟨0, 30000000⟩ else if t = 2 then ⟨0, 42000000⟩ else ⟨0, 28000000⟩)
    (fun t => if t = 1 then ⟨0, 50000000⟩ else ⟨0, 70000000⟩) with hs
  obtain ⟨n, hn⟩ := (hall s [1, 2, 3] (by decide) (listed_cleared _ _ _) (by decide)).1
  obtain ⟨n₀, hn₀⟩ := exists_ample s [1, 2, 3]
  have hrank := (fitsAs_best_iff (by decide) (hn₀ _ (le_max_right n n₀)) (by decide)
    (listed_cleared _ _ _)).1 (hn _ (le_max_left n n₀))
  have hfirst : Admits s [] (utilCt s 1) := admits_nil_iff.2 (by decide)
  have hsecond : ¬ Admits s [1] (utilCt s 2) := by
    rw [admits_iff_of_check (v := false) (n := 10) (by decide) (by decide)]
    exact Bool.false_ne_true
  have hthird : ¬ Admits s [1] (utilCt s 3) := by
    rw [admits_iff_of_check (v := false) (n := 10) (by decide) (by decide)]
    exact Bool.false_ne_true
  have hfits : Admits s [2] (utilCt s 3) :=
    (admits_iff_of_check (v := true) (n := 10) (by decide) (by decide)).2 rfl
  rcases hrank with ⟨cpu, hcpu, -, -, -, hrank⟩ | ⟨hnone, -⟩
  · obtain rfl : cpu = 0 := by omega
    rcases hrank with ⟨cpu, hcpu, -, hadm, -⟩ | ⟨-, hopen⟩
    · obtain rfl : cpu = 0 := by omega
      exact hsecond hadm
    · rcases (hopen (by decide)).2 with ⟨cpu, hcpu, hfore, hadm, -⟩ | ⟨hnone, -⟩
      · obtain rfl | rfl : cpu = 0 ∨ cpu = 1 := by omega
        · exact hthird hadm
        · exact hfore 0 (by decide) (by decide)
      · exact hnone 1 (by decide) hfits
  · exact hnone 0 (by decide) hfirst

end Schemes

end RtSched
