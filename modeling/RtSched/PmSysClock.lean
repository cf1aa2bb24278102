import RtSched.SysClock

/-!
# PM-Clock against SysClock

If the last task needs the highest speed, `pmclock` has nothing to slow down: every task gets the
speed of the last one, and no speed is computed again.  SysClock would run the whole system at that
speed.  But the two take different steps from a speed in thousandths to kilohertz.  `sysclock`
multiplies by the maximum frequency in MHz, `pmclock` by 1000, which is right for a maximum of 1000
MHz only.

* `pmclockFreqs_last`: all tasks get the speed of the last one;
* `sysclock_freq_last`: the frequency of `sysclock` for it;
* `SortedTable.lookup_of_le`, `getTableFrequency_eq_iff`: the entry of an ascending table, and
  when two frequencies lead to the same one;
* `pmclock_degenerates_iff`: when PM-Clock is SysClock on such a list.
-/

namespace RtSched

open Loop

/-! ### The speeds of `pmclock` -/

section Speeds

variable {freqs : List ℤ} {top : ℤ}

/-- From any position on, the last speed is the highest. -/
theorem getMax_last (hne : freqs ≠ []) (hle : ∀ v ∈ freqs, v ≤ freqs.getLast hne) {i : ℕ}
    (hi : i < freqs.length) : getMax freqs i = freqs.getLast hne := by
  have hhead : freqs.getD i 0 ≤ freqs.getLast hne := by
    rw [List.getD_eq_getElem _ _ hi]
    exact hle _ (List.getElem_mem hi)
  apply le_antisymm
  · rcases (le_foldl_max_iff _ _ _).1 (le_refl (getMax freqs i)) with h | ⟨v, hv, h⟩
    · exact h.trans hhead
    · exact h.trans (hle v (List.mem_of_mem_drop hv))
  · refine (le_foldl_max_iff _ _ _).2 ?_
    by_cases hlast : i + 1 < freqs.length
    · refine Or.inr ⟨freqs.getLast hne, ?_, le_rfl⟩
      have hne' : freqs.drop (i + 1) ≠ [] := by
        rw [ne_eq, List.drop_eq_nil_iff]
        omega
      rw [← List.getLast_drop hne']
      exact List.getLast_mem hne'
    · left
      obtain rfl : i = freqs.length - 1 := by omega
      rw [List.getLast_eq_getElem, List.getD_eq_getElem _ _ hi]

/-- One turn of `pmclock`, if the speed of the task is that of the one before it. -/
theorem pmclockStep_same {fuel : ℕ} {cts : List TaskCt} {k n : ℕ} (hk : k < n)
    (hmax : getMax freqs k = top) :
    pmclockStep fuel cts (freqs, List.replicate k top ++ List.replicate (n - k) 0) k =
      some (freqs, List.replicate (k + 1) top ++ List.replicate (n - (k + 1)) 0) := by
  obtain ⟨d, rfl⟩ : ∃ d, n = k + 1 + d := ⟨n - (k + 1), by omega⟩
  have hrest : k + 1 + d - k = d + 1 := by omega
  have hset : (List.replicate k top ++ List.replicate (d + 1) 0).set k top =
      List.replicate (k + 1) top ++ List.replicate d 0 := by
    rw [List.set_append_right _ _ (by simp), List.length_replicate, Nat.sub_self,
      List.replicate_succ, List.set_cons_zero, List.replicate_succ', List.append_assoc,
      List.singleton_append]
  have hget : ∀ j < k + 1, (List.replicate (k + 1) top ++ List.replicate d 0).getD j 0 = top := by
    intro j hj
    rw [List.getD_append _ _ _ _ (by rw [List.length_replicate]; exact hj),
      List.getD_eq_getElem _ _ (by rw [List.length_replicate]; exact hj), List.getElem_replicate]
  have hsame : ¬ (k ≠ 0 ∧ (List.replicate (k + 1) top ++ List.replicate d 0).getD (k - 1) 0 >
      (List.replicate (k + 1) top ++ List.replicate d 0).getD k 0) := by
    rw [hget (k - 1) (by omega), hget k (by omega)]
    exact fun h => lt_irrefl _ h.2
  simp only [pmclockStep, hmax, hrest, hset]
  rw [if_neg hsame, Nat.add_sub_cancel_left, ← hset, List.set_set]

/-- If the last speed is the highest, every task gets it; no speed is computed again. -/
theorem pmclockFreqs_last (fuel : ℕ) (cts : List TaskCt) (hlen : freqs.length = cts.length)
    (hne : freqs ≠ []) (hle : ∀ v ∈ freqs, v ≤ freqs.getLast hne) :
    pmclockFreqs fuel cts freqs = some (List.replicate cts.length (freqs.getLast hne)) := by
  have hstep : ∀ k x, k < cts.length →
      x = (freqs, List.replicate k (freqs.getLast hne) ++ List.replicate (cts.length - k) 0) →
      ∃ y, pmclockStep fuel cts x k = some y ∧ y = (freqs,
        List.replicate (k + 1) (freqs.getLast hne) ++ List.replicate (cts.length - (k + 1)) 0) := by
    rintro k x hk rfl
    exact ⟨_, pmclockStep_same hk (getMax_last hne hle (hlen ▸ hk)), rfl⟩
  obtain ⟨x, hx, hlast⟩ := foldlM_total hstep (by omega : 0 + cts.length ≤ cts.length) rfl
  rw [zero_add, Nat.sub_self, List.replicate_zero, List.append_nil] at hlast
  rw [List.replicate_zero, List.nil_append, Nat.sub_zero] at hx
  rw [pmclockFreqs, List.range_eq_range', hx, hlast]
  rfl

end Speeds

/-! ### The frequency of `sysclock` -/

section Frequency

variable {e : Env} {list : List TaskCt} {s s₁ : KState} {freq : ℕ}

theorem length_alphasFrom {fuel n i : ℕ} {inBzp : Bool} {alphas : List ℤ}
    (h : alphasFrom fuel list n i inBzp = some alphas) : alphas.length = n := by
  induction n generalizing i inBzp alphas with
  | zero =>
    cases h
    rfl
  | succ n ih =>
    obtain ⟨w, -, hw⟩ := Option.bind_eq_some_iff.1 h
    obtain ⟨rest, hrest, hcons⟩ := Option.bind_eq_some_iff.1 hw
    cases hcons
    rw [List.length_cons, ih hrest]

/-- What `sysclock` returns, and what it leaves in the tasks. -/
theorem sysclock_returns (hne : list ≠ []) (hnodup : (list.map TaskCt.task).Nodup)
    (hsize : s.periodicTasksSize = list.length) (hsys : sysclock e list s = .ok (s₁, freq)) :
    ∃ alphas : List ℤ, alphas.length = list.length ∧
      freq = (e.maxFrequency * alphas.foldl (fun m a => if a > m then a else m) 0).toNat ∧
      ∀ i < list.length, ((s₁.task (list.getD i default).task).alpha : ℤ) =
        max (alphas.getD i 0) 0 := by
  have hpos : 0 < list.length := List.length_pos_iff.2 hne
  rw [sysclock, sysclockPerCpu, hsize, if_neg (by omega)] at hsys
  obtain ⟨x, hx, hret⟩ := Call.bind_eq_ok.1 hsys
  obtain ⟨alphas, halphas, hx⟩ := Option.bind_eq_some_iff.1 (Call.ofOption_eq_ok.1 hx)
  cases hx
  cases hret
  have hlen := length_alphasFrom halphas
  refine ⟨alphas, hlen, rfl, fun i hi => ?_⟩
  have hwrite : (((list.zip alphas).foldl writeAlpha s).task (list.getD i default).task).alpha =
      (alphas.getD i 0).toNat := congrArg TaskStruct.alpha
    (foldl_zip_modifyTask hnodup s hlen (fun x p => { p with alpha := x.2.toNat }) hi)
  rw [hwrite, Int.toNat_eq_max]

/-- If the last task has the highest speed, the frequency is the maximum one times that speed. -/
theorem sysclock_freq_last (hne : list ≠ []) (hnodup : (list.map TaskCt.task).Nodup)
    (hsize : s.periodicTasksSize = list.length) (hsys : sysclock e list s = .ok (s₁, freq))
    (hmax : ∀ c ∈ list, (s₁.task c.task).alpha ≤ (s₁.task (list.getLast hne).task).alpha) :
    freq = e.maxFrequency * (s₁.task (list.getLast hne).task).alpha := by
  obtain ⟨alphas, hlen, rfl, hstored⟩ := sysclock_returns hne hnodup hsize hsys
  have hpos : 0 < list.length := List.length_pos_iff.2 hne
  have hfold : alphas.foldl (fun m a => if a > m then a else m) 0 =
      ((s₁.task (list.getLast hne).task).alpha : ℤ) := by
    apply le_antisymm
    · rcases (le_foldl_max_iff alphas 0 _).1 le_rfl with h | ⟨a, ha, h⟩
      · exact h.trans (Int.natCast_nonneg _)
      · obtain ⟨i, hi, rfl⟩ := List.getElem_of_mem ha
        have hle := hmax _ (getD_mem (hlen ▸ hi))
        have hi' := hstored i (hlen ▸ hi)
        rw [List.getD_eq_getElem _ _ hi] at hi'
        omega
    · have hlast := hstored (list.length - 1) (by omega)
      have hi : list.length - 1 < alphas.length := by omega
      rw [List.getD_eq_getElem _ _ (by omega : list.length - 1 < list.length),
        ← List.getLast_eq_getElem hne, List.getD_eq_getElem _ _ hi] at hlast
      rw [hlast]
      refine (le_foldl_max_iff _ _ _).2 ?_
      rcases le_total (alphas[list.length - 1]) 0 with h0 | h0
      · exact Or.inl (max_le h0 le_rfl)
      · exact Or.inr ⟨_, List.getElem_mem hi, (max_eq_left h0).le⟩
  rw [hfold, ← Nat.cast_mul, Int.toNat_natCast]

end Frequency

/-! ### Entries of the table -/

section Table

variable {e : Env} {f g : ℕ}

/-- The valid entries ascend strictly to the maximum frequency. -/
structure AscendingTable (e : Env) : Prop extends SortedTable e where
  ascending : (e.table.filterMap id).Pairwise (· < ·)

/-- The same frequency, or both at most the maximum and no entry from the lower one up to the higher
one. -/
def SameEntry (e : Env) (f g : ℕ) : Prop :=
  f = g ∨ max f g ≤ e.maxFreq ∧ ∀ x ∈ e.table.filterMap id, x < min f g ∨ max f g ≤ x

instance (e : Env) (f g : ℕ) : Decidable (SameEntry e f g) :=
  inferInstanceAs (Decidable (_ ∨ _))

theorem getTableFrequency_eq_of_lt (h : SortedTable e) (hfg : f < g) :
    getTableFrequency e f = getTableFrequency e g ↔
      g ≤ e.maxFreq ∧ ∀ x ∈ e.table.filterMap id, x < f ∨ g ≤ x := by
  constructor
  · intro heq
    have hg : g ≤ e.maxFreq := by
      by_contra hgt
      rw [h.lookup_of_gt (not_le.1 hgt)] at heq
      rcases le_or_gt f e.maxFreq with hf | hf
      · exact hgt (heq ▸ h.le (h.lookup_of_le hf).1)
      · rw [h.lookup_of_gt hf] at heq
        exact hfg.ne heq
    refine ⟨hg, fun x hx => ((h.lookup_of_le (hfg.le.trans hg)).2.2 x hx).imp_right fun hle => ?_⟩
    exact (h.lookup_of_le hg).2.1.trans (heq ▸ hle)
  · rintro ⟨hg, hsep⟩
    obtain ⟨hfmem, hfle, hflow⟩ := h.lookup_of_le (hfg.le.trans hg)
    obtain ⟨hgmem, hgle, hglow⟩ := h.lookup_of_le hg
    apply le_antisymm
    · exact (hflow _ hgmem).resolve_left (by omega)
    · have hhigh := (hsep _ hfmem).resolve_left (by omega)
      exact (hglow _ hfmem).resolve_left (by omega)

/-- When two frequencies lead to the same entry. -/
theorem getTableFrequency_eq_iff (h : SortedTable e) :
    getTableFrequency e f = getTableFrequency e g ↔ SameEntry e f g := by
  rcases lt_trichotomy f g with hlt | rfl | hgt
  · rw [getTableFrequency_eq_of_lt h hlt, SameEntry, max_eq_right hlt.le, min_eq_left hlt.le,
      or_iff_right hlt.ne]
  · exact iff_of_true rfl (Or.inl rfl)
  · rw [eq_comm, getTableFrequency_eq_of_lt h hgt, SameEntry, max_eq_left hgt.le,
      min_eq_right hgt.le, or_iff_right hgt.ne']

end Table

/-! ### PM-Clock and SysClock -/

/-- If the last task has the highest speed, `pmclock` gives every task the entry for 1000 kHz per
thousandth of it. -/
theorem pmclock_last {e : Env} {list : List TaskCt} {s : KState} (hne : list ≠ [])
    (hnodup : (list.map TaskCt.task).Nodup)
    (hmax : ∀ c ∈ list, (s.task c.task).alpha ≤ (s.task (list.getLast hne).task).alpha) :
    ∃ s', pmclock e list s = .ok s' ∧ ∀ c ∈ list, (s'.task c.task).pmclockFreq =
      getTableFrequency e (1000 * (s.task (list.getLast hne).task).alpha) := by
  have hne' : (list.map fun c => ((s.task c.task).alpha : ℤ)) ≠ [] := by simpa using hne
  have hlast : (list.map fun c => ((s.task c.task).alpha : ℤ)).getLast hne' =
      (s.task (list.getLast hne).task).alpha := List.getLast_map ..
  have hfreqs := pmclockFreqs_last e.fuel list (List.length_map _) hne' (by
    rw [hlast, List.forall_mem_map]
    exact fun c hc => by exact_mod_cast hmax c hc)
  rw [hlast] at hfreqs
  refine ⟨(list.zip (List.replicate list.length
    ((s.task (list.getLast hne).task).alpha : ℤ))).foldl (writePmclockFreq e) s, ?_, ?_⟩
  · rw [pmclock, hfreqs]
    rfl
  · intro c hc
    obtain ⟨i, hi, rfl⟩ := List.getElem_of_mem hc
    have hlen : (List.replicate list.length
        ((s.task (list.getLast hne).task).alpha : ℤ)).length = list.length := List.length_replicate
    have hwrite := foldl_zip_modifyTask hnodup s hlen
      (fun x p => { p with pmclockFreq := getTableFrequency e (x.2 * 1000).toNat }) hi
    rw [List.getD_eq_getElem _ _ hi, List.getD_eq_getElem _ _ (hlen.symm ▸ hi),
      List.getElem_replicate] at hwrite
    have hfreq := congrArg TaskStruct.pmclockFreq hwrite
    have hnat : ((s.task (list.getLast hne).task).alpha * 1000 : ℤ).toNat =
        1000 * (s.task (list.getLast hne).task).alpha := by omega
    rw [← hnat]
    exact hfreq

/-- **When PM-Clock degenerates to SysClock.**  On a list whose last task has the highest speed
`alpha`, `pmclock` comes back, and every task has the frequency SysClock selects exactly if 1000 and
the maximum frequency in MHz, both times `alpha`, lead to the same entry of the table. -/
theorem pmclock_degenerates_iff (e : Env) (htable : AscendingTable e) (list : List TaskCt)
    (hne : list ≠ []) (hnodup : (list.map TaskCt.task).Nodup) (s s₁ : KState) (freq : ℕ)
    (hsize : s.periodicTasksSize = list.length) (hsys : sysclock e list s = .ok (s₁, freq))
    (hmax : ∀ c ∈ list, (s₁.task c.task).alpha ≤ (s₁.task (list.getLast hne).task).alpha) :
    ∃ s₂, pmclock e list s₁ = .ok s₂ ∧
      ((∀ c ∈ list, (s₂.task c.task).pmclockFreq = getTableFrequency e freq) ↔
        SameEntry e (1000 * (s₁.task (list.getLast hne).task).alpha)
          (e.maxFrequency * (s₁.task (list.getLast hne).task).alpha)) := by
  obtain ⟨s₂, hpm, hfreq⟩ := pmclock_last (e := e) hne hnodup hmax
  refine ⟨s₂, hpm, ?_⟩
  rw [← getTableFrequency_eq_iff htable.toSortedTable, sysclock_freq_last hne hnodup hsize hsys hmax]
  constructor
  · intro hall
    have hlast := hall _ (List.getLast_mem hne)
    rwa [hfreq _ (List.getLast_mem hne)] at hlast
  · intro heq c hc
    rw [hfreq c hc, heq]

/-- Two tasks, of which the second needs more. -/
def twoCts : List TaskCt :=
  [{ budget := 300, period := 1000, task := 1 }, { budget := 300, period := 2000, task := 2 }]

/-- They are the ones on the list. -/
def pairListed : KState := { bootState [1, 2] .pmClock with periodicTasksSize := 2 }

/-- One task of three tenths of the processor. -/
def oneCt : List TaskCt := [{ budget := 300, period := 1000, task := 1 }]

/-- It is the only one on the list. -/
def oneListed : KState := { bootState [1] .pmClock with periodicTasksSize := 1 }

/-- A processor with three frequencies, in kHz. -/
def threeSpeeds (low mid high : ℕ) : Env := ⟨high, [some low, some mid, some high], 10⟩

/-- A processor of 1000 MHz. -/
theorem pmclock_degenerates_iff_gigahertz :
    ∃ s₁ freq s₂, sysclock (threeSpeeds 204000 475000 1000000) twoCts pairListed = .ok (s₁, freq) ∧
      pmclock (threeSpeeds 204000 475000 1000000) twoCts s₁ = .ok s₂ ∧
      ∀ c ∈ twoCts, (s₂.task c.task).pmclockFreq =
        getTableFrequency (threeSpeeds 204000 475000 1000000) freq := by
  obtain ⟨x, hx, hmax⟩ : ∃ x, sysclock (threeSpeeds 204000 475000 1000000) twoCts pairListed =
      .ok x ∧ ∀ c ∈ twoCts, (x.1.task c.task).alpha ≤ (x.1.task 2).alpha :=
    Call.exists_ok_of_test (by decide)
  obtain ⟨s₂, hpm, hiff⟩ := pmclock_degenerates_iff (threeSpeeds 204000 475000 1000000)
    ⟨⟨by decide, rfl⟩, by decide⟩ twoCts (by decide) (by decide) pairListed x.1 x.2 rfl hx hmax
  exact ⟨x.1, x.2, s₂, hx, hpm, hiff.2 (Or.inl rfl)⟩

/-- A processor of 1300 MHz: the task gets 340 MHz, where SysClock selects 475. -/
theorem pmclock_differs :
    ¬ ∀ (e : Env), AscendingTable e → ∀ (list : List TaskCt) (hne : list ≠ []),
      (list.map TaskCt.task).Nodup → ∀ (s s₁ : KState) (freq : ℕ),
      s.periodicTasksSize = list.length → sysclock e list s = .ok (s₁, freq) →
      (∀ c ∈ list, (s₁.task c.task).alpha ≤ (s₁.task (list.getLast hne).task).alpha) →
      ∃ s₂, pmclock e list s₁ = .ok s₂ ∧
        ∀ c ∈ list, (s₂.task c.task).pmclockFreq = getTableFrequency e freq := by
  intro hall
  obtain ⟨x, hx, hfreq, htest⟩ : ∃ x, sysclock (threeSpeeds 340000 475000 1300000) oneCt oneListed =
      .ok x ∧ x.2 = 390000 ∧ (pmclock (threeSpeeds 340000 475000 1300000) oneCt x.1).test
        (fun y => decide ((y.task 1).pmclockFreq = 340000)) = true :=
    Call.exists_ok_of_test (by decide)
  obtain ⟨y, hy, hpm⟩ := Call.exists_ok_of_test htest
  obtain ⟨s₂, hs₂, hsame⟩ := hall (threeSpeeds 340000 475000 1300000)
    ⟨⟨by decide, rfl⟩, by decide⟩ oneCt (by decide) (by decide) oneListed x.1 x.2 rfl hx (by simp [oneCt])
  obtain rfl := Except.ok.inj (hy.symm.trans hs₂)
  have hone := hsame _ (List.mem_singleton_self _)
  rw [hfreq] at hone
  exact absurd (hpm.symm.trans hone) (by decide)

end RtSched
