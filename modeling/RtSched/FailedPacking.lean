import RtSched.Capacity
import RtSched.StopRun

/-!
# A packing that fails (`sys_setBinPacking`)

The call writes `bin_packing_scheme` and `power_scheme` before it packs, and `bin_packing` marks a task
(`on_cpu` and its mask) as soon as it has a CPU for it.  When a later task finds none, `clear_cpu_lists`
empties the per-CPU lists; it does not put back what was there.  So a failed call changes nothing
exactly where everything it writes was there before.

* `attempt`, `Taker`: the CPUs that a scheme tries for a task, and the first that admits it;
* `AttemptTurn`: what one turn does, for every scheme but next fit, which never fails
  (`packOne_attemptTurn`, `packAll_nextFit_fits`);
* `MarksKept`: the tasks have the marks that the packing gives them, up to the one it gives up at
  (`packAll_marks_iff`);
* `failedPacking_unchanged_iff`.
-/

namespace RtSched

open Call LinkRing

/-! ### The attempts of a turn -/

/-- The CPU that is tried for a task in the `j`-th place, with `bins` open and `util` left of them.
When all open bins have been tried another one is opened. -/
def attempt (scheme : ℕ) (util : ℕ → ℤ) (bins j : ℕ) : Option ℕ :=
  match scheme with
  | 0 => some j
  | 2 => getUtilBin util j (max bins (j + 1))
  | _ => getUtilBin util (max bins (j + 1) - 1 - j) (max bins (j + 1))

/-- The `j`-th attempt is on `cpu`, which admits the task, and none before it was admitted. -/
structure Taker (scheme : ℕ) (s : KState) (cl : ℕ → List Tid) (bins : ℕ) (c : TaskCt) (j cpu : ℕ) :
    Prop where
  tried : attempt scheme (utilsLeft s cl) bins j = some cpu
  admits : Admits s (cl cpu) c
  first : ∀ i < j, ∀ d ∈ attempt scheme (utilsLeft s cl) bins i, ¬ Admits s (cl d) c

/-- No attempt is admitted. -/
def NoTaker (scheme : ℕ) (s : KState) (cl : ℕ → List Tid) (bins : ℕ) (c : TaskCt) : Prop :=
  ∀ j < maxBins, ∀ d ∈ attempt scheme (utilsLeft s cl) bins j, ¬ Admits s (cl d) c

/-- The bins that are open at the `j`-th attempt. -/
def Packing.openFor (k : Packing) (j : ℕ) : Packing :=
  { k with currentBins := max k.currentBins (j + 1) }

/-- What a turn makes of a task. -/
inductive AttemptTurn (fuel scheme : ℕ) (s : KState) (cl : ℕ → List Tid) (c : TaskCt) (k : Packing) :
    Packing × Bool → Prop
  | taken {j cpu : ℕ} {k' : Packing} (hj : j < maxBins)
      (h : Taker scheme s cl k.currentBins c j cpu) (hcpu : cpu < (k.openFor j).currentBins)
      (hplace : place fuel c cpu (k.openFor j) = .ok k') : AttemptTurn fuel scheme s cl c k (k', true)
  | refused {k' : Packing} (h : NoTaker scheme s cl k.currentBins c) (hk' : k'.st = k.st) :
      AttemptTurn fuel scheme s cl c k (k', false)

section Turn

variable {fuel scheme : ℕ} {s : KState} {list : List Tid} {cl : ℕ → List Tid} {c : TaskCt}
  {k : Packing} {rem : List TaskCt} {x : Packing × Bool}

/-- There is at most one. -/
theorem Taker.unique {bins i j cpu d : ℕ} (h : Taker scheme s cl bins c i cpu)
    (h' : Taker scheme s cl bins c j d) : i = j ∧ cpu = d := by
  rcases lt_trichotomy i j with hlt | rfl | hlt
  · exact absurd h.admits (h'.first i hlt cpu h.tried)
  · exact ⟨rfl, Option.some.inj (h.tried.symm.trans h'.tried)⟩
  · exact absurd h'.admits (h.first j hlt d h'.tried)

theorem Opened.openFor (h : Opened k) {j : ℕ} (hj : j < maxBins) : Opened (k.openFor j) :=
  ⟨lt_of_lt_of_le h.prev (le_max_left _ _), max_le h.max hj⟩

theorem packing_openFor_zero (h : Opened k) : k.openFor 0 = k := by
  have hbins : max k.currentBins (0 + 1) = k.currentBins := max_eq_left (Nat.zero_lt_of_lt h.prev)
  rw [Packing.openFor, hbins]

/-- After an attempt that is refused the next bin is opened if all have been tried. -/
theorem openFor_succ (k : Packing) (j : ℕ) :
    (if j + 1 = (k.openFor j).currentBins then
      { k.openFor j with currentBins := (k.openFor j).currentBins + 1 } else k.openFor j) =
      k.openFor (j + 1) := by
  have hbins : (k.openFor j).currentBins = max k.currentBins (j + 1) := rfl
  by_cases hlast : j + 1 = (k.openFor j).currentBins
  · have hnext : (k.openFor j).currentBins + 1 = max k.currentBins (j + 1 + 1) := by omega
    rw [if_pos hlast, hnext]
    rfl
  · have hsame : max k.currentBins (j + 1) = max k.currentBins (j + 1 + 1) := by omega
    rw [if_neg hlast, Packing.openFor, hsame]
    rfl

/-- Schemes 2, 3 and 4, from the `j`-th attempt on. -/
theorem packByUtil_attemptTurn {index : ℕ → ℕ → ℕ} {n j : ℕ}
    (hindex : ∀ util bins j, attempt scheme util bins j =
      getUtilBin util (index (max bins (j + 1)) j) (max bins (j + 1)))
    (h : Loaded s list k cl (c :: rem)) (hj : j < maxBins)
    (hrefused : ∀ i < j, ∀ d ∈ attempt scheme (utilsLeft s cl) k.currentBins i, ¬ Admits s (cl d) c)
    (hx : packByUtil fuel index c n j (k.openFor j) = .ok x) :
    AttemptTurn fuel scheme s cl c k x := by
  induction n generalizing j with
  | zero => cases hx
  | succ n ih =>
    rw [packByUtil] at hx
    have hmax : (k.openFor j).currentBins ≤ maxBins := (h.opened.openFor hj).max
    have htried : getUtilBin (k.openFor j).st.cpuUtil (index (k.openFor j).currentBins j)
        (k.openFor j).currentBins = attempt scheme (utilsLeft s cl) k.currentBins j := by
      rw [hindex]
      exact h.getUtilBin_eq hmax _
    rw [htried] at hx
    cases hbin : attempt scheme (utilsLeft s cl) k.currentBins j with
    | none =>
      rw [hbin] at hx
      cases hx
    | some cpu =>
      rw [hbin] at hx
      obtain ⟨b, hb, hx⟩ := bind_eq_ok.1 hx
      have hverdict : b = true ↔ Admits s (cl cpu) c := h.check_iff hb
      cases b with
      | true =>
        obtain ⟨k', hplace, hx⟩ := bind_eq_ok.1 hx
        obtain rfl := Except.ok.inj hx
        exact .taken hj ⟨hbin, hverdict.1 rfl, hrefused⟩ (getUtilBin_lt (htried.trans hbin)) hplace
      | false =>
        have hno : ¬ Admits s (cl cpu) c := fun hadm => Bool.false_ne_true (hverdict.2 hadm)
        have hrefused' : ∀ i < j + 1, ∀ d ∈ attempt scheme (utilsLeft s cl) k.currentBins i,
            ¬ Admits s (cl d) c := by
          intro i hi d hd
          rcases Nat.lt_succ_iff_lt_or_eq.1 hi with hlt | rfl
          · exact hrefused i hlt d hd
          · obtain rfl := Option.some.inj (hbin.symm.trans hd)
            exact hno
        simp only [Bool.false_eq_true, if_false, openFor_succ] at hx
        split_ifs at hx with hfull
        · obtain rfl := Except.ok.inj hx
          refine .refused (fun i hi => hrefused' i ?_) rfl
          have hbins : (k.openFor (j + 1)).currentBins = max k.currentBins (j + 1 + 1) := rfl
          have := h.opened.max
          omega
        · refine ih ?_ hrefused' hx
          have hbins : (k.openFor (j + 1)).currentBins = max k.currentBins (j + 1 + 1) := rfl
          omega

/-- Scheme 0, with `m` bins open; those that were opened on the way have been tried. -/
theorem packFirstFit_attemptTurn {n m : ℕ} (h : Loaded s list k cl (c :: rem))
    (hm : k.currentBins ≤ m) (hmax : m ≤ maxBins)
    (hrefused : k.currentBins < m → ∀ i < m - 1, ¬ Admits s (cl i) c)
    (hx : packFirstFit fuel c n { k with currentBins := m } = .ok x) :
    AttemptTurn fuel 0 s cl c k x := by
  induction n generalizing m with
  | zero => cases hx
  | succ n ih =>
    rw [packFirstFit, List.range_eq_range'] at hx
    obtain ⟨r, hr, hx⟩ := bind_eq_ok.1 hx
    have hno : ∀ {i}, Refuses fuel c { k with currentBins := m } i → ¬ Admits s (cl i) c :=
      fun hcheck hadm => Bool.false_ne_true ((h.check_iff hcheck).2 hadm)
    rcases firstFit_scan hr with ⟨j, rfl, -, hj, hacc, href⟩ | ⟨rfl, href⟩
    · have hj : j < m := by rwa [Nat.zero_add] at hj
      have hadm : Admits s (cl j) c := (h.check_iff hacc).1 rfl
      obtain ⟨k', hplace, hx⟩ := bind_eq_ok.1 hx
      obtain rfl := Except.ok.inj hx
      -- a bin opened on the way is the last one
      have hbins : max k.currentBins (j + 1) = m := by
        rcases Nat.eq_or_lt_of_le hm with heq | hlt
        · omega
        · have hlast : ¬ j < m - 1 := fun hlt' => hrefused hlt j hlt' hadm
          omega
      refine .taken (by omega) ⟨rfl, hadm, fun i hi d hd => ?_⟩ ?_ ?_
      · obtain rfl : i = d := Option.some.inj hd
        exact hno (href i (Nat.zero_le i) hi)
      · show j < max k.currentBins (j + 1)
        omega
      · rw [Packing.openFor, hbins]
        exact hplace
    · have hall : ∀ i < m, ¬ Admits s (cl i) c :=
        fun i hi => hno (href i (Nat.zero_le i) (by rwa [Nat.zero_add]))
      dsimp only at hx
      split_ifs at hx with hfull
      · obtain rfl := Except.ok.inj hx
        refine .refused (fun i hi d hd => ?_) rfl
        obtain rfl : i = d := Option.some.inj hd
        exact hall i (by omega)
      · exact ih (by omega) (by omega) (fun _ i hi => hall i (by omega)) hx

/-- **One turn, for every scheme but next fit.** -/
theorem packOne_attemptTurn (hscheme : scheme ≤ 4) (h1 : scheme ≠ 1)
    (h : Loaded s list k cl (c :: rem)) (hx : packOne fuel scheme c k = .ok x) :
    AttemptTurn fuel scheme s cl c k x := by
  match scheme, hscheme, h1 with
  | 0, _, _ =>
    exact packFirstFit_attemptTurn h le_rfl h.opened.max (fun hlt => absurd hlt (lt_irrefl _)) hx
  | 2, _, _ =>
    rw [← packing_openFor_zero h.opened] at hx
    exact packByUtil_attemptTurn (fun _ _ _ => rfl) h (by decide) (by omega) hx
  | 3, _, _ =>
    rw [← packing_openFor_zero h.opened] at hx
    exact packByUtil_attemptTurn (fun _ _ _ => rfl) h (by decide) (by omega) hx
  | 4, _, _ =>
    rw [← packing_openFor_zero h.opened] at hx
    exact packByUtil_attemptTurn (fun _ _ _ => rfl) h (by decide) (by omega) hx

end Turn

/-! ### The marks -/

/-- The task has the same mark. -/
def SameMark (p q : TaskStruct) : Prop := q.onCpu = p.onCpu ∧ q.cpusAllowed = p.cpusAllowed

/-- With `bins` open, `cl` on the CPUs and `mask` for the CPUs used so far, the tasks that are still to
be packed have the marks they will get, up to the first that no CPU takes. -/
def MarksKept (scheme : ℕ) (s : KState) : ℕ → (ℕ → List Tid) → Finset ℕ → List TaskCt → Prop
  | _, _, _, [] => True
  | bins, cl, mask, c :: rem => ∀ j < maxBins, ∀ cpu, Taker scheme s cl bins c j cpu →
      ((s.task c.task).onCpu = cpu ∧ (s.task c.task).cpusAllowed = insert cpu mask) ∧
        MarksKept scheme s (max bins (j + 1)) (put s cl c.task cpu) (insert cpu mask) rem

/-- The tasks have the marks of a packing onto empty CPUs. -/
def MarkedBy (scheme : ℕ) (s : KState) (list : List Tid) : Prop :=
  MarksKept scheme s (if scheme = 4 then 4 else 1) (fun _ => []) ∅ (utilOrder s list)

section Marks

variable {fuel scheme : ℕ} {s : KState} {list : List Tid} {cl : ℕ → List Tid} {k : Packing}
  {rem : List TaskCt} {x : Packing × Bool}

/-- A task that has its mark, and the tasks behind it. -/
theorem MarksKept.of_taken {bins j cpu : ℕ} {mask : Finset ℕ} {c : TaskCt}
    (h : Taker scheme s cl bins c j cpu)
    (hmark : (s.task c.task).onCpu = cpu ∧ (s.task c.task).cpusAllowed = insert cpu mask)
    (hrest : MarksKept scheme s (max bins (j + 1)) (put s cl c.task cpu) (insert cpu mask) rem) :
    MarksKept scheme s bins cl mask (c :: rem) := by
  intro i _ d htaker
  obtain ⟨rfl, rfl⟩ := h.unique htaker
  exact ⟨hmark, hrest⟩

/-- Nothing is marked from the first task on that no CPU takes. -/
theorem MarksKept.of_refused {bins : ℕ} {mask : Finset ℕ} {c : TaskCt}
    (h : NoTaker scheme s cl bins c) : MarksKept scheme s bins cl mask (c :: rem) :=
  fun j hj cpu htaker => absurd htaker.admits (h j hj cpu htaker.tried)

/-- A packing leaves the marks as they are if and only if they are the ones it gives. -/
theorem packAll_marks_iff (hscheme : scheme ≤ 4) (h1 : scheme ≠ 1) (h : Loaded s list k cl rem)
    (hsame : ∀ d ∈ rem, k.st.task d.task = s.task d.task)
    (hx : packAll fuel scheme rem k = .ok x) :
    (∀ d ∈ rem, SameMark (s.task d.task) (x.1.st.task d.task)) ↔
      MarksKept scheme s k.currentBins cl k.mask rem := by
  induction rem generalizing k cl with
  | nil => exact iff_of_true (by simp) trivial
  | cons c rem ih =>
    have hnodup := List.nodup_cons.1 h.nodup
    have hne : ∀ d ∈ rem, d.task ≠ c.task :=
      fun d hd heq => hnodup.1 (heq ▸ List.mem_map_of_mem hd)
    obtain ⟨y, hone, hx⟩ := bind_eq_ok.1 hx
    cases packOne_attemptTurn hscheme h1 h hone with
    | @taken j cpu k' hj htaker hcpu hplace =>
      have hL := h.placed hplace rfl (h.opened.openFor hj) (le_max_left _ _) hcpu
      have hsame' : ∀ d ∈ rem, k'.st.task d.task = s.task d.task := fun d hd =>
        (place_other hplace (hne d hd)).trans (hsame d (List.mem_cons_of_mem _ hd))
      have hrest := ih hL hsame' hx
      rw [(place_bins hplace).1, place_mask hplace] at hrest
      have hmark : x.1.st.task c.task =
          { k.st.task c.task with onCpu := cpu, cpusAllowed := insert cpu k.mask } := by
        rw [packAll_other hne hx, place_task hplace, if_pos rfl]
        rfl
      rw [List.forall_mem_cons, hmark]
      constructor
      · rintro ⟨⟨hcpu', hmask'⟩, hall⟩
        exact .of_taken htaker ⟨hcpu'.symm, hmask'.symm⟩ (hrest.1 hall)
      · intro hall
        obtain ⟨⟨hcpu', hmask'⟩, hkept⟩ := hall j hj cpu htaker
        exact ⟨⟨hcpu'.symm, hmask'.symm⟩, hrest.2 hkept⟩
    | @refused k' hno hk' =>
      obtain rfl := Except.ok.inj hx
      refine iff_of_true (fun d hd => ?_) (.of_refused hno)
      show SameMark (s.task d.task) (k'.st.task d.task)
      rw [hk', hsame d hd]
      exact ⟨rfl, rfl⟩

/-- Next fit finds a place for every task, or leaves it out. -/
theorem packAll_nextFit_fits (hk : Opened k) (hx : packAll fuel 1 rem k = .ok x) :
    x.2 = true ∧ 0 < x.1.currentBins := by
  induction rem generalizing k with
  | nil =>
    obtain rfl := Except.ok.inj hx
    exact ⟨rfl, Nat.zero_lt_of_lt hk.prev⟩
  | cons c rem ih =>
    obtain ⟨y, hone, hx⟩ := bind_eq_ok.1 hx
    cases packOne_outcome (by decide) hk hone with
    | placed _ _ _ hprev _ hmax => exact ih ⟨hprev, hmax⟩ hx
    | leftOut _ _ hprev hbins => exact ih ⟨hprev, hbins ▸ hk.max⟩ hx
    | full =>
      cases packNextFit_turn hk hone

/-- A packing that fails. -/
theorem binPacking_marks_iff {s' : KState} (hk : Kept s list) (hc : Cleared s) (hne : list ≠ [])
    (hscheme : scheme ≤ 4) (h : binPacking fuel scheme s = .ok (s', 0)) :
    (∀ t, SameMark (s.task t) (s'.task t)) ↔ MarkedBy scheme s list := by
  obtain ⟨x, hx, heq⟩ := binPacking_eq_ok hk hne h
  obtain ⟨rfl, hzero⟩ := Prod.mk.inj heq
  have h1 : scheme ≠ 1 := by
    rintro rfl
    obtain ⟨htrue, hpos⟩ := packAll_nextFit_fits (filled_start hc.lists 1).opened hx
    rw [if_pos htrue] at hzero
    omega
  refine Iff.trans ?_ (packAll_marks_iff hscheme h1 (loaded_start hk hc scheme) (fun _ _ => rfl) hx)
  constructor
  · exact fun hall d _ => hall d.task
  · intro hall t
    by_cases ht : ∃ d ∈ utilOrder s list, d.task = t
    · obtain ⟨d, hd, rfl⟩ := ht
      exact hall d hd
    · rw [packAll_other (fun d hd heq => ht ⟨d, hd, heq⟩) hx]
      exact ⟨rfl, rfl⟩

end Marks

/-! ### A failed call -/

variable {e : Env} {s s₂ s' : KState} {scheme : ℤ} {list : List Tid} {cl : ℕ → List Tid}

/-- What a failed call should leave as it was. -/
structure Unchanged (s s' : KState) : Prop where
  power : s'.powerScheme = s.powerScheme
  scheme : s'.binPackingScheme = s.binPackingScheme
  lists : ∀ cpu < maxCpu, s'.perCpuListSize cpu = s.perCpuListSize cpu ∧
    ∀ bin, OnCpuList s' cpu bin ↔ OnCpuList s cpu bin
  util : ∀ cpu < maxCpu, s'.cpuUtil cpu = s.cpuUtil cpu
  marks : ∀ t, SameMark (s.task t) (s'.task t)

/-- The schemes are what the call sets them to, and the CPUs are empty and free. -/
structure Reset (s : KState) (scheme : ℤ) : Prop where
  power : s.powerScheme = .noPm
  scheme : s.binPackingScheme = scheme
  cpus : ∀ cpu < maxCpu, s.perCpuListSize cpu = 0 ∧ s.cpuUtil cpu = 1000

theorem Reset.schemes_eq (h : Reset s scheme) :
    { s with binPackingScheme := scheme, powerScheme := .noPm } = s := by
  rw [← h.power, ← h.scheme]

theorem Reset.cleared (h : Reset s scheme) (hc : CpuKept s cl)
    (hlow : ∀ cpu, maxCpu ≤ cpu → cl cpu = []) : Cleared s := by
  have hcl : cl = fun _ => [] := by
    funext cpu
    rcases lt_or_ge cpu maxCpu with hlt | hge
    · have hlen : (cl cpu).length = 0 := (hc.size cpu).symm.trans (h.cpus cpu hlt).1
      exact List.eq_nil_of_length_eq_zero hlen
    · exact hlow cpu hge
  rw [hcl] at hc
  exact ⟨hc, fun cpu hlt => (h.cpus cpu hlt).2⟩

/-- A call with a valid scheme that returned an error: `s₂` is what the packing left. -/
structure FailedCall (e : Env) (s : KState) (scheme : ℤ) (s₂ s' : KState) : Prop where
  packed : binPacking e.fuel scheme.toNat
    { s with binPackingScheme := scheme, powerScheme := .noPm } = .ok (s₂, 0)
  cleared : clearCpuLists e.fuel s₂ = .ok s'

theorem setBinPacking_failed (hlow : 0 ≤ scheme) (hhigh : scheme ≤ 4)
    (hcall : setBinPacking e scheme s = .ok (s', -einval)) : ∃ s₂, FailedCall e s scheme s₂ s' := by
  rw [setBinPacking, if_neg (by omega)] at hcall
  obtain ⟨⟨s₂, bins⟩, hpack, hcall⟩ := bind_eq_ok.1 hcall
  dsimp only at hcall
  split_ifs at hcall with hbins
  · obtain ⟨s₃, hclear, hcall⟩ := bind_eq_ok.1 hcall
    obtain rfl : s₃ = s' := congrArg Prod.fst (Except.ok.inj hcall)
    exact ⟨s₂, hbins ▸ hpack, hclear⟩
  · -- a number of bins is not an error
    have hneg : (bins : ℤ) = -einval := congrArg Prod.snd (Except.ok.inj hcall)
    have heinval : (0 : ℤ) < einval := by decide
    omega

/-- Packing writes neither of the two schemes, whatever state the lists are in. -/
theorem binPacking_schemes {fuel n : ℕ} (hk : Kept s list) :
    Sat (fun x => x.1.powerScheme = s.powerScheme ∧ x.1.binPackingScheme = s.binPackingScheme)
      (fun _ => True) (binPacking fuel n s) := by
  refine (binPacking_sat (J := fun _ s' => s'.powerScheme = s.powerScheme ∧
    s'.binPackingScheme = s.binPackingScheme) ?_ (fun _ _ _ h => h) hk n fun _ _ => ⟨rfl, rfl⟩).mono
    (fun _ h => h) fun _ _ => trivial
  intro c rem cpu k h
  have hadd : Sat (fun s' => s'.powerScheme = s.powerScheme ∧
      s'.binPackingScheme = s.binPackingScheme) (fun s' => s'.powerScheme = s.powerScheme ∧
      s'.binPackingScheme = s.binPackingScheme) (addTaskToCpu fuel c.task cpu
        (k.st.modifyTask c.task fun p =>
          { p with onCpu := cpu, cpusAllowed := insert cpu k.mask })) := by
    rw [addTaskToCpu_eq]
    exact Sat.bind (Q := fun _ => True) (sat_lift (fun _ _ => trivial) h) fun _ _ => h
  exact hadd.bind fun _ hs' => hs'

theorem clearCpuLists_schemes (fuel : ℕ) (s : KState) :
    Sat (fun s' => s'.powerScheme = s.powerScheme ∧ s'.binPackingScheme = s.binPackingScheme)
      (fun _ => True) (clearCpuLists fuel s) := by
  refine sat_foldlM (fun s₁ c _ h => ?_) ⟨rfl, rfl⟩
  refine sat_ite (fun _ => ?_) fun _ => h
  exact Sat.bind (Q := fun _ => True) (sat_lift (fun _ _ => trivial) trivial) fun _ _ => h

theorem FailedCall.reset (h : FailedCall e s scheme s₂ s') (hk : Kept s list) :
    Reset s' scheme := by
  have hk₁ : Kept { s with binPackingScheme := scheme, powerScheme := .noPm } list :=
    ⟨hk.ring, hk.size, hk.sorted⟩
  obtain ⟨hpower, hscheme⟩ := sat_of_eq (binPacking_schemes hk₁) h.packed
  obtain ⟨⟨hpower', hscheme'⟩, hcpus⟩ := sat_of_eq
    ((clearCpuLists_schemes e.fuel s₂).and (clearCpuLists_resets e.fuel s₂)) h.cleared
  exact ⟨hpower'.trans hpower, hscheme'.trans hscheme, hcpus⟩

theorem FailedCall.task (h : FailedCall e s scheme s₂ s') : s'.task = s₂.task :=
  sat_of_eq (Q := fun s' => s'.task = s₂.task) (clearCpuLists_task e.fuel s₂) h.cleared

/-- What is unchanged after a failed call was reset before it. -/
theorem FailedCall.was_reset (h : FailedCall e s scheme s₂ s') (hk : Kept s list)
    (hun : Unchanged s s') : Reset s scheme := by
  have hreset := h.reset hk
  refine ⟨hun.power.symm.trans hreset.power, hun.scheme.symm.trans hreset.scheme,
    fun cpu hcpu => ?_⟩
  obtain ⟨hsize, hutil⟩ := hreset.cpus cpu hcpu
  exact ⟨(hun.lists cpu hcpu).1.symm.trans hsize, (hun.util cpu hcpu).symm.trans hutil⟩

/-- From empty lists to empty lists. -/
theorem FailedCall.cpuKept (h : FailedCall e s scheme s₂ s') (hk : Kept s list)
    (hreset : Reset s scheme) (hc : Cleared s) (hlow : 0 ≤ scheme) (hhigh : scheme ≤ 4) :
    CpuKept s' fun _ => [] := by
  have hpack := h.packed
  rw [hreset.schemes_eq] at hpack
  obtain ⟨cl, hkept, hcl⟩ : ∃ cl, CpuKept s₂ cl ∧ ∀ cpu, maxBins ≤ cpu → cl cpu = [] := by
    by_cases hne : list = []
    · subst hne
      rw [binPacking_empty hk] at hpack
      obtain rfl : s = s₂ := congrArg Prod.fst (Except.ok.inj hpack)
      exact ⟨_, hc.lists, fun _ _ => rfl⟩
    · obtain ⟨cl, hkept, hcl, -⟩ := binPacking_low hk hc.lists hne (by omega) hpack
      exact ⟨cl, hkept, hcl⟩
  exact (sat_of_eq (clearCpuLists_empties hkept hcl e.fuel) h.cleared).1

theorem FailedCall.marks_iff (h : FailedCall e s scheme s₂ s') (hk : Kept s list)
    (hreset : Reset s scheme) (hc : Cleared s) (hlow : 0 ≤ scheme) (hhigh : scheme ≤ 4) :
    (∀ t, SameMark (s.task t) (s'.task t)) ↔ MarkedBy scheme.toNat s list := by
  have hpack := h.packed
  rw [hreset.schemes_eq] at hpack
  rw [h.task]
  by_cases hne : list = []
  · subst hne
    rw [binPacking_empty hk] at hpack
    obtain rfl : s = s₂ := congrArg Prod.fst (Except.ok.inj hpack)
    exact iff_of_true (fun _ => ⟨rfl, rfl⟩) trivial
  · exact binPacking_marks_iff hk hc hne (by omega) hpack

end RtSched
