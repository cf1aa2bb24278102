import RtSched.Packed
import RtSched.UtilSort

/-!
# First fit (`bin_packing`, scheme 0)

The tasks are taken by decreasing utilisation (`utilOrder_sorted`, ties in list order:
`utilOrder_stable`), and each has its turn (`Turn`).

* `Ample`: enough fuel for every loop of every turn to come to its end; `Loaded`: where a packing has
  got, with `cpu_util` saying what is left of each CPU.  Both are for all schemes;
* `packAll_returns`, `Turn.inv`: rules for the loop over the tasks;
* `binPacking_firstFit`: scheme 0 is first fit decreasing over all four CPUs.
-/

namespace RtSched

open LinkRing Call

/-! ### The order -/

section Order

variable {s : KState} {list : List Tid} {fuel : ℕ}

theorem utilOrder_sorted (s : KState) (list : List Tid) :
    (utilOrder s list).Pairwise fun a b => b.util ≤ a.util :=
  bubbleSort_utilSwap_sorted _

/-- Tasks of one utilisation stay in list order. -/
theorem utilOrder_stable (s : KState) (list : List Tid) (v : ℤ) :
    (utilOrder s list).filter (fun c => decide (c.util = v)) =
      (list.map (utilCt s)).filter fun c => decide (c.util = v) :=
  bubbleSort_utilSwap_stable _ v

theorem sortPeriodicTasklist_returns (hk : Kept s list) (hne : list ≠ [])
    (hfuel : list.length < fuel) : sortPeriodicTasklist fuel s = .ok (utilOrder s list) := by
  have hwalk : s.periodicTasks fuel = .ok list := by
    rw [s.periodicTasks_eq (hk.isRing hne).traverses, if_pos hfuel]
  rw [sortPeriodicTasklist, hwalk, ok_bind, ctArray, List.length_map, if_pos hk.size.symm]
  rfl

end Order

/-! ### Enough fuel -/

/-- Enough turns for every loop of a packing of `list`. -/
structure Ample (s : KState) (list : List Tid) (fuel : ℕ) : Prop where
  turns : list.length + 2 * maxBins < fuel
  periods : ∀ t ∈ list, (convertToUsecs (s.task t).timePeriod).toNat + 1 < fuel

theorem exists_ample (s : KState) (list : List Tid) : ∃ n, ∀ fuel, n ≤ fuel → Ample s list fuel := by
  refine ⟨list.length + 2 * maxBins + 2 +
    (list.map fun t => (convertToUsecs (s.task t).timePeriod).toNat).sum, fun fuel hf => ⟨?_, ?_⟩⟩
  · omega
  · intro t ht
    have hle : (convertToUsecs (s.task t).timePeriod).toNat ≤
        (list.map fun t => (convertToUsecs (s.task t).timePeriod).toNat).sum :=
      List.single_le_sum (fun _ _ => Nat.zero_le _) _ (List.mem_map_of_mem ht)
    omega

/-- What is left of a CPU with the tasks `bin`, in thousandths. -/
def utilLeft (s : KState) (bin : List Tid) : ℤ := 1000 - (bin.map fun t => (utilCt s t).util).sum

/-- The per-CPU lists as `clear_cpu_lists` leaves them. -/
structure Cleared (s : KState) : Prop where
  lists : CpuKept s fun _ => []
  util : ∀ cpu < maxBins, s.cpuUtil cpu = 1000

/-- The packing of `list` has got as far as `k`, with `cl` on the CPUs and `rem` to come, and
`cpu_util` says what is left of each CPU. -/
structure Loaded (s : KState) (list : List Tid) (k : Packing) (cl : ℕ → List Tid)
    (rem : List TaskCt) : Prop extends Filled s k cl, Pending s cl rem where
  listed : ∀ cpu, ∀ t ∈ cl cpu, t ∈ list
  ahead : ∀ d ∈ rem, d.task ∈ list
  util : ∀ cpu < maxBins, k.st.cpuUtil cpu = utilLeft s (cl cpu)

section Loaded

variable {s : KState} {list : List Tid} {fuel cpu : ℕ} {k k₀ k' : Packing} {cl : ℕ → List Tid}
  {c : TaskCt} {rem : List TaskCt}

theorem loaded_start (hk : Kept s list) (hc : Cleared s) (scheme : ℕ) :
    Loaded s list (packStart scheme s) (fun _ => []) (utilOrder s list) where
  toFilled := filled_start hc.lists scheme
  toPending := pending_start hk
  listed := fun _ _ ht => nomatch ht
  ahead := fun _ hd => (utilOrder_tasks s list).mem_iff.1 (List.mem_map_of_mem hd)
  util := hc.util

/-- One more bin counts as open. -/
theorem Loaded.openBin (h : Loaded s list k cl rem) (hroom : k.currentBins + 1 ≤ maxBins) :
    Loaded s list { k with currentBins := k.currentBins + 1 } cl rem where
  kept := h.kept
  frame := h.frame
  opened := ⟨Nat.lt_succ_of_lt h.opened.prev, hroom⟩
  fresh := fun cpu hcpu => h.fresh cpu (Nat.le_of_succ_le hcpu)
  toPending := h.toPending
  listed := h.listed
  ahead := h.ahead
  util := h.util

variable (hres : ∀ t ∈ list, Unscaled (s.task t)) (hfuel : Ample s list fuel)

include hres in
theorem unscaled_wf {t : Tid} (ht : t ∈ list) :
    0 ≤ (utilCt s t).budget ∧ 1 ≤ (utilCt s t).period ∧ (utilCt s t).budget < (utilCt s t).period := by
  have hpos := (hres t ht).pos
  have hlt := (hres t ht).lt
  exact ⟨hpos.le, show 1 ≤ convertToUsecs (s.task t).timePeriod by omega, hlt⟩

include hres in
theorem util_nonneg {t : Tid} (ht : t ∈ list) : 0 ≤ (utilCt s t).util := by
  obtain ⟨hb, hp, -⟩ := unscaled_wf hres ht
  refine Int.ediv_nonneg (Int.mul_nonneg hb (by decide)) ?_
  have hp' : 1 ≤ (ctOf s t).period := hp
  omega

include hres in
theorem Loaded.utilLeft_le (h : Loaded s list k cl rem) (cpu : ℕ) : utilLeft s (cl cpu) ≤ 1000 := by
  have hsum : 0 ≤ ((cl cpu).map fun t => (utilCt s t).util).sum := by
    refine List.sum_nonneg fun v hv => ?_
    obtain ⟨t, ht, rfl⟩ := List.mem_map.1 hv
    exact util_nonneg hres (h.listed cpu t ht)
  rw [utilLeft]
  omega

theorem Loaded.length_le (h : Loaded s list k cl rem) (cpu : ℕ) : (cl cpu).length ≤ list.length :=
  ((h.kept.nodup cpu).subperm fun t ht => h.listed cpu t ht).length_le

include hres in
/-- A task fits on an empty CPU. -/
theorem Loaded.admits_of_nil (h : Loaded s list k cl (c :: rem)) (hnil : cl cpu = []) :
    Admits s (cl cpu) c := by
  obtain ⟨hb, hp, hlt⟩ := unscaled_wf hres (h.ahead c List.mem_cons_self)
  rw [← h.entry c List.mem_cons_self] at hb hp hlt
  rw [Admits, if_pos hnil, scaleUpFactor, Int.tdiv_eq_ediv_of_nonneg (by omega)]
  exact Int.ediv_le_of_le_mul (by omega) (by omega)

include hres hfuel in
/-- The verdict on the way always comes. -/
theorem Loaded.check (h : Loaded s list k cl (c :: rem)) (cpu : ℕ) :
    ∃ b, checkAdmissionPerCpu fuel c.budget c.period cpu k.st = .ok b := by
  by_cases hnil : cl cpu = []
  · have hsize : k.st.perCpuListSize cpu = 0 := by
      rw [h.kept.size, hnil]
      rfl
    simp only [checkAdmissionPerCpu, hsize, if_true]
    exact ⟨_, rfl⟩
  · have hsize : k.st.perCpuListSize cpu ≠ 0 := by
      rw [h.kept.size]
      exact fun h0 => hnil (List.eq_nil_of_length_eq_zero h0)
    have hlen := h.length_le cpu
    have hturns := hfuel.turns
    set arr := insertCt { budget := c.budget, period := c.period }
      ((cl cpu).map (cpuCtOf k.st)) with harr
    -- the array holds reservations of the list
    have hentry : ∀ d ∈ arr, ∃ t ∈ list, d.budget = (utilCt s t).budget ∧
        d.period = (utilCt s t).period := by
      intro d hd
      rcases List.mem_cons.1 (insertCt_perm.mem_iff.1 hd) with rfl | hd
      · refine ⟨c.task, h.ahead c List.mem_cons_self, ?_⟩
        rw [← h.entry c List.mem_cons_self]
        exact ⟨rfl, rfl⟩
      · obtain ⟨t, ht, rfl⟩ := List.mem_map.1 hd
        refine ⟨t, h.listed cpu t ht, ?_⟩
        rw [h.frame.cpuCtOf_eq]
        exact ⟨congrArg convertToUsecs (hres t (h.listed cpu t ht)).budget, rfl⟩
    have hw : WfCts arr := by
      intro d hd
      obtain ⟨t, ht, hb, hp⟩ := hentry d hd
      obtain ⟨hb', hp', -⟩ := unscaled_wf hres ht
      exact ⟨hb ▸ hb', hp ▸ hp'⟩
    obtain ⟨v, hv⟩ : ∃ v, checkAdmissionList fuel arr arr.length = some v := by
      refine checkFrom_isSome fun i _ hi => ?_
      have hi' : i < arr.length := by omega
      obtain ⟨t, ht, -, hp⟩ := hentry _ (getD_mem hi')
      have hper : (arr.getD i default).period.toNat + 1 < fuel := by
        rw [hp]
        exact hfuel.periods t ht
      obtain ⟨r, hr, -⟩ := rtTest_spec hw hi' hper
      exact ⟨r, hr⟩
    have hwalk : k.st.perCpuTasks fuel cpu = .ok (cl cpu) := by
      rw [k.st.perCpuTasks_eq (h.kept.isRing hnil).traverses, if_pos (by omega)]
    have harrlen : k.st.perCpuListSize cpu + 1 = arr.length := by
      rw [harr, insertCt, List.orderedInsert_length, List.length_map, h.kept.size]
    refine ⟨v, ?_⟩
    simp only [checkAdmissionPerCpu, if_neg hsize, hwalk, ok_bind, ctArray, List.length_map]
    rw [if_pos (h.kept.size cpu).symm]
    show ofOption k.st (checkAdmissionList fuel arr (k.st.perCpuListSize cpu + 1)) = .ok v
    rw [harrlen, hv]
    rfl

/-- `check_admission_per_cpu` admits the task to the CPU now. -/
def Accepts (fuel : ℕ) (c : TaskCt) (k : Packing) (cpu : ℕ) : Prop :=
  checkAdmissionPerCpu fuel c.budget c.period cpu k.st = .ok true

/-- `check_admission_per_cpu` refuses it. -/
def Refuses (fuel : ℕ) (c : TaskCt) (k : Packing) (cpu : ℕ) : Prop :=
  checkAdmissionPerCpu fuel c.budget c.period cpu k.st = .ok false

include hres hfuel in
theorem Loaded.accepts_iff (h : Loaded s list k cl (c :: rem)) :
    Accepts fuel c k cpu ↔ Admits s (cl cpu) c := by
  obtain ⟨b, hb⟩ := h.check hres hfuel cpu
  rw [← h.check_iff hb, Accepts, hb]
  exact ⟨fun heq => Except.ok.inj heq, fun heq => congrArg _ heq⟩

include hres hfuel in
theorem Loaded.refuses_iff (h : Loaded s list k cl (c :: rem)) :
    Refuses fuel c k cpu ↔ ¬ Admits s (cl cpu) c := by
  obtain ⟨b, hb⟩ := h.check hres hfuel cpu
  rw [← h.check_iff hb, Bool.not_eq_true, Refuses, hb]
  exact ⟨fun heq => Except.ok.inj heq, fun heq => congrArg _ heq⟩

/-! ### A placement -/

theorem utilLeft_insert (s : KState) (t : Tid) (bin : List Tid) :
    utilLeft s (insertByPeriod s.periods t bin) = utilLeft s bin - (utilCt s t).util := by
  have hperm : (insertByPeriod s.periods t bin).Perm (t :: bin) := insertByPeriod_perm
  have hsum := (hperm.map fun u => (utilCt s u).util).sum_eq
  rw [List.map_cons, List.sum_cons] at hsum
  rw [utilLeft, utilLeft, hsum]
  omega

/-- The task at turn has been put on an open CPU. -/
theorem Loaded.placed (h : Loaded s list k cl (c :: rem)) (hplace : place fuel c cpu k₀ = .ok k')
    (hst : k₀.st = k.st) (hopened : Opened k₀) (hmono : k.currentBins ≤ k₀.currentBins)
    (hcpu : cpu < k₀.currentBins) : Loaded s list k' (put s cl c.task cpu) rem := by
  obtain ⟨hbins, hprev⟩ := place_bins hplace
  have hopened' : Opened k' := by
    refine ⟨?_, ?_⟩
    · rw [hbins, hprev]
      exact hopened.prev
    · rw [hbins]
      exact hopened.max
  refine ⟨h.toFilled.place h.toPending hplace hst rfl hopened' (hbins ▸ hmono) (hbins ▸ hcpu),
    h.toPending.put cpu, fun d t ht => ?_, fun d hd => h.ahead d (List.mem_cons_of_mem _ hd),
    fun d hd => ?_⟩
  · rcases mem_put.1 ht with ⟨-, rfl⟩ | ht
    · exact h.ahead c List.mem_cons_self
    · exact h.listed d t ht
  · rw [place_util hplace, hst, put]
    by_cases hdc : d = cpu
    · subst hdc
      rw [Function.update_self, Function.update_self, utilLeft_insert, h.util d hd,
        ← h.entry c List.mem_cons_self]
    · rw [Function.update_of_ne hdc, Function.update_of_ne hdc]
      exact h.util d hd

include hfuel in
/-- With enough turns it always is. -/
theorem Loaded.place (h : Loaded s list k cl (c :: rem)) (hst : k₀.st = k.st) (hopened : Opened k₀)
    (hmono : k.currentBins ≤ k₀.currentBins) (hcpu : cpu < k₀.currentBins) :
    ∃ k', place fuel c cpu k₀ = .ok k' ∧ Loaded s list k' (put s cl c.task cpu) rem ∧
      k'.currentBins = k₀.currentBins := by
  have hoff := h.off c List.mem_cons_self
  obtain ⟨k', hplace⟩ : ∃ k', RtSched.place fuel c cpu k₀ = .ok k' := by
    have hmask := placeMask_quiet c cpu k₀
    have hkept : CpuKept k₀.st cl := by
      rw [hst]
      exact h.kept
    have hlen := h.length_le cpu
    have hturns := hfuel.turns
    obtain ⟨s', hs'⟩ := addTaskToCpu_returns (hkept.of_registry hmask.cpuRegistry) hoff
      (show (cl cpu).length < fuel by omega)
    exact ⟨_, bind_eq_ok.2 ⟨s', hs', rfl⟩⟩
  exact ⟨k', hplace, h.placed hplace hst hopened hmono hcpu, (place_bins hplace).1⟩

end Loaded

/-! ### The turns -/

/-- The task `c` has its turn in state `k`, with outcome `x`, when the tasks `rem` are packed from
`k₀` on. -/
inductive Turn (fuel scheme : ℕ) (c : TaskCt) (k : Packing) (x : Packing × Bool) :
    List TaskCt → Packing → Prop
  | here {rem : List TaskCt} (h : packOne fuel scheme c k = .ok x) :
      Turn fuel scheme c k x (c :: rem) k
  | later {d : TaskCt} {rem : List TaskCt} {k₀ k₁ : Packing}
      (h : packOne fuel scheme d k₀ = .ok (k₁, true)) (hrest : Turn fuel scheme c k x rem k₁) :
      Turn fuel scheme c k x (d :: rem) k₀

/-- The turns of a call of `bin_packing`. -/
def PackTurn (fuel scheme : ℕ) (s : KState) (list : List Tid) (c : TaskCt) (k : Packing)
    (x : Packing × Bool) : Prop :=
  Turn fuel scheme c k x (utilOrder s list) (packStart scheme s)

/-- The task has been put on the list of `cpu`, and the other lists are as they were. -/
def PutOn (c : TaskCt) (cpu : ℕ) (k k' : Packing) : Prop :=
  ∃ cl, (∀ d, OnCpuList k.st d (cl d)) ∧ ∀ d, OnCpuList k'.st d (put k.st cl c.task cpu d)

section Turns

variable {fuel scheme : ℕ} {s : KState} {list : List Tid} {c d : TaskCt} {k k₀ k' : Packing}
  {x y : Packing × Bool} {rem : List TaskCt} {cl : ℕ → List Tid}

theorem Turn.packOne_eq (h : Turn fuel scheme c k x rem k₀) : packOne fuel scheme c k = .ok x := by
  induction h with
  | here h => exact h
  | later _ _ ih => exact ih

/-- The first turn, and the rest of them. -/
theorem forall_turn_cons {P : TaskCt → Packing → Packing × Bool → Prop}
    (hx : packOne fuel scheme d k₀ = .ok x) :
    (∀ c k y, Turn fuel scheme c k y (d :: rem) k₀ → P c k y) ↔
      P d k₀ x ∧ (x.2 = true → ∀ c k y, Turn fuel scheme c k y rem x.1 → P c k y) := by
  constructor
  · refine fun h => ⟨h d k₀ x (.here hx), fun htrue c k y hturn => h c k y (.later ?_ hturn)⟩
    rw [hx, ← htrue]
  · rintro ⟨hfirst, hrest⟩ c k y hturn
    cases hturn with
    | here h =>
      rw [hx] at h
      obtain rfl := Except.ok.inj h
      exact hfirst
    | later h hturn =>
      rw [hx] at h
      obtain rfl := Except.ok.inj h
      exact hrest rfl c k y hturn

/-- The loop runs to its end exactly when every turn places its task. -/
theorem packAll_eq_true_iff (h : packAll fuel scheme rem k₀ = .ok x) :
    x.2 = true ↔ ∀ c k y, Turn fuel scheme c k y rem k₀ → y.2 = true := by
  induction rem generalizing k₀ with
  | nil =>
    obtain rfl := Except.ok.inj h
    refine iff_of_true rfl fun c k y hturn => ?_
    cases hturn
  | cons d rem ih =>
    obtain ⟨⟨k', fits⟩, hone, h⟩ := bind_eq_ok.1 h
    rw [forall_turn_cons hone]
    cases fits with
    | false =>
      obtain rfl := Except.ok.inj h
      exact iff_of_false Bool.false_ne_true fun h => Bool.false_ne_true h.1
    | true =>
      rw [ih h]
      exact ⟨fun h => ⟨rfl, fun _ => h⟩, fun h => h.2 rfl⟩

/-- It fails if one turn fails. -/
theorem packAll_eq_false_iff (h : packAll fuel scheme rem k₀ = .ok x) :
    x.2 = false ↔ ∃ c k y, Turn fuel scheme c k y rem k₀ ∧ y.2 = false := by
  rw [← Bool.not_eq_true, packAll_eq_true_iff h]
  push Not
  simp only [Bool.not_eq_true]

/-- The number of bins is 0 only where the packing has failed. -/
theorem bins_eq_zero_iff (hopen : x.2 = true → 0 < x.1.currentBins) :
    (if x.2 then x.1.currentBins else 0) = 0 ↔ x.2 = false := by
  cases hfits : x.2 with
  | true =>
    have hpos := hopen hfits
    rw [if_pos rfl]
    exact iff_of_false (by omega) (Ne.symm Bool.false_ne_true)
  | false => exact iff_of_true rfl rfl

/-- If it succeeds, every task has had its turn. -/
theorem exists_turn (h : packAll fuel scheme rem k₀ = .ok x) (htrue : x.2 = true) (hc : c ∈ rem) :
    ∃ k y, Turn fuel scheme c k y rem k₀ := by
  induction rem generalizing k₀ with
  | nil => cases hc
  | cons d rem ih =>
    obtain ⟨⟨k', fits⟩, hone, h⟩ := bind_eq_ok.1 h
    cases fits with
    | false =>
      obtain rfl := Except.ok.inj h
      cases htrue
    | true =>
      rcases List.mem_cons.1 hc with rfl | hc
      · exact ⟨k₀, _, .here hone⟩
      · obtain ⟨k, y, hturn⟩ := ih h hc
        exact ⟨k, y, .later hone hturn⟩

/-- **The rule for the loop.**  If every turn comes back and, when it places its task, keeps `I`, the
whole loop comes back. -/
theorem packAll_returns {I : Packing → (ℕ → List Tid) → List TaskCt → Prop}
    (hstep : ∀ c rem k cl, I k cl (c :: rem) → ∃ x, packOne fuel scheme c k = .ok x ∧
      (x.2 = true → ∃ cl', I x.1 cl' rem)) (hI : I k cl rem) :
    ∃ x, packAll fuel scheme rem k = .ok x ∧ (x.2 = true → ∃ cl', I x.1 cl' []) := by
  induction rem generalizing k cl with
  | nil => exact ⟨(k, true), rfl, fun _ => ⟨cl, hI⟩⟩
  | cons c rem ih =>
    obtain ⟨⟨k', fits⟩, hone, hnext⟩ := hstep c rem k cl hI
    cases fits with
    | false => exact ⟨(k', false), bind_eq_ok.2 ⟨_, hone, rfl⟩, fun h => absurd h Bool.false_ne_true⟩
    | true =>
      obtain ⟨cl', hI'⟩ := hnext rfl
      obtain ⟨x, hx, hend⟩ := ih hI'
      exact ⟨x, bind_eq_ok.2 ⟨_, hone, hx⟩, hend⟩

/-- Every turn is taken in a state with `I`. -/
theorem Turn.inv {I : Packing → (ℕ → List Tid) → List TaskCt → Prop}
    (hstep : ∀ c rem k cl, I k cl (c :: rem) → ∃ x, packOne fuel scheme c k = .ok x ∧
      (x.2 = true → ∃ cl', I x.1 cl' rem))
    (h : Turn fuel scheme c k x rem k₀) (hI : I k₀ cl rem) : ∃ cl' rem', I k cl' (c :: rem') := by
  induction h generalizing cl with
  | @here rem h => exact ⟨cl, rem, hI⟩
  | later hone _ ih =>
    obtain ⟨y, hy, hnext⟩ := hstep _ _ _ _ hI
    rw [hone] at hy
    obtain rfl := Except.ok.inj hy
    obtain ⟨cl', hI'⟩ := hnext rfl
    exact ih hI'

theorem Loaded.putOn {cpu : ℕ} (h : Loaded s list k cl (c :: rem))
    (h' : Loaded s list k' (put s cl c.task cpu) rem) : PutOn c cpu k k' := by
  refine ⟨cl, h.kept.onCpuList, ?_⟩
  rw [h.frame.put_eq]
  exact h'.kept.onCpuList

/-- The lists tell where the task has been put. -/
theorem Loaded.putOn_unique {cpu b : ℕ} (h : Loaded s list k cl (c :: rem))
    (h' : Loaded s list k' (put s cl c.task b) rem) (hput : PutOn c cpu k k') : cpu = b := by
  obtain ⟨cl', -, hlists⟩ := hput
  have heq := (hlists cpu).unique (h'.kept.onCpuList cpu)
  have hmem : c.task ∈ put k.st cl' c.task cpu cpu := mem_put.2 (Or.inl ⟨rfl, rfl⟩)
  rw [heq] at hmem
  rcases mem_put.1 hmem with ⟨hcpu, -⟩ | hmem
  · exact hcpu
  · exact absurd hmem (h.off c List.mem_cons_self cpu)

end Turns

/-! ### First fit -/

/-- What a turn of first fit is to do: the task goes to the lowest-numbered of the four CPUs that
admits it. -/
def FirstFitTurn (fuel : ℕ) (c : TaskCt) (k : Packing) (x : Packing × Bool) : Prop :=
  (∃ cpu < maxBins, Accepts fuel c k cpu ∧ (∀ d < cpu, Refuses fuel c k d) ∧ PutOn c cpu k x.1 ∧
    x.2 = true) ∨
  (∀ cpu < maxBins, Refuses fuel c k cpu) ∧ x.2 = false

/-- `top` is the highest CPU with a task. -/
def HighestUsed (s : KState) (top : ℕ) : Prop :=
  (∃ l, OnCpuList s top l ∧ l ≠ []) ∧ ∀ cpu, top < cpu → OnCpuList s cpu []

/-- First fit decreasing, for the tasks of `list`. -/
structure FirstFitDecreasing (fuel : ℕ) (s : KState) (list : List Tid) : Prop where
  order : sortPeriodicTasklist fuel s = .ok (utilOrder s list)
  decreasing : (utilOrder s list).Pairwise fun a b => b.util ≤ a.util
  stable : ∀ v, (utilOrder s list).filter (fun c => decide (c.util = v)) =
    (list.map (utilCt s)).filter fun c => decide (c.util = v)
  turns : ∀ c k x, PackTurn fuel 0 s list c k x → FirstFitTurn fuel c k x
  result : ∃ s' bins, binPacking fuel 0 s = .ok (s', bins) ∧
    (bins = 0 ↔ ∃ c k x, PackTurn fuel 0 s list c k x ∧ ∀ cpu < maxBins, Refuses fuel c k cpu) ∧
    (bins ≠ 0 → (∀ t ∈ list, ∃ c k x, PackTurn fuel 0 s list c k x ∧ c.task = t) ∧
      ∃ top, bins = top + 1 ∧ HighestUsed s' top)

section FirstFit

variable {s : KState} {list : List Tid} {fuel : ℕ} {k : Packing} {cl : ℕ → List Tid}
  {c : TaskCt} {rem : List TaskCt}

/-- What a scan of a stretch of CPUs finds. -/
theorem firstFit_scan {a m : ℕ} {r : Option ℕ}
    (h : firstFit fuel c k.st (List.range' a m) = .ok r) :
    (∃ j, r = some j ∧ a ≤ j ∧ j < a + m ∧ Accepts fuel c k j ∧
      ∀ d, a ≤ d → d < j → Refuses fuel c k d) ∨
    r = none ∧ ∀ d, a ≤ d → d < a + m → Refuses fuel c k d := by
  induction m generalizing a with
  | zero =>
    obtain rfl := Except.ok.inj h
    exact Or.inr ⟨rfl, fun d h1 h2 => by omega⟩
  | succ m ih =>
    rw [List.range'_succ] at h
    obtain ⟨b, hb, h⟩ := bind_eq_ok.1 h
    cases b with
    | true =>
      obtain rfl := Except.ok.inj h
      exact Or.inl ⟨a, rfl, le_rfl, by omega, hb, fun d h1 h2 => by omega⟩
    | false =>
      -- `a` itself joins those that refuse
      have hfrom : ∀ d, a ≤ d → (a + 1 ≤ d → Refuses fuel c k d) → Refuses fuel c k d := by
        intro d hd hrest
        rcases Nat.eq_or_lt_of_le hd with rfl | hlt
        · exact hb
        · exact hrest hlt
      rcases ih h with ⟨j, hj, haj, hjm, hacc, href⟩ | ⟨hnone, href⟩
      · exact Or.inl ⟨j, hj, by omega, by omega, hacc,
          fun d h1 h2 => hfrom d h1 fun h => href d h h2⟩
      · exact Or.inr ⟨hnone, fun d h1 h2 => hfrom d h1 fun h => href d h (by omega)⟩

theorem firstFit_returns (hcheck : ∀ cpu, ∃ b,
      checkAdmissionPerCpu fuel c.budget c.period cpu k.st = .ok b) (js : List ℕ) :
    ∃ r, firstFit fuel c k.st js = .ok r := by
  induction js with
  | nil => exact ⟨none, rfl⟩
  | cons j js ih =>
    obtain ⟨b, hb⟩ := hcheck j
    rw [firstFit, hb]
    cases b with
    | true => exact ⟨some j, rfl⟩
    | false => exact ih

/-- The scan of a stretch of CPUs. -/
theorem firstFit_range (hcheck : ∀ cpu, ∃ b,
      checkAdmissionPerCpu fuel c.budget c.period cpu k.st = .ok b) (a m : ℕ) :
    (∃ j, a ≤ j ∧ j < a + m ∧ firstFit fuel c k.st (List.range' a m) = .ok (some j) ∧
      Accepts fuel c k j ∧ ∀ d, a ≤ d → d < j → Refuses fuel c k d) ∨
    firstFit fuel c k.st (List.range' a m) = .ok none ∧
      ∀ d, a ≤ d → d < a + m → Refuses fuel c k d := by
  obtain ⟨r, hr⟩ := firstFit_returns hcheck (List.range' a m)
  rcases firstFit_scan hr with ⟨j, rfl, haj, hjm, hacc, href⟩ | ⟨rfl, href⟩
  · exact Or.inl ⟨j, haj, hjm, hr, hacc, href⟩
  · exact Or.inr ⟨hr, href⟩

variable (hres : ∀ t ∈ list, Unscaled (s.task t)) (hfuel : Ample s list fuel)

include hres hfuel in
/-- A turn of first fit, with a turn of the outer loop for every bin that can still be opened. -/
theorem packFirstFit_turn {n : ℕ} (h : Loaded s list k cl (c :: rem))
    (hn : maxBins < n + k.currentBins) :
    ∃ x, packFirstFit fuel c n k = .ok x ∧
      ((∃ cpu < maxBins, Admits s (cl cpu) c ∧ (∀ d < cpu, ¬ Admits s (cl d) c) ∧
        Loaded s list x.1 (put s cl c.task cpu) rem ∧
        x.1.currentBins = max k.currentBins (cpu + 1) ∧ x.2 = true) ∨
      (∀ cpu < maxBins, ¬ Admits s (cl cpu) c) ∧ x.2 = false) := by
  have hmax := h.opened.max
  induction n generalizing k with
  | zero => omega
  | succ n ih =>
    have hcheck := h.check hres hfuel
    rw [packFirstFit, List.range_eq_range']
    rcases firstFit_range hcheck 0 k.currentBins with
      ⟨j, -, hj, hscan, hacc, href⟩ | ⟨hscan, href⟩
    · rw [Nat.zero_add] at hj
      obtain ⟨k', hplace, hL, hbins⟩ := h.place hfuel rfl h.opened le_rfl hj
      rw [hscan]
      refine ⟨(k', true), bind_eq_ok.2 ⟨_, rfl, bind_eq_ok.2 ⟨k', hplace, rfl⟩⟩, Or.inl ⟨j, by omega,
        (h.accepts_iff hres hfuel).1 hacc, fun d hd => ?_, hL, ?_, rfl⟩⟩
      · exact (h.refuses_iff hres hfuel).1 (href d (Nat.zero_le d) hd)
      · rw [hbins, max_eq_left (by omega)]
    · have hrefuse : ∀ d < k.currentBins, ¬ Admits s (cl d) c := by
        intro d hd
        exact (h.refuses_iff hres hfuel).1 (href d (Nat.zero_le d) (by omega))
      rw [hscan]
      by_cases hroom : k.currentBins + 1 > maxBins
      · refine ⟨({ k with currentBins := k.currentBins + 1 }, false), ?_,
          Or.inr ⟨fun cpu hcpu => hrefuse cpu (by omega), rfl⟩⟩
        simp only [ok_bind, if_pos hroom]
        rfl
      · obtain ⟨x, hx, hcases⟩ := ih (h.openBin (by omega)) (by dsimp only; omega) (by dsimp only; omega)
        refine ⟨x, ?_, hcases.imp_left ?_⟩
        · simp only [ok_bind, if_neg hroom]
          exact hx
        · rintro ⟨cpu, hcpu, hadm, hfirst, hL, hbins, htrue⟩
          refine ⟨cpu, hcpu, hadm, hfirst, hL, ?_, htrue⟩
          -- the CPUs that were open have refused
          have hle : k.currentBins ≤ cpu := by
            by_contra hlt
            exact hrefuse cpu (not_le.1 hlt) hadm
          rw [hbins]
          dsimp only
          omega

/-- On the way `current_bins` is one more than the highest CPU in use, once there is one. -/
structure FirstFitInv (s : KState) (list : List Tid) (k : Packing) (cl : ℕ → List Tid)
    (rem : List TaskCt) : Prop extends Loaded s list k cl rem where
  top : cl (k.currentBins - 1) = [] → k.currentBins = 1 ∧ rem = utilOrder s list

theorem put_ne_nil (s : KState) (cl : ℕ → List Tid) (t : Tid) (cpu : ℕ) : put s cl t cpu cpu ≠ [] :=
  List.ne_nil_of_mem (mem_put.2 (Or.inl ⟨rfl, rfl⟩))

theorem FirstFitInv.put {cpu : ℕ} {k' : Packing} (h : FirstFitInv s list k cl (c :: rem))
    (hL : Loaded s list k' (put s cl c.task cpu) rem)
    (hbins : k'.currentBins = max k.currentBins (cpu + 1)) :
    FirstFitInv s list k' (RtSched.put s cl c.task cpu) rem := by
  refine ⟨hL, fun hnil => ?_⟩
  have hopen := h.opened.prev
  rw [hbins] at hnil
  by_cases htop : max k.currentBins (cpu + 1) - 1 = cpu
  · rw [htop] at hnil
    exact absurd hnil (put_ne_nil s cl c.task cpu)
  · -- the top is where it was, and was in use
    rw [RtSched.put, Function.update_of_ne htop, max_eq_left (by omega)] at hnil
    have hone := (h.top hnil).1
    omega

include hres hfuel in
theorem FirstFitInv.step (h : FirstFitInv s list k cl (c :: rem)) :
    ∃ x, packOne fuel 0 c k = .ok x ∧ FirstFitTurn fuel c k x ∧
      (x.2 = true → ∃ cl', FirstFitInv s list x.1 cl' rem) := by
  have hL := h.toLoaded
  have hturns := hfuel.turns
  obtain ⟨x, hx, hcases⟩ := packFirstFit_turn hres hfuel hL (show maxBins < fuel + k.currentBins by
    omega)
  refine ⟨x, hx, ?_⟩
  rcases hcases with ⟨cpu, hcpu, hadm, hfirst, hL', hbins, htrue⟩ | ⟨hrefuse, hfalse⟩
  · refine ⟨Or.inl ⟨cpu, hcpu, (hL.accepts_iff hres hfuel).2 hadm, fun d hd => ?_, hL.putOn hL',
      htrue⟩, fun _ => ⟨_, h.put hL' hbins⟩⟩
    exact (hL.refuses_iff hres hfuel).2 (hfirst d hd)
  · refine ⟨Or.inr ⟨fun cpu hcpu => ?_, hfalse⟩, fun htrue => ?_⟩
    · exact (hL.refuses_iff hres hfuel).2 (hrefuse cpu hcpu)
    · rw [hfalse] at htrue
      cases htrue

/-- The call comes back when its loop over the tasks does. -/
theorem binPacking_returns {scheme : ℕ} {x : Packing × Bool} (hk : Kept s list) (hne : list ≠ [])
    (hsort : sortPeriodicTasklist fuel s = .ok (utilOrder s list))
    (hx : packAll fuel scheme (utilOrder s list) (packStart scheme s) = .ok x) :
    binPacking fuel scheme s = .ok (x.1.st, if x.2 then x.1.currentBins else 0) := by
  have hsize : ¬ s.periodicTasksSize ≤ 0 := by
    rw [hk.size]
    exact not_le.2 (List.length_pos_iff.2 hne)
  rw [binPacking, if_neg hsize, hsort, ok_bind]
  exact bind_eq_ok.2 ⟨x, hx, rfl⟩

theorem not_refuses {cpu : ℕ} (h : Accepts fuel c k cpu) : ¬ Refuses fuel c k cpu := by
  intro h'
  cases h.symm.trans h'

/-- The tasks a packing has turns for. -/
theorem exists_packTurn {scheme : ℕ} {x : Packing × Bool}
    (hx : packAll fuel scheme (utilOrder s list) (packStart scheme s) = .ok x) (htrue : x.2 = true)
    {t : Tid} (ht : t ∈ list) : ∃ c k x, PackTurn fuel scheme s list c k x ∧ c.task = t := by
  obtain ⟨c, hc, rfl⟩ := List.mem_map.1 ((utilOrder_tasks s list).mem_iff.2 ht)
  obtain ⟨k, y, hturn⟩ := exists_turn hx htrue hc
  exact ⟨c, k, y, hturn, rfl⟩

/-- First fit gives a task up exactly if all CPUs refuse it. -/
theorem FirstFitTurn.eq_false_iff {x : Packing × Bool} (h : FirstFitTurn fuel c k x) :
    x.2 = false ↔ ∀ cpu < maxBins, Refuses fuel c k cpu := by
  rcases h with ⟨cpu, hcpu, hacc, -, -, htrue⟩ | ⟨hrefuse, hfalse⟩
  · rw [htrue]
    exact iff_of_false (Ne.symm Bool.false_ne_true) fun h => not_refuses hacc (h cpu hcpu)
  · exact iff_of_true hfalse hrefuse

/-- When all tasks are placed, the last bin opened is the highest CPU with a task. -/
theorem FirstFitInv.highestUsed (h : FirstFitInv s list k cl []) (hne : list ≠ []) :
    HighestUsed k.st (k.currentBins - 1) := by
  have hopen := h.opened.prev
  refine ⟨⟨cl (k.currentBins - 1), h.kept.onCpuList _, fun hnil => hne ?_⟩, fun cpu hcpu => ?_⟩
  · have hperm := utilOrder_tasks s list
    rw [← (h.top hnil).2] at hperm
    exact List.nil_perm.1 hperm
  · rw [← h.fresh cpu (by omega)]
    exact h.kept.onCpuList cpu

end FirstFit

/-- **First fit decreasing.**  Scheme 0 takes the tasks of a non-empty list by decreasing utilisation
and gives each to the first of the four CPUs that admits it. -/
theorem binPacking_firstFit {s : KState} {list : List Tid} (hk : Kept s list) (hne : list ≠ [])
    (hc : Cleared s) (hres : ∀ t ∈ list, Unscaled (s.task t)) :
    ∃ n, ∀ fuel, n ≤ fuel → FirstFitDecreasing fuel s list := by
  obtain ⟨n, hn⟩ := exists_ample s list
  refine ⟨n, fun fuel hf => ?_⟩
  have hfuel := hn fuel hf
  have hstart : FirstFitInv s list (packStart 0 s) (fun _ => []) (utilOrder s list) :=
    ⟨loaded_start hk hc 0, fun _ => ⟨rfl, rfl⟩⟩
  have hstep : ∀ c rem k cl, FirstFitInv s list k cl (c :: rem) →
      ∃ x, packOne fuel 0 c k = .ok x ∧ (x.2 = true → ∃ cl', FirstFitInv s list x.1 cl' rem) := by
    intro c rem k cl h
    obtain ⟨x, hx, -, hnext⟩ := h.step hres hfuel
    exact ⟨x, hx, hnext⟩
  have hturns : ∀ c k x, PackTurn fuel 0 s list c k x → FirstFitTurn fuel c k x := by
    intro c k x hturn
    obtain ⟨cl, rem, h⟩ := Turn.inv hstep hturn hstart
    obtain ⟨y, hy, hfit, -⟩ := h.step hres hfuel
    rw [hturn.packOne_eq] at hy
    obtain rfl := Except.ok.inj hy
    exact hfit
  have hlen : list.length < fuel := by
    have := hfuel.turns
    omega
  have hsort := sortPeriodicTasklist_returns hk hne hlen
  obtain ⟨x, hx, hend⟩ := packAll_returns hstep hstart
  refine ⟨hsort, utilOrder_sorted s list, utilOrder_stable s list, hturns, _, _,
    binPacking_returns hk hne hsort hx, ?_, ?_⟩
  · have hopen : x.2 = true → 0 < x.1.currentBins := by
      intro hfits
      obtain ⟨cl, hI⟩ := hend hfits
      have hprev := hI.opened.prev
      omega
    rw [bins_eq_zero_iff hopen, packAll_eq_false_iff hx]
    refine exists_congr fun c => exists_congr fun k => exists_congr fun y => ?_
    exact and_congr_right fun hturn => (hturns c k y hturn).eq_false_iff
  · intro hbins
    have hfits : x.2 = true := by
      by_contra hfalse
      exact hbins (if_neg hfalse)
    obtain ⟨cl, hI⟩ := hend hfits
    have hopen := hI.opened.prev
    refine ⟨fun t ht => exists_packTurn hx hfits ht, x.1.currentBins - 1, ?_, hI.highestUsed hne⟩
    rw [if_pos hfits]
    omega

theorem listed_cleared (n : ℕ) (budget period : Tid → Timespec) :
    Cleared (listed n budget period) :=
  ⟨cpuKept_listed n budget period, fun _ _ => rfl⟩

/-- Five tasks of 600 ms in 1 s: the fifth is refused by all four CPUs. -/
theorem binPacking_firstFit_five :
    ∃ n, ∀ fuel, n ≤ fuel → FirstFitDecreasing fuel
      (listed 5 (fun _ => ⟨0, 600000000⟩) fun _ => ⟨1, 0⟩) [1, 2, 3, 4, 5] :=
  binPacking_firstFit (by decide) (by decide) (listed_cleared _ _ _) (by decide)

/-- For an empty list `bin_packing` returns 0, although no task has been refused. -/
theorem binPacking_firstFit_empty :
    ¬ ∀ (s : KState) (list : List Tid), Kept s list → Cleared s →
      (∀ t ∈ list, Unscaled (s.task t)) → ∃ n, ∀ fuel, n ≤ fuel → FirstFitDecreasing fuel s list := by
  intro hall
  have hc : Cleared (bootState [] .noPm) :=
    ⟨cpuKept_booted (booted_bootState [] .noPm), fun _ _ => rfl⟩
  obtain ⟨n, hn⟩ := hall (bootState [] .noPm) [] (kept_booted (booted_bootState [] .noPm)) hc
    (by simp)
  obtain ⟨s', bins, hpack, hzero, -⟩ := (hn n le_rfl).result
  have hbins : bins = 0 := by
    obtain ⟨-, rfl⟩ := Prod.mk.inj (Except.ok.inj hpack)
    rfl
  obtain ⟨c, k, x, hturn, -⟩ := hzero.1 hbins
  cases hturn

end RtSched
