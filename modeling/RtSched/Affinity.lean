import RtSched.RankFit

/-!
# The CPU masks (`bin_packing`)

All five loops hand one mask to `sched_setaffinity` and only ever set bits in it.  So the mask of a
task holds its own CPU and every CPU used before, and a packing pins its tasks exactly as long as it
gets by with CPU 0.

* `FirstTurn`: what a turn does while only CPU 0 is in use (`packOne_firstTurn`): the task stays
  there, the packing gives up, or the task moves to CPU 1;
* `binPacking_pins_iff`: the masks are right exactly if no task moves.
-/

namespace RtSched

open LinkRing Call

/-- Every task on a per-CPU list may run on that CPU and on no other. -/
def Pinned (s : KState) : Prop :=
  ∀ cpu bin, OnCpuList s cpu bin → ∀ t ∈ bin, (s.task t).cpusAllowed = {cpu}

/-- Budget and period of a task, in microseconds, are what `sys_setProcessBudget` checks. -/
structure Reservable (s : KState) (t : Tid) : Prop where
  nonneg : 0 ≤ (utilCt s t).budget
  period : 1 ≤ (utilCt s t).period
  le : (utilCt s t).budget ≤ (utilCt s t).period

instance (s : KState) (t : Tid) : Decidable (Reservable s t) :=
  decidable_of_iff (0 ≤ (utilCt s t).budget ∧ 1 ≤ (utilCt s t).period ∧
    (utilCt s t).budget ≤ (utilCt s t).period)
    ⟨fun ⟨h1, h2, h3⟩ => ⟨h1, h2, h3⟩, fun ⟨h1, h2, h3⟩ => ⟨h1, h2, h3⟩⟩

/-- CPU 0, with the tasks `bin`, is the first one tried and admits the task.  Scheme 4 starts with a
CPU that has the most left. -/
def Stays (scheme : ℕ) (s : KState) (bin : List Tid) (c : TaskCt) : Prop :=
  Admits s bin c ∧ (scheme = 4 → utilLeft s bin = 1000)

/-- CPU 0 refuses the task and is tried again in the place of every other CPU: under scheme 3 always,
under schemes 2 and 4 if CPU 0 has everything left. -/
def Stuck (scheme : ℕ) (s : KState) (bin : List Tid) (c : TaskCt) : Prop :=
  ¬ Admits s bin c ∧ (scheme = 3 ∨ (scheme = 2 ∨ scheme = 4) ∧ utilLeft s bin = 1000)

/-- With the tasks `bin` on CPU 0 and all other CPUs empty, the remaining tasks stay on CPU 0 one
after the other, up to the last one or to one at which the packing gives up. -/
def StaysOnFirst (scheme : ℕ) (s : KState) : List Tid → List TaskCt → Prop
  | _, [] => True
  | bin, c :: rem => Stuck scheme s bin c ∨
      Stays scheme s bin c ∧ StaysOnFirst scheme s (insertByPeriod s.periods c.task bin) rem

/-- The tasks `bin` on CPU 0 and nothing on the other CPUs. -/
def onFirst (bin : List Tid) : ℕ → List Tid := Function.update (fun _ => []) 0 bin

section First

variable {s : KState} {bin : List Tid} {t : Tid} {cpu : ℕ}

@[simp] theorem onFirst_zero : onFirst bin 0 = bin := Function.update_self ..

theorem onFirst_of_ne (h : cpu ≠ 0) : onFirst bin cpu = [] := Function.update_of_ne h ..

theorem put_onFirst : put s (onFirst bin) t 0 = onFirst (insertByPeriod s.periods t bin) := by
  rw [put, onFirst_zero, onFirst, onFirst, Function.update_idem]

end First

/-! ### What a placement writes to the tasks -/

section Place

variable {fuel cpu : ℕ} {c : TaskCt} {k k' : Packing}

theorem place_task (h : place fuel c cpu k = .ok k') (u : Tid) : k'.st.task u =
    if u = c.task then { k.st.task u with onCpu := cpu, cpusAllowed := insert cpu k.mask }
    else k.st.task u := by
  obtain ⟨s', hadd, hk'⟩ := bind_eq_ok.1 h
  obtain rfl := Except.ok.inj hk'
  rw [addTaskToCpu_eq] at hadd
  obtain ⟨links, -, hs'⟩ := bind_eq_ok.1 hadd
  obtain rfl := Except.ok.inj hs'
  show (k.st.modifyTask c.task fun p =>
    { p with onCpu := cpu, cpusAllowed := insert cpu k.mask }).task u = _
  rw [KState.modifyTask_task]

theorem place_cpusAllowed (h : place fuel c cpu k = .ok k') :
    (k'.st.task c.task).cpusAllowed = insert cpu k.mask := by
  rw [place_task h, if_pos rfl]

theorem place_other (h : place fuel c cpu k = .ok k') {u : Tid} (hu : u ≠ c.task) :
    k'.st.task u = k.st.task u := by
  rw [place_task h, if_neg hu]

theorem place_mask (h : place fuel c cpu k = .ok k') : k'.mask = insert cpu k.mask := by
  obtain ⟨s', -, hk'⟩ := bind_eq_ok.1 h
  obtain rfl := Except.ok.inj hk'
  rfl

end Place

/-! ### One turn while only CPU 0 is in use -/

/-- What a turn makes of a task while only CPU 0, with the tasks `bin`, is in use. -/
inductive FirstTurn (fuel scheme : ℕ) (s : KState) (bin : List Tid) (c : TaskCt) (k : Packing) :
    Packing × Bool → Prop
  | stays {k' : Packing} (h : Stays scheme s bin c) (hplace : place fuel c 0 k = .ok k') :
      FirstTurn fuel scheme s bin c k (k', true)
  | stuck {k' : Packing} (h : Stuck scheme s bin c) (hk' : k'.st = k.st) :
      FirstTurn fuel scheme s bin c k (k', false)
  | moves {k₀ k₁ k' : Packing} (hnot : ¬ Stays scheme s bin c) (hnot' : ¬ Stuck scheme s bin c)
      (hk₀ : k₀.st = k.st) (hmask : k₀.mask = k.mask) (hplace : place fuel c 1 k₀ = .ok k₁)
      (hk' : k'.st = k₁.st) (hopened : Opened k') (hbins : 1 < k'.currentBins) :
      FirstTurn fuel scheme s bin c k (k', true)

/-- The packing of `list` has put the tasks `bin` on CPU 0, with the right mask, and has not used
another CPU. -/
structure OnFirst (scheme : ℕ) (s : KState) (list bin : List Tid) (k : Packing)
    (rem : List TaskCt) : Prop extends Loaded s list k (onFirst bin) rem where
  bins : k.currentBins = if scheme = 4 then 4 else 1
  prevBin : k.prevBin = 0
  mask : k.mask = if bin = [] then ∅ else {0}
  pinned : ∀ t ∈ bin, (k.st.task t).cpusAllowed = {0}

section Turn

variable {fuel scheme : ℕ} {s : KState} {list bin : List Tid} {c : TaskCt} {k : Packing}
  {rem : List TaskCt} {x : Packing × Bool}

theorem Reservable.util_nonneg {t : Tid} (h : Reservable s t) : 0 ≤ (utilCt s t).util :=
  Int.ediv_nonneg (Int.mul_nonneg h.nonneg (by decide)) (le_trans (by decide) h.period)

/-- A task fits on an empty CPU. -/
theorem Reservable.admits_nil {t : Tid} (h : Reservable s t) : Admits s [] (utilCt s t) := by
  have hb := h.nonneg
  have hp := h.period
  have hle := h.le
  rw [Admits, if_pos rfl, scaleUpFactor, Int.tdiv_eq_ediv_of_nonneg (by omega)]
  exact Int.ediv_le_of_le_mul (by omega) (by omega)

variable (hres : ∀ t ∈ list, Reservable s t)

include hres in
theorem OnFirst.admits_nil (h : OnFirst scheme s list bin k (c :: rem)) : Admits s [] c := by
  rw [h.entry c List.mem_cons_self]
  exact (hres _ (h.ahead c List.mem_cons_self)).admits_nil

include hres in
theorem OnFirst.utilLeft_le (h : OnFirst scheme s list bin k rem) : utilLeft s bin ≤ 1000 := by
  have hsum : 0 ≤ (bin.map fun t => (utilCt s t).util).sum := by
    refine List.sum_nonneg fun v hv => ?_
    obtain ⟨t, ht, rfl⟩ := List.mem_map.1 hv
    exact (hres t (h.listed 0 t (by rwa [onFirst_zero]))).util_nonneg
  rw [utilLeft]
  omega

/-- The answers of the two CPUs that matter. -/
theorem OnFirst.check_zero (h : OnFirst scheme s list bin k (c :: rem)) {b : Bool}
    (hb : checkAdmissionPerCpu fuel c.budget c.period 0 k.st = .ok b) :
    b = true ↔ Admits s bin c := by
  have hiff := h.check_iff hb
  rwa [onFirst_zero] at hiff

include hres in
theorem OnFirst.check_one (h : OnFirst scheme s list bin k (c :: rem)) {b : Bool}
    (hb : checkAdmissionPerCpu fuel c.budget c.period 1 k.st = .ok b) : b = true := by
  rw [h.check_iff hb, onFirst_of_ne one_ne_zero]
  exact h.admits_nil hres

/-- The rank of CPU 0 and CPU 1 among the first `m` CPUs. -/
theorem OnFirst.utilsLeft_of_ne {cpu : ℕ} (hcpu : cpu ≠ 0) :
    utilsLeft s (onFirst bin) cpu = 1000 := by
  rw [utilsLeft, onFirst_of_ne hcpu]
  rfl

theorem foremost_zero (bins : ℕ → ℤ) : Foremost bins 0 := fun d hd => absurd hd (Nat.not_lt_zero d)

include hres in
/-- The lowest rank is that of CPU 0. -/
theorem OnFirst.lowest (h : OnFirst scheme s list bin k rem) {m : ℕ} (hpos : 0 < m)
    (hm : m ≤ maxBins) : getUtilBin k.st.cpuUtil 0 m = some 0 := by
  rw [h.getUtilBin_eq hm]
  refine getUtilBin_zero (foremost_zero _) hpos fun d _ => ?_
  by_cases hd : d = 0
  · rw [hd]
  · rw [OnFirst.utilsLeft_of_ne hd, utilsLeft, onFirst_zero]
    exact h.utilLeft_le hres

/-- While CPU 0 has everything left, every rank is its own. -/
theorem OnFirst.any_rank (h : OnFirst scheme s list bin k rem) (hleft : utilLeft s bin = 1000)
    {m r : ℕ} (hr : r < m) (hm : m ≤ maxBins) : getUtilBin k.st.cpuUtil r m = some 0 := by
  have hall : ∀ d, utilsLeft s (onFirst bin) d = 1000 := by
    intro d
    by_cases hd : d = 0
    · rw [hd, utilsLeft, onFirst_zero, hleft]
    · exact OnFirst.utilsLeft_of_ne hd
  rw [h.getUtilBin_eq hm]
  obtain ⟨b, hb⟩ := exists_getUtilBin (utilsLeft s (onFirst bin)) hr
  have hfirst := (getUtilBin_eq_some.1 hb).2.2
  rw [hb, hfirst.unique (foremost_zero _) ((hall b).trans (hall 0).symm)]

include hres in
/-- Once CPU 0 has less left, the highest rank is that of CPU 1. -/
theorem OnFirst.highest (h : OnFirst scheme s list bin k rem) (hleft : utilLeft s bin ≠ 1000)
    {m : ℕ} (h1 : 1 < m) (hm : m ≤ maxBins) : getUtilBin k.st.cpuUtil (m - 1) m = some 1 := by
  have hle := h.utilLeft_le hres
  have hone : utilsLeft s (onFirst bin) 1 = 1000 := OnFirst.utilsLeft_of_ne one_ne_zero
  have hzero : utilsLeft s (onFirst bin) 0 = utilLeft s bin := by rw [utilsLeft, onFirst_zero]
  rw [h.getUtilBin_eq hm]
  refine getUtilBin_last (fun d hd => ?_) h1 fun d _ => ?_
  · obtain rfl : d = 0 := by omega
    rw [hone, hzero]
    exact hleft
  · rw [hone]
    by_cases hd : d = 0
    · rw [hd, hzero]
      exact hle
    · exact (OnFirst.utilsLeft_of_ne hd).le

/-- If every attempt is made on CPU 0 and it refuses, the packing gives up. -/
theorem packByUtil_gives_up {index : ℕ → ℕ → ℕ} {n j : ℕ}
    (hrefuse : ∀ b, checkAdmissionPerCpu fuel c.budget c.period 0 k.st = .ok b → b = false)
    (hrank : ∀ i, j ≤ i → i < k.currentBins →
      getUtilBin k.st.cpuUtil (index k.currentBins i) k.currentBins = some 0)
    (hnew : ∀ m, k.currentBins < m → m ≤ maxBins →
      getUtilBin k.st.cpuUtil (index m (m - 1)) m = some 0)
    (hj : j < k.currentBins) (hmax : k.currentBins ≤ maxBins)
    (h : packByUtil fuel index c n j k = .ok x) : ∃ k', x = (k', false) ∧ k'.st = k.st := by
  induction n generalizing j k with
  | zero => cases h
  | succ n ih =>
    rw [packByUtil, hrank j le_rfl hj] at h
    obtain ⟨b, hb, h⟩ := bind_eq_ok.1 h
    obtain rfl := hrefuse b hb
    simp only [Bool.false_eq_true, if_false] at h
    by_cases hlast : j + 1 = k.currentBins
    · rw [if_pos hlast] at h
      by_cases hfull : k.currentBins + 1 > maxBins
      · rw [if_pos hfull] at h
        exact ⟨_, (Except.ok.inj h).symm, rfl⟩
      · rw [if_neg hfull] at h
        refine ih (k := { k with currentBins := k.currentBins + 1 }) hrefuse (fun i h1 h2 => ?_)
          (fun m hm hmmax => hnew m (Nat.lt_of_succ_lt hm) hmmax) ?_ (not_lt.1 hfull) h
        · -- only the new bin is left to try
          dsimp only at h2 ⊢
          obtain rfl : i = k.currentBins := by omega
          exact hnew (k.currentBins + 1) (Nat.lt_succ_self _) (not_lt.1 hfull)
        · dsimp only
          omega
    · rw [if_neg hlast, if_neg (not_lt.2 hmax)] at h
      exact ih hrefuse (fun i h1 h2 => hrank i (by omega) h2) hnew (by omega) hmax h

/-- A placement on CPU 1 after at most one bin has been opened. -/
theorem FirstTurn.of_place {k₀ k₁ : Packing} {p : ℕ} (hplace : place fuel c 1 k₀ = .ok k₁)
    (hk₀ : k₀.st = k.st) (hmask : k₀.mask = k.mask) (hbins : 1 < k₀.currentBins)
    (hmax : k₀.currentBins ≤ maxBins) (hp : p ≤ 1) (hnot : ¬ Stays scheme s bin c)
    (hnot' : ¬ Stuck scheme s bin c) :
    FirstTurn fuel scheme s bin c k ({ k₁ with prevBin := p }, true) := by
  have hsame := (place_bins hplace).1
  refine .moves hnot hnot' hk₀ hmask hplace rfl ⟨?_, ?_⟩ ?_
  all_goals
    dsimp only
    omega

include hres in
/-- First fit opens CPU 1 for a task that CPU 0 refuses. -/
theorem OnFirst.packFirstFit (h : OnFirst 0 s list bin k (c :: rem)) (hno : ¬ Admits s bin c)
    {n : ℕ} (hx : packFirstFit fuel c n k = .ok x) : FirstTurn fuel 0 s bin c k x := by
  have h1 : k.currentBins = 1 := h.bins
  have hrefuse : ∀ b, checkAdmissionPerCpu fuel c.budget c.period 0 k.st = .ok b → b = false :=
    fun b hb => Bool.eq_false_iff.2 fun hb' => hno ((h.check_zero hb).1 hb')
  cases n with
  | zero => cases hx
  | succ n =>
    obtain ⟨r, hr, hx⟩ := bind_eq_ok.1 hx
    rw [h1] at hr
    obtain ⟨b, hb, hr⟩ := bind_eq_ok.1 hr
    obtain rfl := hrefuse b hb
    obtain rfl := Except.ok.inj hr
    have hroom : ¬ k.currentBins + 1 > maxBins := by
      rw [h1]
      decide
    dsimp only at hx
    rw [if_neg hroom] at hx
    cases n with
    | zero => cases hx
    | succ n =>
      obtain ⟨r, hr, hx⟩ := bind_eq_ok.1 hx
      simp only [h1] at hr
      obtain ⟨b, hb, hr⟩ := bind_eq_ok.1 hr
      obtain rfl := hrefuse b hb
      obtain ⟨b, hb, hr⟩ := bind_eq_ok.1 hr
      obtain rfl := h.check_one hres hb
      obtain rfl := Except.ok.inj hr
      obtain ⟨k', hplace, hx⟩ := bind_eq_ok.1 hx
      obtain rfl := Except.ok.inj hx
      have hprev : k'.prevBin = 0 := (place_bins hplace).2.trans h.prevBin
      exact FirstTurn.of_place (p := k'.prevBin) hplace rfl rfl (by dsimp only; omega)
        (not_lt.1 hroom) (by omega) (fun hs => hno hs.1) fun hs => by simpa using hs.2

/-- Next fit opens CPU 1 for a task that CPU 0 refuses. -/
theorem OnFirst.packNextFit (h : OnFirst 1 s list bin k (c :: rem)) (hno : ¬ Admits s bin c)
    (hx : packNextFit fuel c k = .ok x) : FirstTurn fuel 1 s bin c k x := by
  have h1 : k.currentBins = 1 := h.bins
  cases packNextFit_turn h.opened hx with
  | @fits i k' hi hrefuse hfits hplace =>
    obtain rfl : i = 0 := by omega
    rw [h.opened.scan_zero, h.prevBin] at hfits
    exact absurd ((h.check_zero hfits).1 rfl) hno
  | @fresh k' hrefuse hroom hplace =>
    rw [h1] at hplace
    exact FirstTurn.of_place (p := k.currentBins) hplace rfl rfl Nat.one_lt_two (by simp [maxBins]) h1.le
      (fun hs => hno hs.1) fun hs => by simpa using hs.2
  | leftOut hrefuse hroom =>
    rw [h1] at hroom
    exact absurd (by decide) hroom

include hres in
/-- Best fit opens CPU 1 too, if CPU 0 has less left than a new one. -/
theorem OnFirst.packBestFit (h : OnFirst 2 s list bin k (c :: rem)) (hno : ¬ Admits s bin c)
    {n : ℕ} (hx : packByUtil fuel (fun _ j => j) c n 0 k = .ok x) :
    FirstTurn fuel 2 s bin c k x := by
  have h1 : k.currentBins = 1 := h.bins
  have hrefuse : ∀ b, checkAdmissionPerCpu fuel c.budget c.period 0 k.st = .ok b → b = false :=
    fun b hb => Bool.eq_false_iff.2 fun hb' => hno ((h.check_zero hb).1 hb')
  by_cases hleft : utilLeft s bin = 1000
  · obtain ⟨k', rfl, hk'⟩ := packByUtil_gives_up hrefuse
      (fun i _ hi => h.any_rank hleft hi h.opened.max)
      (fun m hm hmax => h.any_rank hleft (by omega) hmax) (by omega) h.opened.max hx
    exact .stuck ⟨hno, Or.inr ⟨Or.inl rfl, hleft⟩⟩ hk'
  · cases n with
    | zero => cases hx
    | succ n =>
      have hlow := h.lowest hres Nat.one_pos (by decide)
      rw [packByUtil, h1, hlow] at hx
      obtain ⟨b, hb, hx⟩ := bind_eq_ok.1 hx
      obtain rfl := hrefuse b hb
      simp only [Bool.false_eq_true, if_false, if_true] at hx
      rw [if_neg (by decide)] at hx
      obtain ⟨k', hplace, rfl⟩ := packByUtil_takes hx
        (h.highest hres hleft Nat.one_lt_two (by simp [maxBins])) fun b hb => h.check_one hres hb
      have hprev : k'.prevBin = 0 := (place_bins hplace).2.trans h.prevBin
      exact FirstTurn.of_place (p := k'.prevBin) hplace rfl rfl Nat.one_lt_two (by simp [maxBins])
        (by omega)
        (fun hs => hno hs.1) fun hs => hleft (by simpa using hs.2)

include hres in
/-- Worst fit from one CPU tries CPU 0 again and again. -/
theorem OnFirst.packWorstFit (h : OnFirst 3 s list bin k (c :: rem)) (hno : ¬ Admits s bin c)
    {n : ℕ} (hx : packByUtil fuel (fun m j => m - 1 - j) c n 0 k = .ok x) :
    FirstTurn fuel 3 s bin c k x := by
  have h1 : k.currentBins = 1 := h.bins
  have hrefuse : ∀ b, checkAdmissionPerCpu fuel c.budget c.period 0 k.st = .ok b → b = false :=
    fun b hb => Bool.eq_false_iff.2 fun hb' => hno ((h.check_zero hb).1 hb')
  have hlast : ∀ m, k.currentBins ≤ m → m ≤ maxBins →
      getUtilBin k.st.cpuUtil (m - 1 - (m - 1)) m = some 0 := by
    intro m hm hmax
    rw [Nat.sub_self]
    exact h.lowest hres (by omega) hmax
  have hopen : ∀ i, 0 ≤ i → i < k.currentBins →
      getUtilBin k.st.cpuUtil (k.currentBins - 1 - i) k.currentBins = some 0 := by
    intro i _ hi
    obtain rfl : i = k.currentBins - 1 := by omega
    exact hlast _ le_rfl h.opened.max
  obtain ⟨k', rfl, hk'⟩ := packByUtil_gives_up hrefuse hopen (fun m hm hmax => hlast m hm.le hmax)
    (by omega) h.opened.max hx
  exact .stuck ⟨hno, Or.inl rfl⟩ hk'

include hres in
/-- Worst fit over all CPUs starts with CPU 1 as soon as CPU 0 has less left. -/
theorem OnFirst.packWorstFitAll (h : OnFirst 4 s list bin k (c :: rem))
    {n : ℕ} (hx : packByUtil fuel (fun m j => m - 1 - j) c n 0 k = .ok x) :
    FirstTurn fuel 4 s bin c k x := by
  have h4 : k.currentBins = 4 := h.bins
  by_cases hleft : utilLeft s bin = 1000
  · have hrank : ∀ i, i < k.currentBins →
        getUtilBin k.st.cpuUtil (k.currentBins - 1 - i) k.currentBins = some 0 :=
      fun i hi => h.any_rank hleft (by omega) h.opened.max
    by_cases hadm : Admits s bin c
    · obtain ⟨k', hplace, rfl⟩ := packByUtil_takes hx (hrank 0 (by omega))
        fun b hb => (h.check_zero hb).2 hadm
      exact .stays ⟨hadm, fun _ => hleft⟩ hplace
    · obtain ⟨k', rfl, hk'⟩ := packByUtil_gives_up
        (fun b hb => Bool.eq_false_iff.2 fun hb' => hadm ((h.check_zero hb).1 hb'))
        (fun i _ hi => hrank i hi) (fun m hm hmax => absurd (hm.trans_le hmax) (by rw [h4]; decide))
        (by omega) h.opened.max hx
      exact .stuck ⟨hadm, Or.inr ⟨Or.inr rfl, hleft⟩⟩ hk'
  · have hhigh : getUtilBin k.st.cpuUtil (k.currentBins - 1 - 0) k.currentBins = some 1 :=
      h.highest hres hleft (by omega) h.opened.max
    obtain ⟨k', hplace, rfl⟩ := packByUtil_takes hx hhigh fun b hb => h.check_one hres hb
    have hprev : k'.prevBin = 0 := (place_bins hplace).2.trans h.prevBin
    exact FirstTurn.of_place (p := k'.prevBin) hplace rfl rfl (by omega) h.opened.max (by omega)
      (fun hs => hleft (hs.2 rfl)) fun hs => hleft (by simpa using hs.2)

include hres in
/-- **A turn while only CPU 0 is in use, for every scheme.** -/
theorem packOne_firstTurn (hscheme : scheme ≤ 4) (h : OnFirst scheme s list bin k (c :: rem))
    (hx : packOne fuel scheme c k = .ok x) : FirstTurn fuel scheme s bin c k x := by
  by_cases h4 : scheme = 4
  · subst h4
    exact h.packWorstFitAll hres hx
  by_cases hadm : Admits s bin c
  · have h1 : k.currentBins = 1 := by rw [h.bins, if_neg h4]
    obtain ⟨k', hplace, rfl⟩ := packOne_first (by omega) h1 h.prevBin
      (fun b hb => (h.check_zero hb).2 hadm) hx
    exact .stays ⟨hadm, fun h => absurd h h4⟩ hplace
  · match scheme, hscheme with
    | 0, _ => exact h.packFirstFit hres hadm hx
    | 1, _ => exact h.packNextFit hadm hx
    | 2, _ => exact h.packBestFit hres hadm hx
    | 3, _ => exact h.packWorstFit hres hadm hx
    | 4, _ => exact absurd rfl h4

end Turn

/-! ### The whole packing -/

/-- Some task may run on another CPU than the one it is on. -/
def Loose (s : KState) (cl : ℕ → List Tid) : Prop :=
  ∃ cpu, ∃ t ∈ cl cpu, (s.task t).cpusAllowed ≠ {cpu}

section Whole

variable {fuel scheme : ℕ} {s s' : KState} {list bin : List Tid} {c : TaskCt} {k : Packing}
  {cl : ℕ → List Tid} {rem : List TaskCt} {x : Packing × Bool}

/-- Packing touches the tasks that are to be packed only. -/
theorem packAll_other {u : Tid} (hu : ∀ d ∈ rem, d.task ≠ u) (h : packAll fuel scheme rem k = .ok x) :
    x.1.st.task u = k.st.task u := by
  have hsat : Sat (fun x : Packing × Bool => (∀ d ∈ ([] : List TaskCt), d.task ≠ u) ∧
      x.1.st.task u = k.st.task u) (fun _ => True) (packAll fuel scheme rem k) := by
    refine (packAll_sat (J := fun rem s => (∀ d ∈ rem, d.task ≠ u) ∧ s.task u = k.st.task u)
      ?_ ?_ scheme ⟨hu, rfl⟩).mono (fun _ h => h) fun _ _ => trivial
    · rintro c rem cpu k' ⟨hne, htask⟩
      have hmask : (k'.st.modifyTask c.task fun p =>
          { p with onCpu := cpu, cpusAllowed := insert cpu k'.mask }).task u = k.st.task u := by
        rw [KState.modifyTask_task, if_neg (hne c List.mem_cons_self).symm]
        exact htask
      have hrest : ∀ d ∈ rem, d.task ≠ u := fun d hd => hne d (List.mem_cons_of_mem _ hd)
      refine Sat.bind ((addTaskToCpu_task fuel c.task cpu _).mono (fun _ h => h)
        fun s' hs' => ⟨hrest, ?_⟩) fun s' hs' => ⟨hrest, ?_⟩
      · rw [hs']
        exact hmask
      · exact (congrFun hs' u).trans hmask
    · rintro c rem s ⟨hne, htask⟩
      exact ⟨fun d hd => hne d (List.mem_cons_of_mem _ hd), htask⟩
  exact (sat_of_eq hsat h).2

/-- A placed task is not touched again. -/
theorem packAll_loose (hscheme : scheme ≤ 4) (hf : Filled s k cl) (hp : Pending s cl rem)
    (hl : Loose k.st cl) (h : packAll fuel scheme rem k = .ok x) :
    ∃ cl', CpuKept x.1.st cl' ∧ Loose x.1.st cl' := by
  obtain ⟨d, t, ht, hmask⟩ := hl
  obtain ⟨_, cl', hkept, -, ht', -⟩ := packAll_rule (J := fun _ cl => t ∈ cl d)
    (fun _ _ _ _ _ hmem _ _ => mem_put.2 (Or.inr hmem)) (fun _ _ _ _ hmem _ => hmem) hscheme hf hp
    ht h
  have hother := packAll_other (fun c hc heq => hp.off c hc d (heq ▸ ht)) h
  exact ⟨cl', hkept, d, t, ht', by rwa [hother]⟩

/-- A task that stays on CPU 0 gets the right mask. -/
theorem OnFirst.next (h : OnFirst scheme s list bin k (c :: rem)) {k' : Packing}
    (hplace : place fuel c 0 k = .ok k') :
    OnFirst scheme s list (insertByPeriod s.periods c.task bin) k' rem := by
  obtain ⟨hbins, hprev⟩ := place_bins hplace
  have hloaded := h.toLoaded.placed hplace rfl h.opened le_rfl (Nat.zero_lt_of_lt h.opened.prev)
  have hmask : insert 0 k.mask = {0} := by
    rw [h.mask]
    split_ifs <;> simp
  have hmem : ∀ u, u ∈ insertByPeriod s.periods c.task bin ↔ u = c.task ∨ u ∈ bin := by
    intro u
    rw [insertByPeriod_perm.mem_iff, List.mem_cons]
  rw [put_onFirst] at hloaded
  refine ⟨hloaded, hbins.trans h.bins, hprev.trans h.prevBin, ?_, fun t ht => ?_⟩
  · have hne : insertByPeriod s.periods c.task bin ≠ [] :=
      List.ne_nil_of_mem ((hmem c.task).2 (Or.inl rfl))
    rw [place_mask hplace, hmask, if_neg hne]
  · by_cases ht' : t = c.task
    · rw [ht', place_cpusAllowed hplace, hmask]
    · rw [place_other hplace ht']
      exact h.pinned t (((hmem t).1 ht).resolve_left ht')

variable (hres : ∀ t ∈ list, Reservable s t)

include hres in
/-- The first task on CPU 1 gets a mask with CPU 0 in it. -/
theorem OnFirst.moved (h : OnFirst scheme s list bin k (c :: rem)) {k₀ k₁ k' : Packing}
    (hnot : ¬ Stays scheme s bin c) (hmask : k₀.mask = k.mask)
    (hplace : place fuel c 1 k₀ = .ok k₁) (hk' : k'.st = k₁.st) :
    Loose k'.st (put s (onFirst bin) c.task 1) := by
  have hne : bin ≠ [] := by
    rintro rfl
    exact hnot ⟨h.admits_nil hres, fun _ => rfl⟩
  refine ⟨1, c.task, mem_put.2 (Or.inl ⟨rfl, rfl⟩), ?_⟩
  rw [hk', place_cpusAllowed hplace, hmask, h.mask, if_neg hne]
  decide

theorem OnFirst.not_loose (h : OnFirst scheme s list bin k rem) : ¬ Loose k.st (onFirst bin) := by
  rintro ⟨cpu, t, ht, hmask⟩
  by_cases hcpu : cpu = 0
  · subst hcpu
    rw [onFirst_zero] at ht
    exact hmask (h.pinned t ht)
  · rw [onFirst_of_ne hcpu] at ht
    cases ht

include hres in
theorem packAll_pins (hscheme : scheme ≤ 4) (h : OnFirst scheme s list bin k rem)
    (hx : packAll fuel scheme rem k = .ok x) :
    ∃ cl, CpuKept x.1.st cl ∧ (¬ Loose x.1.st cl ↔ StaysOnFirst scheme s bin rem) := by
  induction rem generalizing k bin with
  | nil =>
    obtain rfl := Except.ok.inj hx
    exact ⟨onFirst bin, h.kept, iff_of_true h.not_loose trivial⟩
  | cons c rem ih =>
    obtain ⟨y, hone, hx⟩ := bind_eq_ok.1 hx
    cases packOne_firstTurn hres hscheme h hone with
    | @stays k' hstays hplace =>
      obtain ⟨cl, hkept, hiff⟩ := ih (h.next hplace) hx
      refine ⟨cl, hkept, hiff.trans ⟨fun hrest => Or.inr ⟨hstays, hrest⟩, ?_⟩⟩
      rintro (hstuck | ⟨-, hrest⟩)
      · exact absurd hstays.1 hstuck.1
      · exact hrest
    | @stuck k' hstuck hk' =>
      obtain rfl := Except.ok.inj hx
      refine ⟨onFirst bin, ?_, iff_of_true ?_ (Or.inl hstuck)⟩
      · show CpuKept k'.st (onFirst bin)
        rw [hk']
        exact h.kept
      · show ¬ Loose k'.st (onFirst bin)
        rw [hk']
        exact h.not_loose
    | @moves k₀ k₁ k' hnot hnot' hk₀ hmask hplace hk' hopened hbins =>
      have hmono : k.currentBins ≤ k'.currentBins := by
        have hopen := packOne_outcome hscheme h.opened hone
        cases hopen with
        | placed _ _ _ _ hopen => exact hopen
        | leftOut _ _ _ hbins => exact hbins.ge
      obtain ⟨cl, hkept, hloose⟩ := packAll_loose hscheme
        (h.toFilled.place h.toPending hplace hk₀ hk' hopened hmono hbins) (h.toPending.put 1)
        (h.moved hres hnot hmask hplace hk') hx
      refine ⟨cl, hkept, iff_of_false (fun hnone => hnone hloose) ?_⟩
      rintro (hstuck | ⟨hstays, -⟩)
      · exact hnot' hstuck
      · exact hnot hstays

theorem pinned_iff (hk : CpuKept s cl) : Pinned s ↔ ¬ Loose s cl := by
  constructor
  · rintro h ⟨cpu, t, ht, hmask⟩
    exact hmask (h cpu _ (hk.onCpuList cpu) t ht)
  · intro h cpu bin hbin t ht
    obtain rfl := hbin.unique (hk.onCpuList cpu)
    by_contra hmask
    exact h ⟨cpu, t, ht, hmask⟩

theorem onFirst_start (hk : Kept s list) (hc : Cleared s) (scheme : ℕ) :
    OnFirst scheme s list [] (packStart scheme s) (utilOrder s list) := by
  have hnil : onFirst [] = fun _ => [] := Function.update_eq_self 0 _
  refine ⟨?_, rfl, rfl, rfl, fun t ht => nomatch ht⟩
  rw [hnil]
  exact loaded_start hk hc scheme

end Whole

/-- **When the masks are right.**  A call of `bin_packing` that comes back leaves every task on a
per-CPU list with the mask of exactly that CPU if and only if no task had to move from CPU 0. -/
theorem binPacking_pins_iff (s : KState) (list : List Tid) (hk : Kept s list) (hc : Cleared s)
    (hres : ∀ t ∈ list, Reservable s t) (scheme : ℕ) (hscheme : scheme ≤ 4) (fuel : ℕ)
    (s' : KState) (bins : ℕ) (h : binPacking fuel scheme s = .ok (s', bins)) :
    Pinned s' ↔ StaysOnFirst scheme s [] (utilOrder s list) := by
  by_cases hne : list = []
  · subst hne
    rw [binPacking_empty hk] at h
    obtain ⟨rfl, -⟩ := Prod.mk.inj (Except.ok.inj h)
    refine iff_of_true ((pinned_iff hc.lists).2 ?_) trivial
    rintro ⟨cpu, t, ht, -⟩
    cases ht
  · obtain ⟨x, hx, heq⟩ := binPacking_eq_ok hk hne h
    obtain ⟨rfl, -⟩ := Prod.mk.inj heq
    obtain ⟨cl, hkept, hiff⟩ := packAll_pins hres hscheme (onFirst_start hk hc scheme) hx
    exact (pinned_iff hkept).trans hiff

/-- Two tasks of 300 ms in 1 s, by first fit, both on CPU 0. -/
theorem binPacking_pins_iff_pair :
    ∃ s' bins, binPacking 20 0 (listed 2 (fun _ => ⟨0, 300000000⟩) fun _ => ⟨1, 0⟩) =
      .ok (s', bins) ∧ OnCpuList s' 0 [1, 2] ∧ Pinned s' := by
  set s := listed 2 (fun _ => ⟨0, 300000000⟩) fun _ => ⟨1, 0⟩
  obtain ⟨⟨s', bins⟩, h, hlist⟩ : ∃ y, binPacking 20 0 s = .ok y ∧ OnCpuList y.1 0 [1, 2] :=
    exists_ok_of_test (by decide)
  have hfirst : Admits s [] (utilCt s 1) := admits_nil_iff.2 (by decide)
  have hsecond : Admits s [1] (utilCt s 2) :=
    (admits_iff_of_check (v := true) (n := 10) (by decide) (by decide)).2 rfl
  refine ⟨s', bins, h, hlist, (binPacking_pins_iff s [1, 2] (by decide) (listed_cleared _ _ _)
    (by decide) 0 (by decide) 20 s' bins h).2 ?_⟩
  exact Or.inr ⟨⟨hfirst, fun h => absurd h (by decide)⟩,
    Or.inr ⟨⟨hsecond, fun h => absurd h (by decide)⟩, trivial⟩⟩

/-- Of two tasks of 600 ms in 1 s first fit puts the second on CPU 1, with a mask that still has
CPU 0 in it. -/
theorem binPacking_not_pinned :
    ¬ ∀ (s : KState) (list : List Tid), Kept s list → Cleared s →
      (∀ t ∈ list, Unscaled (s.task t)) → ∀ scheme ≤ 4, ∀ (fuel : ℕ) (s' : KState) (bins : ℕ),
        binPacking fuel scheme s = .ok (s', bins) → Pinned s' := by
  intro hall
  obtain ⟨⟨s', bins⟩, h, hlist, hmask⟩ : ∃ y,
      binPacking 20 0 (listed 2 (fun _ => ⟨0, 600000000⟩) fun _ => ⟨1, 0⟩) = .ok y ∧
        OnCpuList y.1 1 [2] ∧ (y.1.task 2).cpusAllowed = {0, 1} :=
    exists_ok_of_test (by decide)
  have hpinned := hall _ [1, 2] (by decide) (listed_cleared _ _ _) (by decide) 0 (by decide) 20 s'
    bins h 1 [2] hlist 2 (by decide)
  rw [hmask] at hpinned
  revert hpinned
  decide

end RtSched
