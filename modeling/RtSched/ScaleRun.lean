import RtSched.ListInvariant
import RtSched.SysClock

/-!
# Scaled budgets over whole runs

Under SysClock the budgets are stretched by `fmax / f`, so they shrink when `f` is above `fmax`.
That happens: `sysclock` starts every task with twice the maximum speed and lowers it only at the end
of an idle interval, and a task that is busy up to its deadline has none.

* `RoomLeft`: what a list needs so that `sysclock` asks for at most the maximum speed;
* `scaled_budgets`: as long as every list that a call leaves has it, no budget shrinks and the
  frequency is one of the table;
* `scaled_budget_shrinks`: two tasks that fill the CPU.
-/

namespace RtSched

open Call TimeDemand

variable {e : Env} {s s' : KState} {list : List Tid} {t u : Tid}

/-! ### Lists that need at most the maximum speed -/

/-- Budgets of at least a microsecond and below the period, and for every task that `sysclock` enters
in a busy period some instant up to its deadline by which the tasks up to it have been idle. -/
def RoomLeft (list : List TaskCt) : Prop :=
  Proper list ∧ ∀ i < list.length, fresh list i = true →
    ∃ t, 0 < t ∧ t ≤ (list.getD i default).period ∧ 0 < spare list i t

theorem RoomLeft.needsSpeed_le {list : List TaskCt} (h : RoomLeft list) {i : ℕ}
    (hi : i < list.length) {k : ℤ} (hk : NeedsSpeed list i k) : k ≤ scaleUpFactor := by
  obtain ⟨hb, hbp⟩ := h.1.get hi
  by_contra hlt
  rw [not_le] at hlt
  cases hf : fresh list i with
  | true =>
    obtain ⟨t, ht, htp, hspare⟩ := h.2 i hi hf
    rw [NeedsSpeed, hf] at hk
    have hlater : k * t ≤ workBefore list i t * scaleUpFactor := hk.later t ht htp hspare
    simp only [spare, scaleUpFactor] at hspare hlt hlater
    nlinarith
  | false =>
    -- entered in an idle interval, the walk starts with the speed of one budget
    rw [NeedsSpeed, hf] at hk
    have hfirst : k * nextRelease list i (list.getD i default).budget ≤
        (list.getD i default).budget * scaleUpFactor := by
      have := hk.first
      simp only [walkStart, Bool.false_eq_true, if_false, sub_sub_cancel] at this
      exact this
    have hidle := idleDuration_nonneg h.1.positive.wf hb.le hbp.le i
    rw [← nextRelease_eq h.1.positive hi hb hbp.le] at hfirst
    rw [scaleUpFactor] at hlt hfirst
    nlinarith

/-- `sysclock` asks for at most the maximum frequency. -/
theorem sysclock_freq_le {cts : List TaskCt} (h : RoomLeft cts)
    (hsize : s.periodicTasksSize = cts.length) :
    Sat (fun x => x.2 ≤ e.maxFreq) (fun _ => True) (sysclock e cts s) := by
  refine sat_ite (fun _ => Nat.zero_le _) fun _ => ?_
  rw [hsize]
  refine Sat.bind (sat_ofOption (Q := fun x => x.2 ≤ e.maxFreq) ?_) fun x hx => hx
  intro x hx
  by_contra hlt
  have hle : e.maxFrequency * 1000 ≤ e.maxFreq := Nat.div_mul_le_self _ _
  obtain ⟨i, hi, k, hneed, hk⟩ := (sysclockSpeeds_answer h.1 hx (e.maxFrequency * 1000)).1 (by omega)
  have hk1000 := h.needsSpeed_le hi hneed
  rw [scaleUpFactor] at hk1000
  have : (e.maxFrequency : ℤ) * k ≤ e.maxFrequency * 1000 :=
    mul_le_mul_of_nonneg_left hk1000 (by positivity)
  push_cast at hk
  omega

/-- A request of at most the maximum is served from the table. -/
theorem getTableFrequency_mem (htable : CpufreqTable e) {f : ℕ} (hf : f ≤ e.maxFreq) :
    getTableFrequency e f ∈ e.table.filterMap id ∧ getTableFrequency e f ≤ e.maxFreq :=
  have hmem := (htable.lookup_of_le hf).1
  ⟨hmem, htable.le hmem⟩

/-- The clock is at a frequency of the table, at most the maximum. -/
def TableClock (e : Env) (s : KState) : Prop :=
  s.cpuFreq ∈ e.table.filterMap id ∧ s.cpuFreq ≤ e.maxFreq

theorem retuneSysclock_table (htable : CpufreqTable e) (h : Kept s list)
    (hroom : RoomLeft (timedCts s list)) :
    Sat (TableClock e) (fun _ => True) (retuneSysclock e s) := by
  refine Sat.bind ((makeTaskCtStruct_sat h e).mono (fun _ h => h) fun _ _ => trivial) ?_
  rintro cts rfl
  have hsize : s.periodicTasksSize = (timedCts s list).length := by
    rw [timedCts, List.length_map, h.size]
  refine Sat.bind (((sysclock_update e _ s).and (sysclock_freq_le hroom hsize)).mono (fun _ h => h)
    fun _ _ => trivial) ?_
  rintro ⟨s₁, f⟩ ⟨hu, hf⟩
  refine Sat.bind ((applySysclock_sat (h.of_quiet hu.clock_of_speed.quiet_of_clock) f).mono
    (fun _ h => h) fun _ _ => trivial) ?_
  rintro ⟨s₂, _⟩ ⟨rfl, -⟩
  exact getTableFrequency_mem htable hf

/-- Numbering the list changes nothing `sysclock` reads. -/
theorem retuneNumbered_table (htable : CpufreqTable e) (h : Kept s list)
    (hroom : RoomLeft (timedCts s list)) :
    Sat (TableClock e) (fun _ => True) (retuneSysclock e (numberTasks s list)) := by
  have hq := (numberTasks_update s list).quiet_of_prio
  refine retuneSysclock_table htable (h.numberTasks list) ?_
  rw [timedCts_of_registry hq.registry]
  exact hroom

/-! ### The invariant -/

/-- Under SysClock, outside bin-packing mode: the clock is at a frequency of the table, and no
budget is smaller than what was reserved. -/
structure ScaleInv (e : Env) (s : KState) (list : List Tid) : Prop where
  kept : Kept s list
  binOff : s.isBinPackingSet = false
  power : s.powerScheme = .sysClock
  clock : TableClock e s
  nonneg : ∀ t ∈ list, 0 ≤ timespecToNs (s.task t).minBudgetTime
  scaled : ∀ t ∈ list, timespecToNs (s.task t).minBudgetTime ≤ timespecToNs (s.task t).budgetTime

/-- A budget stretched to a frequency of at most the maximum. -/
theorem le_updatedBudget {maxFreq f : ℕ} (hf : 0 < f) (hle : f ≤ maxFreq) {b : Timespec}
    (hb : 0 ≤ timespecToNs b) : timespecToNs b ≤ timespecToNs (updatedBudget maxFreq f b) := by
  rw [updatedBudget, timespecToNs_nsToTimespec, Int.le_ediv_iff_mul_le (by exact_mod_cast hf)]
  exact mul_le_mul_of_nonneg_left (by exact_mod_cast hle) hb

/-- A call that has put the clock and the budgets of the new list right. -/
theorem ScaleInv.next (htable : CpufreqTable e) {s₁ : KState} {list' : List Tid}
    (h : ScaleInv e s list) (hk : Kept s₁ list') (hstep : ListStep s s₁)
    (hup : TaskUpdate ClockOnly (numberTasks s₁ list') s') (hclock : TableClock e s')
    (hsys : SysCoherent e s' list')
    (hnonneg : ∀ t ∈ list', 0 ≤ timespecToNs (s₁.task t).minBudgetTime) : ScaleInv e s' list' := by
  have hq := hup.quiet_of_numbered
  have hmin : ∀ t, (s'.task t).minBudgetTime = (s₁.task t).minBudgetTime := fun t =>
    congrArg TaskReg.minBudgetTime (registry_task hq.registry t)
  refine ⟨hk.of_quiet hq, ((registry_bin hq.registry).trans hstep.bin).trans h.binOff,
    ((registry_power hq.registry).trans hstep.power).trans h.power, hclock, fun t ht => ?_,
    fun t ht => ?_⟩
  · rw [hmin]
    exact hnonneg t ht
  · rw [hsys t ht]
    refine le_updatedBudget (htable.positive _ hclock.1) hclock.2 ?_
    rw [hmin]
    exact hnonneg t ht

theorem ScaleInv.ended (h : ScaleInv e s list) (he : Ended s s') : ScaleInv e s' list := by
  refine ⟨he.kept h.kept, he.bin.trans h.binOff, he.power.trans h.power, ?_, fun u hu => ?_,
    fun u hu => ?_⟩
  · rw [TableClock, he.cpuFreq]
    exact h.clock
  · rw [he.minBudgetTime]
    exact h.nonneg u hu
  · rw [he.minBudgetTime, he.budgetTime]
    exact h.scaled u hu

/-! ### Runs -/

/-- The calls that keep the invariant: they find the task on the list when the flag says so, and
leave a list that needs at most the maximum speed.  The microseconds of a period are unbounded here;
they are those of the target for periods below `2 ^ 31` microseconds. -/
def ScaleOk (e : Env) (s : KState) : Cmd → Prop
  | .setProcessBudget pid budget p => ∀ t, s.findTaskByVpid pid = some t → ∀ list, OnList s list →
      SetOk s list t ∧ RoomLeft (timedCts (writeReservation t (taskBudgetOf e budget) p s)
        (reservedList s t p list))
  | .cancelBudget pid => ∀ t, s.findTaskByVpid pid = some t → ∀ list, OnList s list →
      (t ∈ list ∨ list = []) ∧ RoomLeft (timedCts s (list.erase t))
  | .exit t _ => (s.task t).isBudgetSet = true → t = (s.task t).tgid → ∀ list, OnList s list →
      (t ∈ list ∨ list = []) ∧ RoomLeft (timedCts s (list.erase t))
  | _ => False

theorem setReservation_scaled (htable : CpufreqTable e) (h : ScaleInv e s list)
    (hok : SetOk s list t) {budget : ℕ} {p : Timespec}
    (hroom : RoomLeft (timedCts (writeReservation t (taskBudgetOf e budget) p s)
      (reservedList s t p list))) :
    Sat (fun s' => ∃ list', ScaleInv e s' list') (fun _ => True)
      (setReservation e t budget (taskBudgetOf e budget) p s) := by
  have hclock : Sat (TableClock e) (fun _ => True)
      (setReservation e t budget (taskBudgetOf e budget) p s) := by
    refine setReservation_sysclock h.kept hok h.binOff h.power (fun s₁ hk₁ hr => ?_) budget
    refine retuneNumbered_table htable hk₁ ?_
    rw [timedCts_congr fun u _ => ?_]
    · exact hroom
    · have hw := (writeReservation_task t u (taskBudgetOf e budget) p s).1
      exact ⟨congrArg TaskReg.timePeriod ((hr.reg u).trans hw.symm),
        congrArg TaskReg.minBudgetTime ((hr.reg u).trans hw.symm)⟩
  refine ((setReservation_off h.kept hok h.binOff budget _ p).and hclock).mono ?_ fun _ _ => trivial
  rintro s' ⟨⟨s₁, hk₁, hr, hl⟩, hclock⟩
  refine ⟨_, h.next htable hk₁ hr.step hl.update hclock
    (hl.sysClock (hr.step.power.trans h.power)) fun u hu => ?_⟩
  rw [hr.minBudgetTime]
  rcases mem_insertByPeriod.1 hu with rfl | hu
  · rw [if_pos rfl, taskBudgetOf, timespecToNs_nsToTimespec]
    positivity
  · rw [if_neg (h.kept.ne_of_mem_erase hu)]
    exact h.nonneg u (List.mem_of_mem_erase hu)

theorem cancelReservation_scaled (htable : CpufreqTable e) (h : ScaleInv e s list)
    (hmem : t ∈ list ∨ list = []) (hroom : RoomLeft (timedCts s (list.erase t))) :
    Sat (fun s' => ∃ list', ScaleInv e s' list') (fun _ => True) (cancelReservation e t s) := by
  obtain ⟨s₁, hk₁, hu, hdef⟩ := cancelReservation_eq (e := e) h.kept hmem h.binOff
  have hkeep := hu.keeps h.kept
  rw [← timedCts_congr hkeep] at hroom
  rw [hdef]
  have hpow := hu.step.power.trans h.power
  have hclock := retuneAfterCancel_sysclock hk₁ hpow (retuneNumbered_table htable hk₁ hroom)
  refine ((retuneAfterCancel_sat hk₁).and hclock).mono ?_ fun _ _ => trivial
  rintro s' ⟨⟨hup, -, hsys⟩, hclock⟩
  refine ⟨_, h.next htable hk₁ hu.step hup hclock (hsys hpow) fun u hmem' => ?_⟩
  rw [(hkeep u hmem').2]
  exact h.nonneg u (List.mem_of_mem_erase hmem')

theorem exitReservation_scaled (htable : CpufreqTable e) (h : ScaleInv e s list)
    (hmem : t ∈ list ∨ list = []) (hlead : t = (s.task t).tgid)
    (hroom : RoomLeft (timedCts s (list.erase t))) :
    Sat (fun s' => ∃ list', ScaleInv e s' list') (fun _ => True) (exitReservation e t s) := by
  obtain ⟨s₁, hk₁, hd, hdef⟩ := exitReservation_eq (e := e) h.kept hmem h.binOff hlead
  have hkeep := fun u (_ : u ∈ list.erase t) => hd.keeps u
  rw [← timedCts_congr hkeep] at hroom
  rw [hdef]
  have hpow := hd.step.power.trans h.power
  have hclock := retuneAfterExit_sysclock hk₁ hpow (retuneNumbered_table htable hk₁ hroom)
  refine ((retuneAfterExit_sat hk₁).and hclock).mono ?_ fun _ _ => trivial
  rintro s' ⟨⟨hup, hsys, -⟩, hclock⟩
  refine ⟨_, h.next htable hk₁ hd.step hup hclock (hsys hpow) fun u hmem' => ?_⟩
  rw [(hkeep u hmem').2]
  exact h.nonneg u (List.mem_of_mem_erase hmem')

theorem exec_scaled (htable : CpufreqTable e) (h : ∃ list, ScaleInv e s list) {c : Cmd}
    (hok : ScaleOk e s c) :
    Sat (fun x => ∃ list, ScaleInv e x.1 list) (fun _ => True) (exec e s c) := by
  obtain ⟨list, h⟩ := h
  have hk := h.kept
  cases c with
  | setProcessBudget pid budget p =>
    refine setProcessBudget_rule (Q := fun s' => ∃ list, ScaleInv e s' list) hk ⟨list, h⟩
      fun t ht _ _ => ?_
    obtain ⟨hset, hroom⟩ := hok t ht list hk.onList
    exact setReservation_scaled htable h hset hroom
  | cancelBudget pid =>
    refine cancelBudget_rule (Q := fun s' => ∃ list, ScaleInv e s' list) ⟨list, h⟩ fun t ht => ?_
    obtain ⟨hmem, hroom⟩ := hok t ht list hk.onList
    exact cancelReservation_scaled htable h hmem hroom
  | exit t autoreap =>
    refine doExit_ended (Q := fun s' => ∃ list, ScaleInv e s' list)
      (fun s' he => ⟨list, h.ended he⟩) fun hf hlead => ?_
    obtain ⟨hmem, hroom⟩ := hok hf hlead list hk.onList
    exact (exitReservation_scaled htable h hmem hlead hroom).mono
      (fun s' ⟨l, hs'⟩ => ⟨l, hs'.ended (ended_finishExit t autoreap s')⟩) fun _ _ => trivial
  | _ => exact hok.elim

/-- A system that has just started under SysClock, at a frequency of the table. -/
def BootedSys (e : Env) (s : KState) : Prop :=
  Booted s ∧ s.powerScheme = .sysClock ∧ TableClock e s

/-- No listed task has less than it reserved, and the clock is at a frequency of the table. -/
def NotShrunk (e : Env) (s : KState) : Prop :=
  s.cpuFreq ∈ e.table.filterMap id ∧ s.cpuFreq ≤ e.maxFreq ∧ ∃ list, OnList s list ∧
    ∀ t ∈ list, timespecToNs (s.task t).minBudgetTime ≤ timespecToNs (s.task t).budgetTime

/-- **Scaled budgets do not shrink** in a run whose lists all leave room. -/
theorem scaled_budgets (e : Env) (htable : CpufreqTable e) {s : KState}
    (h : Reach (BootedSys e) (ScaleOk e) (exec e) s) : NotShrunk e s := by
  obtain ⟨list, hinv⟩ := h.inv (I := fun s => ∃ list, ScaleInv e s list)
    (fun s hs => ⟨[], kept_booted hs.1, hs.1.binOff, hs.2.1, hs.2.2, by simp, by simp⟩)
    fun _ _ hs hok => exec_scaled htable hs hok
  exact ⟨hinv.clock.1, hinv.clock.2, list, hinv.kept.onList, hinv.scaled⟩

theorem bootedSys_bootState (pids : List Tid) : BootedSys twoSpeeds (bootState pids .sysClock) :=
  ⟨booted_bootState pids .sysClock, rfl, by simp [bootState, twoSpeeds], le_rfl⟩

/-- Tasks of 400 ms in 1 s and of 100 ms in 2 s run at half the speed and have twice the time. -/
theorem scaled_budgets_pair :
    ∃ s, Reach (BootedSys twoSpeeds) (ScaleOk twoSpeeds) (exec twoSpeeds) s ∧ OnList s [1, 2] ∧
      s.cpuFreq = 500000 ∧ NotShrunk twoSpeeds s := by
  have hboot := bootedSys_bootState [1, 2]
  obtain ⟨x, hx, hlist, hflag, hfind, hcts, htest⟩ : ∃ x,
      exec twoSpeeds (bootState [1, 2] .sysClock) (.setProcessBudget 1 400000000 ⟨1, 0⟩) = .ok x ∧
      OnList x.1 [1] ∧ (x.1.task 2).isBudgetSet = false ∧ x.1.findTaskByVpid 2 = some 2 ∧
      timedCts (writeReservation 2 (taskBudgetOf twoSpeeds 100000000) ⟨2, 0⟩ x.1)
        (reservedList x.1 2 ⟨2, 0⟩ [1]) = [⟨400000, 1000000, 0, 1⟩, ⟨100000, 2000000, 0, 2⟩] ∧
      (exec twoSpeeds x.1 (.setProcessBudget 2 100000000 ⟨2, 0⟩)).test (fun y => decide
        (OnList y.1 [1, 2] ∧ y.1.cpuFreq = 500000)) = true :=
    exists_ok_of_test (by decide)
  obtain ⟨y, hy, hlist', hfreq⟩ := exists_ok_of_test htest
  have hok : ScaleOk twoSpeeds (bootState [1, 2] .sysClock)
      (.setProcessBudget 1 400000000 ⟨1, 0⟩) := by
    intro t ht list hl
    obtain rfl : 1 = t := Option.some.inj ht
    have hnil := (kept_booted hboot.1).onList
    refine ⟨hnil.setOk_nil hl, ?_⟩
    have hcts : timedCts (writeReservation 1 (taskBudgetOf twoSpeeds 400000000) ⟨1, 0⟩
        (bootState [1, 2] .sysClock)) (reservedList (bootState [1, 2] .sysClock) 1 ⟨1, 0⟩ []) =
        [⟨400000, 1000000, 0, 1⟩] := by decide
    rw [hl.unique hnil, hcts]
    refine ⟨by simp [Proper], fun i hi _ => ⟨1000000, by norm_num, ?_⟩⟩
    obtain rfl : i = 0 := by simpa using hi
    norm_num [spare, workBefore, demand]
  have hok' : ScaleOk twoSpeeds x.1 (.setProcessBudget 2 100000000 ⟨2, 0⟩) := by
    intro t ht list hl
    obtain rfl : 2 = t := Option.some.inj (hfind.symm.trans ht)
    refine ⟨hlist.setOk_of_not_mem (by decide) hflag hl, ?_⟩
    rw [hl.unique hlist, hcts]
    -- each task has idle time before the end of its own first period
    refine ⟨by simp [Proper], fun i hi _ => ⟨if i = 0 then 1000000 else 2000000, ?_⟩⟩
    obtain rfl | rfl : i = 0 ∨ i = 1 := by
      have hlen : i < 2 := hi
      omega
    · norm_num [spare, workBefore, demand]
    · norm_num [spare, workBefore, demand]
  have hreach := ((Reach.start hboot).step hok hx).step hok' hy
  exact ⟨y.1, hreach, hlist', hfreq, scaled_budgets twoSpeeds cpufreqTable_twoSpeeds hreach⟩

/-- Reservations that succeed, and exits. -/
def ReserveCall (e : Env) (s : KState) : Cmd → Prop
  | .setProcessBudget pid budget p => ∃ s', exec e s (.setProcessBudget pid budget p) = .ok (s', 0)
  | .exit _ _ => True
  | _ => False

/-- Two tasks of 1 ms in 2 ms are admitted; then each has half a millisecond. -/
theorem scaled_budget_shrinks :
    ¬ ∀ e s, CpufreqTable e → Reach (BootedSys e) (ReserveCall e) (exec e) s → NotShrunk e s := by
  intro h
  obtain ⟨x, hx, hr, htest⟩ : ∃ x, exec twoSpeeds (bootState [1, 2] .sysClock)
      (.setProcessBudget 1 1000000 ⟨0, 2000000⟩) = .ok x ∧ x.2 = 0 ∧
      (exec twoSpeeds x.1 (.setProcessBudget 2 1000000 ⟨0, 2000000⟩)).test (fun y => decide (
        y.2 = 0 ∧ OnList y.1 [1, 2] ∧ (y.1.task 1).minBudgetTime = ⟨0, 1000000⟩ ∧
        (y.1.task 1).budgetTime = ⟨0, 500000⟩)) = true :=
    exists_ok_of_test (by decide)
  obtain ⟨y, hy, hr', hlist, hmin, hbudget⟩ := exists_ok_of_test htest
  have hreach : Reach (BootedSys twoSpeeds) (ReserveCall twoSpeeds) (exec twoSpeeds) y.1 := by
    refine Reach.step (Reach.step (.start (bootedSys_bootState [1, 2])) ?_ hx) ?_ hy
    · exact ⟨x.1, by rw [hx, ← hr]⟩
    · exact ⟨y.1, by rw [hy, ← hr']⟩
  obtain ⟨-, -, list, hl, hle⟩ := h twoSpeeds y.1 cpufreqTable_twoSpeeds hreach
  rw [hl.unique hlist] at hle
  have hle := hle 1 (by decide)
  rw [hmin, hbudget] at hle
  exact absurd hle (by decide)

end RtSched
