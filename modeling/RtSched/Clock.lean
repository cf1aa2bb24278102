import RtSched.Registry

/-!
# Clock frequencies (`kernel/sched.c`)

`sysclock` walks, for every task, the busy and idle periods of the tasks up to it and finds the
lowest speed that would do; `pmclock` turns these speeds into one frequency per task.
`apply_sysclock` and `apply_pmclock` rescale the enforced budgets to a frequency and start a new
period for every listed task.

* `alphaOf`, `sysclockPerCpu`, `sysclock`, `inflatedFreq`, `pmclock`, `getTableFrequency`;
* `applySysclock`, `applyPmclock`, and what they do to the budgets (`applySysclock_sat`,
  `applyPmclock_sat`);
* none of these touches a list or what the lists depend on (`TaskUpdate ClockOnly`).
-/

namespace RtSched

open Loop

/-! ### The speed of one task -/

/-- The work the tasks `0 … i` have released up to and including `c`. -/
def releasedUpTo (list : List TaskCt) (i : ℕ) (c : ℤ) : ℤ :=
  ((list.take (i + 1)).map fun d => (c / d.period + 1) * d.budget).sum

/-- The loop of a busy period: `C`, and whether `delta` is still positive.  The difference is
unsigned, so it counts as positive whenever it is not zero. -/
def busyTurn (list : List TaskCt) (i : ℕ) (slack period : ℤ) (x : ℤ × Bool) :
    Option (Turn (ℤ × Bool) ℤ) :=
  if x.1 < period ∧ x.2 = true then
    let cTemp := slack + releasedUpTo list i x.1
    some (.next (cTemp, decide (cTemp - x.1 ≠ 0)))
  else some (.exit x.1)

/-- The idle time from `c` on: up to the next release, the end of the period, or 234567. -/
def idleDuration (list : List TaskCt) (i : ℕ) (period c : ℤ) : ℤ :=
  let idle := (list.take (i + 1)).foldl (fun idle d =>
    let temp := ceiling c d.period * d.period - c
    if temp < idle then temp else idle) 234567
  if period - c < idle then period - c else idle

/-- The variables of the walk over the busy and idle periods of one task. -/
structure Walk where
  inBzp : Bool
  c : ℤ
  slack : ℤ
  alpha : ℤ
  deriving DecidableEq, Repr

/-- One turn of the walk: a busy period, or an idle one with a new candidate for `alpha`. -/
def walkTurn (fuel : ℕ) (list : List TaskCt) (i : ℕ) (w : Walk) : Option (Turn Walk Walk) :=
  let period := (list.getD i default).period
  if w.c < period then
    if w.inBzp then do
      let c ← run (busyTurn list i w.slack period) fuel (w.c, true)
      some (.next { w with c := c, inBzp := false })
    else
      let idle := idleDuration list i period w.c
      let tW := w.c + idle
      let slack := w.slack + idle
      -- rounded down, so less than what the task needs
      let speed := (tW - slack) * scaleUpFactor / tW
      some (.next { inBzp := true, c := tW, slack := slack,
                    alpha := if w.alpha < speed then w.alpha else speed })
  else some (.exit w)

/-- The part of `sysclock` for task `i`, entered with the flag the previous task left. -/
def alphaOf (fuel : ℕ) (list : List TaskCt) (i : ℕ) (inBzp : Bool) : Option Walk :=
  run (walkTurn fuel list i) fuel ⟨inBzp, (list.getD i default).budget, 0, 2 * scaleUpFactor⟩

/-- The speeds of `n` tasks from task `i` on. -/
def alphasFrom (fuel : ℕ) (list : List TaskCt) : ℕ → ℕ → Bool → Option (List ℤ)
  | 0, _, _ => some []
  | n + 1, i, inBzp => do
      let w ← alphaOf fuel list i inBzp
      -- `in_bzp` is declared outside the loop and not set again for the next task
      let rest ← alphasFrom fuel list n (i + 1) w.inBzp
      some (w.alpha :: rest)

/-- What `sysclock_per_cpu` computes: every task's speed, and the frequency in kHz. -/
def sysclockSpeeds (fuel maxFrequency : ℕ) (list : List TaskCt) (size : ℕ) :
    Option (List ℤ × ℕ) := do
  let alphas ← alphasFrom fuel list size 0 true
  let maxAlpha := alphas.foldl (fun m a => if a > m then a else m) 0
  some (alphas, (maxFrequency * maxAlpha).toNat)

/-- `list[i].task->alpha = alpha`. -/
def writeAlpha (s : KState) (x : TaskCt × ℤ) : KState :=
  s.modifyTask x.1.task fun p => { p with alpha := x.2.toNat }

/-- `sysclock_per_cpu`. -/
def sysclockPerCpu (e : Env) (list : List TaskCt) (size : ℕ) (s : KState) :
    Call KState (KState × ℕ) :=
  if size ≤ 0 then pure (s, 0)
  else do
    let (alphas, freq) ← Call.ofOption s (sysclockSpeeds e.fuel e.maxFrequency list size)
    pure ((list.zip alphas).foldl writeAlpha s, freq)

/-- `sysclock`. -/
def sysclock (e : Env) (list : List TaskCt) (s : KState) : Call KState (KState × ℕ) :=
  sysclockPerCpu e list s.periodicTasksSize s

/-! ### One frequency per task -/

/-- `get_max`. -/
def getMax (freqs : List ℤ) (pos : ℕ) : ℤ :=
  (freqs.drop (pos + 1)).foldl (fun m f => if f > m then f else m) (freqs.getD pos 0)

/-- `get_table_frequency`: the first valid entry of at least the given frequency. -/
def getTableFrequency (e : Env) (frequency : ℕ) : ℕ :=
  ((e.table.filterMap id).find? fun freq => decide (frequency ≤ freq)).getD frequency

/-- The variables of `inflated_freq`. -/
structure Inflate where
  inBzp : Bool
  w : ℤ
  s : ℤ
  ib : ℤ
  b : ℤ
  alpha : ℤ
  deriving DecidableEq, Repr

/-- The work up to `w` of the tasks of at most `period`, of those that have their frequency
(`fixed`, at that speed) or of those that do not. -/
def inflatedWork (fixed : Bool) (list : List TaskCt) (pmFreq : List ℤ) (period w : ℤ) : ℤ :=
  ((list.zip pmFreq).map fun x =>
    if x.1.period ≤ period ∧ decide (x.2 ≠ 0) = fixed then
      (if fixed then x.1.budget * scaleUpFactor / x.2 else x.1.budget) * (w / x.1.period + 1)
    else 0).sum

/-- The inner loop of `inflated_freq`; the second component says whether `delta` is positive. -/
def inflateBusyTurn (list : List TaskCt) (pmFreq : List ℤ) (period : ℤ) (x : Inflate × Bool) :
    Option (Turn (Inflate × Bool) Inflate) :=
  if x.1.w < period ∧ x.2 = true then
    let ib := inflatedWork true list pmFreq period x.1.w
    let b := inflatedWork false list pmFreq period x.1.w
    let wDash := ib + b + x.1.s
    some (.next ({ x.1 with ib := ib, b := b, w := wDash }, decide (wDash - x.1.w ≠ 0)))
  else some (.exit x.1)

/-- One turn of the loop of `inflated_freq`. -/
def inflateTurn (fuel : ℕ) (list : List TaskCt) (pmFreq : List ℤ) (pos : ℕ) (period : ℤ)
    (x : Inflate) : Option (Turn Inflate Inflate) :=
  if x.w < period then
    if x.inBzp then do
      let y ← run (inflateBusyTurn list pmFreq period) fuel (x, decide (period - x.w > 0))
      some (.next { y with inBzp := false })
    else
      let idle := (list.take (pos + 1)).foldl (fun idle d =>
        let temp := d.period * ceiling x.w d.period - x.w
        if temp < idle then temp else idle) (period - x.w)
      let t := x.w + idle
      let temp := x.b * scaleUpFactor / (t - x.ib)
      some (.next { x with s := x.s + idle, w := t, inBzp := true,
                           alpha := if temp < x.alpha then temp else x.alpha })
  else some (.exit x)

/-- `inflated_freq` for the task at position `pos`. -/
def inflatedFreq (fuel : ℕ) (list : List TaskCt) (pmFreq : List ℤ) (pos : ℕ) : Option ℤ :=
  let curr := list.getD pos default
  (run (inflateTurn fuel list pmFreq pos curr.period) fuel
    ⟨true, curr.budget, 0, 0, 0, 1000⟩).map Inflate.alpha

/-- The loop of `pmclock` that recomputes the lowest frequencies from task `i` on. -/
def reinflate (fuel : ℕ) (list : List TaskCt) (pmFreq : List ℤ) (i : ℕ) (minFreq : List ℤ) :
    Option (List ℤ) :=
  (List.range' i (list.length - i)).foldlM (fun minFreq j => do
    let freq ← inflatedFreq fuel list pmFreq j
    some (minFreq.set j freq)) minFreq

/-- One turn of the loop of `pmclock`: the lowest frequencies and the ones chosen so far. -/
def pmclockStep (fuel : ℕ) (list : List TaskCt) (x : List ℤ × List ℤ) (i : ℕ) :
    Option (List ℤ × List ℤ) :=
  let pmFreq := x.2.set i (getMax x.1 i)
  if i ≠ 0 ∧ pmFreq.getD (i - 1) 0 > pmFreq.getD i 0 then
    let pmFreq := pmFreq.set i 0
    (reinflate fuel list pmFreq i x.1).map fun minFreq =>
      (minFreq, pmFreq.set i (getMax minFreq i))
  else some (x.1, pmFreq.set i (getMax x.1 i))

/-- The frequencies `pmclock` chooses, from the lowest ones `sysclock` left in the tasks. -/
def pmclockFreqs (fuel : ℕ) (list : List TaskCt) (minFreq : List ℤ) : Option (List ℤ) := do
  let x ← (List.range list.length).foldlM (pmclockStep fuel list)
    (minFreq, List.replicate list.length 0)
  some x.2

/-- `list[i].task->pmclock_freq = get_table_frequency(0, pm_freq[i] * 1000)`. -/
def writePmclockFreq (e : Env) (s : KState) (x : TaskCt × ℤ) : KState :=
  s.modifyTask x.1.task fun p => { p with pmclockFreq := getTableFrequency e (x.2 * 1000).toNat }

/-- `pmclock`. -/
def pmclock (e : Env) (list : List TaskCt) (s : KState) : Call KState KState := do
  let freqs ← Call.ofOption s
    (pmclockFreqs e.fuel list (list.map fun c => ((s.task c.task).alpha : ℤ)))
  pure ((list.zip freqs).foldl (writePmclockFreq e) s)

/-- `make_task_ct_struct`. -/
def makeTaskCtStruct (e : Env) (s : KState) : Call KState (List TaskCt) := do
  let tasks ← s.periodicTasks e.fuel
  ctArray s s.periodicTasksSize (tasks.map fun t => { ctOf s t with task := t })

/-- `make_task_ct_struct_per_cpu`. -/
def makeTaskCtStructPerCpu (e : Env) (cpu : ℕ) (s : KState) : Call KState (List TaskCt) := do
  let tasks ← s.perCpuTasks e.fuel cpu
  ctArray s (s.perCpuListSize cpu) (tasks.map fun t => { ctOf s t with task := t })

/-! ### Rescaling the budgets -/

/-- The budget a reservation made at the maximum frequency has at another one. -/
def updatedBudget (maxFreq freq : ℕ) (minBudgetTime : Timespec) : Timespec :=
  nsToTimespec (timespecToNs minBudgetTime * maxFreq / freq)

/-- One turn of the first loop of `apply_sysclock` and `apply_pmclock`: new budget, timers off, and
the threads are woken. -/
def applyBudget (e : Env) (freq : TaskStruct → ℕ) (s : KState) (curr : Tid) : KState :=
  let s := s.modifyTask curr fun p =>
    { p with budgetTimer := none, periodTimer := none, computeTime := ⟨0, 0⟩,
             budgetTime := updatedBudget e.maxFreq (freq p) p.minBudgetTime }
  s.eachThread curr wakeUpProcess

/-- `hrtimer_start` on the period timer. -/
def startPeriodTimer (s : KState) (curr : Tid) : KState :=
  s.modifyTask curr fun p => { p with periodTimer := some (s.now + timespecToNs p.timePeriod) }

/-- The two loops of `apply_sysclock` and `apply_pmclock`. -/
def applyFrequency (e : Env) (freq : TaskStruct → ℕ) (s : KState) : Call KState KState := do
  let list ← s.periodicTasks e.fuel
  let s := list.foldl (applyBudget e freq) s
  pure (list.foldl startPeriodTimer s)

/-- `apply_sysclock`. -/
def applySysclock (e : Env) (frequency : ℕ) (s : KState) : Call KState (KState × ℕ) := do
  let frequency := getTableFrequency e frequency
  let s ← applyFrequency e (fun _ => frequency) s
  pure (s, frequency)

/-- `apply_pmclock`. -/
def applyPmclock (e : Env) (s : KState) : Call KState KState :=
  applyFrequency e (fun p => getTableFrequency e p.pmclockFreq) s

/-! ### What the clock functions change -/

section Effect

variable {e : Env} {s : KState} {list : List Tid}

theorem wakeUpProcess_clockOnly (p : TaskStruct) : ClockOnly p (wakeUpProcess p) := by
  unfold wakeUpProcess
  split <;> rfl

theorem writeAlpha_update (s : KState) (x : TaskCt × ℤ) :
    TaskUpdate SpeedOnly s (writeAlpha s x) := taskUpdate_modifyTask SpeedOnly.refl rfl

theorem writePmclockFreq_update (e : Env) (s : KState) (x : TaskCt × ℤ) :
    TaskUpdate SpeedOnly s (writePmclockFreq e s x) := taskUpdate_modifyTask SpeedOnly.refl rfl

/-- A loop over the array and one value for each task writes the value into the task. -/
theorem foldl_zip_modifyTask {cts : List TaskCt} (hnodup : (cts.map TaskCt.task).Nodup) (s : KState)
    {v : List ℤ} (hv : v.length = cts.length) (f : TaskCt × ℤ → TaskStruct → TaskStruct) {i : ℕ}
    (hi : i < cts.length) :
    ((cts.zip v).foldl (fun s x => s.modifyTask x.1.task (f x)) s).task (cts.getD i default).task =
      f (cts.getD i default, v.getD i 0) (s.task (cts.getD i default).task) := by
  have hkeys : ((cts.zip v).map fun x => x.1.task).Nodup := by
    have hfst : ((cts.zip v).map Prod.fst).map TaskCt.task = cts.map TaskCt.task := by
      rw [List.map_fst_zip hv.ge]
    rwa [← hfst, List.map_map] at hnodup
  have hi' : i < (cts.zip v).length := by
    rw [List.length_zip, hv, min_self]
    exact hi
  have hget : (cts.zip v)[i] = (cts.getD i default, v.getD i 0) := by
    rw [List.getElem_zip, List.getD_eq_getElem _ _ hi, List.getD_eq_getElem _ _ (hv ▸ hi)]
  have hx := (foldl_modifyTask (fun x : TaskCt × ℤ => x.1.task) f hkeys s).1 _
    (List.getElem_mem hi')
  rwa [hget] at hx

theorem sysclockPerCpu_update (e : Env) (list : List TaskCt) (size : ℕ) (s : KState) :
    Call.Sat (fun x => TaskUpdate SpeedOnly s x.1) (fun _ => False)
      (sysclockPerCpu e list size s) := by
  refine Call.sat_ite (fun _ => TaskUpdate.refl SpeedOnly.refl s) fun _ => ?_
  refine Call.Sat.bind (Call.sat_ofOption (Q := fun _ => True) fun _ _ => trivial) fun x _ => ?_
  exact taskUpdate_foldl SpeedOnly.refl SpeedOnly.trans id writeAlpha_update _ s

theorem sysclock_update (e : Env) (list : List TaskCt) (s : KState) :
    Call.Sat (fun x => TaskUpdate SpeedOnly s x.1) (fun _ => False) (sysclock e list s) :=
  sysclockPerCpu_update e list _ s

theorem pmclock_update (e : Env) (list : List TaskCt) (s : KState) :
    Call.Sat (TaskUpdate SpeedOnly s) (fun _ => False) (pmclock e list s) := by
  refine Call.Sat.bind (Call.sat_ofOption (Q := fun _ => True) fun _ _ => trivial) fun x _ => ?_
  exact taskUpdate_foldl SpeedOnly.refl SpeedOnly.trans id (writePmclockFreq_update e) _ s

theorem ctArray_sat (s : KState) (size : ℕ) (cts : List TaskCt) :
    Call.Sat (fun l => l = cts) (fun s' => s' = s) (ctArray s size cts) :=
  Call.sat_ite (fun _ => rfl) (fun _ => rfl)

theorem makeTaskCtStruct_sat (h : Kept s list) (e : Env) :
    Call.Sat (fun l => l = list.map fun t => { ctOf s t with task := t })
      (fun s' => s' = s ∧ list = []) (makeTaskCtStruct e s) := by
  refine (h.periodicTasks_sat e.fuel).bind ?_
  rintro l rfl
  rw [ctArray, List.length_map, if_pos h.size.symm]
  rfl

/-- The array of `make_task_ct_struct`. -/
def timedCts (s : KState) (list : List Tid) : List TaskCt :=
  list.map fun t => { ctOf s t with task := t }

theorem timedCts_congr {s' : KState} (h : ∀ t ∈ list,
    (s'.task t).timePeriod = (s.task t).timePeriod ∧
      (s'.task t).minBudgetTime = (s.task t).minBudgetTime) :
    timedCts s' list = timedCts s list := by
  refine List.map_congr_left fun t ht => ?_
  rw [ctOf, ctOf, (h t ht).1, (h t ht).2]

theorem timedCts_of_registry {s' : KState} (h : s'.registry = s.registry) (list : List Tid) :
    timedCts s' list = timedCts s list :=
  timedCts_congr fun t _ => ⟨(registry_task h t).timePeriod,
    congrArg TaskReg.minBudgetTime (registry_task h t)⟩

/-- What the loops of `apply_sysclock` have done to the tasks before `done`. -/
structure Rescaled (e : Env) (freq : TaskStruct → ℕ) (s : KState) (done : List Tid) (s' : KState) :
    Prop where
  update : TaskUpdate ClockOnly s s'
  pmclockFreq : ∀ t, (s'.task t).pmclockFreq = (s.task t).pmclockFreq
  budget : ∀ t ∈ done, (s'.task t).budgetTime =
    updatedBudget e.maxFreq (freq (s.task t)) (s.task t).minBudgetTime

theorem applyBudget_update (e : Env) (freq : TaskStruct → ℕ) (s : KState) (curr : Tid) :
    TaskUpdate ClockOnly s (applyBudget e freq s curr) := by
  refine TaskUpdate.trans ClockOnly.trans ?_
    (taskUpdate_eachThread ClockOnly.refl wakeUpProcess_clockOnly)
  exact taskUpdate_modifyTask ClockOnly.refl rfl

theorem startPeriodTimer_update (s : KState) (curr : Tid) :
    TaskUpdate ClockOnly s (startPeriodTimer s curr) :=
  taskUpdate_modifyTask ClockOnly.refl rfl

theorem ClockOnly.minBudgetTime {p q : TaskStruct} (h : ClockOnly p q) :
    q.minBudgetTime = p.minBudgetTime := congrArg TaskReg.minBudgetTime h.reg

/-- One turn of the first loop: only the task itself gets a new budget. -/
theorem applyBudget_task (e : Env) (freq : TaskStruct → ℕ) (s : KState) (curr t : Tid) :
    ((applyBudget e freq s curr).task t).pmclockFreq = (s.task t).pmclockFreq ∧
    ((applyBudget e freq s curr).task t).budgetTime =
      if t = curr then updatedBudget e.maxFreq (freq (s.task t)) (s.task t).minBudgetTime
      else (s.task t).budgetTime := by
  rw [applyBudget, KState.eachThread_task, KState.modifyTask_task]
  split_ifs
  all_goals
    first
    | exact ⟨rfl, rfl⟩
    | obtain ⟨state, -, hw⟩ := wakeUpProcess_eq _
      rw [hw]
      exact ⟨rfl, rfl⟩

/-- A frequency that depends on no field the rescaling writes. -/
def FreqStable (freq : TaskStruct → ℕ) : Prop :=
  ∀ p q : TaskStruct, q.pmclockFreq = p.pmclockFreq → freq q = freq p

theorem rescaled_step {freq : TaskStruct → ℕ} (hfreq : FreqStable freq) {done : List Tid}
    {s' : KState} {curr : Tid} (h : Rescaled e freq s done s') :
    Rescaled e freq s (done ++ [curr]) (applyBudget e freq s' curr) := by
  refine ⟨h.update.trans ClockOnly.trans (applyBudget_update e freq s' curr), fun t => ?_,
    fun t ht => ?_⟩
  · rw [(applyBudget_task e freq s' curr t).1, h.pmclockFreq]
  · rw [(applyBudget_task e freq s' curr t).2, hfreq _ _ (h.pmclockFreq t),
      (h.update.task t).minBudgetTime]
    split_ifs with htc
    · rfl
    · rcases List.mem_append.1 ht with ht | ht
      · exact h.budget t ht
      · exact absurd (List.mem_singleton.1 ht) htc

theorem rescaled_foldl {freq : TaskStruct → ℕ} (hfreq : FreqStable freq) (l : List Tid)
    {s' : KState} (h : Rescaled e freq s [] s') :
    Rescaled e freq s l (l.foldl (applyBudget e freq) s') :=
  Loop.foldl_inv h fun _ _ _ _ _ h => rescaled_step hfreq h

theorem rescaled_start {freq : TaskStruct → ℕ} {done : List Tid} {s' : KState} (l : List Tid)
    (h : Rescaled e freq s done s') : Rescaled e freq s done (l.foldl startPeriodTimer s') := by
  induction l generalizing s' with
  | nil => exact h
  | cons t l ih =>
    refine ih ⟨h.update.trans ClockOnly.trans (startPeriodTimer_update s' t), fun u => ?_,
      fun u hu => ?_⟩
    · rw [← h.pmclockFreq, startPeriodTimer, KState.modifyTask_task]
      split_ifs <;> rfl
    · rw [← h.budget u hu, startPeriodTimer, KState.modifyTask_task]
      split_ifs <;> rfl

/-- Every listed task gets the budget of its frequency. -/
theorem applyFrequency_sat (h : Kept s list) {freq : TaskStruct → ℕ} (hfreq : FreqStable freq) :
    Call.Sat (Rescaled e freq s list) (fun s' => s' = s ∧ list = []) (applyFrequency e freq s) := by
  refine (h.periodicTasks_sat e.fuel).bind ?_
  rintro l rfl
  have h0 : Rescaled e freq s [] s := ⟨TaskUpdate.refl ClockOnly.refl s, fun _ => rfl, by simp⟩
  exact rescaled_start l (rescaled_foldl hfreq l h0)

theorem applySysclock_sat (h : Kept s list) (frequency : ℕ) :
    Call.Sat (fun x => x.2 = getTableFrequency e frequency ∧ Rescaled e (fun _ => x.2) s list x.1)
      (fun s' => s' = s ∧ list = []) (applySysclock e frequency s) := by
  refine (applyFrequency_sat h fun _ _ _ => rfl).bind fun s' hs' => ?_
  exact ⟨rfl, hs'⟩

theorem applyPmclock_sat (h : Kept s list) :
    Call.Sat (Rescaled e (fun p => getTableFrequency e p.pmclockFreq) s list)
      (fun s' => s' = s ∧ list = []) (applyPmclock e s) :=
  applyFrequency_sat h fun p q hpq => by rw [hpq]

/-! ### Frequencies of the table -/

/-- Looking up what the table gave finds it again. -/
theorem getTableFrequency_idem (e : Env) (f : ℕ) :
    getTableFrequency e (getTableFrequency e f) = getTableFrequency e f := by
  unfold getTableFrequency
  cases hf : (e.table.filterMap id).find? fun freq => decide (f ≤ freq) with
  | none =>
    simp only [Option.getD_none]
    rw [hf]
    rfl
  | some g =>
    -- every entry before `g` is below `f`, so below `g`
    obtain ⟨hg, l, r, hlr, hl⟩ := List.find?_eq_some_iff_append.1 hf
    have hfg : f ≤ g := by simpa using hg
    have : (e.table.filterMap id).find? (fun freq => decide (g ≤ freq)) = some g := by
      refine List.find?_eq_some_iff_append.2 ⟨by simp, l, r, hlr, fun a ha => ?_⟩
      have := hl a ha
      simp only [Bool.not_eq_true', decide_eq_false_iff_not, not_le] at this ⊢
      omega
    simp only [Option.getD_some]
    rw [this]
    rfl

/-- A frequency the table gives back unchanged. -/
def InTable (e : Env) (f : ℕ) : Prop := getTableFrequency e f = f

theorem pmclockStep_length {fuel : ℕ} {cts : List TaskCt} {x y : List ℤ × List ℤ} {i : ℕ}
    (h : pmclockStep fuel cts x i = some y) : y.2.length = x.2.length := by
  simp only [pmclockStep] at h
  split_ifs at h
  · obtain ⟨m, -, rfl⟩ := Option.map_eq_some_iff.1 h
    simp
  · cases h
    simp

theorem pmclockFreqs_length {fuel : ℕ} {cts : List TaskCt} {minFreq freqs : List ℤ}
    (h : pmclockFreqs fuel cts minFreq = some freqs) : freqs.length = cts.length := by
  obtain ⟨x, hx, hfreqs⟩ := Option.bind_eq_some_iff.1 h
  cases hfreqs
  rw [List.range_eq_range'] at hx
  exact foldlM_inv (I := fun _ x => x.2.length = cts.length)
    (fun i x y _ hx hstep => (pmclockStep_length hstep).trans hx) le_rfl
    List.length_replicate hx

/-- `pmclock` leaves a frequency of the table in every task of its array. -/
theorem pmclock_inTable (e : Env) (cts : List TaskCt) (s : KState) :
    Call.Sat (fun s' => ∀ c ∈ cts, InTable e (s'.task c.task).pmclockFreq) (fun _ => False)
      (pmclock e cts s) := by
  have hfold : ∀ (l : List (TaskCt × ℤ)) (s : KState) (t : Tid),
      (∃ x ∈ l, x.1.task = t) ∨ InTable e (s.task t).pmclockFreq →
        InTable e ((l.foldl (writePmclockFreq e) s).task t).pmclockFreq := by
    intro l
    induction l with
    | nil =>
      intro s t h
      simpa using h
    | cons x l ih =>
      intro s t h
      refine ih _ t ?_
      rw [writePmclockFreq, KState.modifyTask_task]
      by_cases ht : t = x.1.task
      · rw [if_pos ht]
        exact Or.inr (getTableFrequency_idem e _)
      · rw [if_neg ht]
        refine h.imp (fun ⟨y, hy, hyt⟩ => ?_) id
        rcases List.mem_cons.1 hy with rfl | hy
        · exact absurd hyt.symm ht
        · exact ⟨y, hy, hyt⟩
  refine Call.Sat.bind (Call.sat_ofOption fun _ h => pmclockFreqs_length h) fun freqs hlen => ?_
  intro c hc
  refine hfold _ s c.task (Or.inl ?_)
  obtain ⟨i, hi, rfl⟩ := List.getElem_of_mem hc
  have hi' : i < (cts.zip freqs).length := by
    rw [List.length_zip, hlen]
    simpa using hi
  exact ⟨(cts.zip freqs)[i], List.getElem_mem hi', by rw [List.getElem_zip]⟩

end Effect

end RtSched
