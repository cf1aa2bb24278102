import RtSched.Base.Best
import RtSched.Base.Run
import RtSched.PmSysClock
import RtSched.Switch

/-!
# The frequency of the CPUs (`drivers/cpufreq`, `arch/arm/mach-tegra/cpu-tegra.c`)

The system calls and `set_pmclock_freq` ask the driver for a frequency of one CPU.  All CPUs have one clock:
the driver keeps what was asked for each CPU, and sets the clock to the highest of those that are online,
within the limits of the thermal throttling, of the EDP tables and of the user.

The processor has two clusters, the fast `cpu_g` and the slow `cpu_lp`, and the clock is rounded to the
range of the one that is active (`tegra3_clocks.c`).  Setting it may fail, as may a vote for the memory
bus: an event says from when on it does.  An EDP limit is an argument of the event that brings it, and the
CPUs come and go, and the clusters are switched, as the hotplug governor likes.

* `frequencyTableTarget`: the entry of the table that is chosen for a frequency;
* `FreqDriver`: the state of the driver, `FreqEvent` what happens to it;
* `FreqInv`: outside of a suspend the clock is not above a limit, and not below what is asked for and
  allowed;
* `clock_between`, `request_kept`: what that is worth for a CPU.
-/

namespace RtSched

open Call Best

/-! ### The table -/

/-- `CPUFREQ_RELATION_L`, the lowest frequency at or above the target, and `CPUFREQ_RELATION_H`. -/
inductive FreqRelation
  | low
  | high
  deriving DecidableEq

/-- The variables of `cpufreq_frequency_table_target`. -/
structure TableBest where
  optimal : Option ℕ
  suboptimal : Option ℕ

/-- A turn of its loop; an entry that is not valid is nothing. -/
def tableTurn (min max target : ℕ) (relation : FreqRelation) (b : TableBest) : Option ℕ → TableBest
  | none => b
  | some freq =>
      if freq < min ∨ max < freq then b
      else match relation with
        | .high =>
            if freq ≤ target then { b with optimal := keep (· ≥ ·) b.optimal freq }
            else { b with suboptimal := keep (· ≤ ·) b.suboptimal freq }
        | .low =>
            if target ≤ freq then { b with optimal := keep (· ≤ ·) b.optimal freq }
            else { b with suboptimal := keep (· ≥ ·) b.suboptimal freq }

/-- `cpufreq_frequency_table_target`: the frequency of the entry, or nothing for `-EINVAL`. -/
def frequencyTableTarget (table : List (Option ℕ)) (min max target : ℕ) (relation : FreqRelation) :
    Option ℕ :=
  let b := table.foldl (tableTurn min max target relation) ⟨none, none⟩
  b.optimal.or b.suboptimal

/-- `table[i].frequency`, with `CPUFREQ_ENTRY_INVALID` for an entry that is not valid. -/
def entryFreq (entry : Option ℕ) : ℕ := entry.getD 4294967295

/-- `clip_to_table`, and the loop of `_cpu_user_cap_set_locked`: the last entry before the first that is
above `speed`, or the first one.  An empty table has `CPUFREQ_TABLE_END` there. -/
def clipToTable (table : List (Option ℕ)) (speed : ℕ) : ℕ :=
  let freqs := table.map entryFreq
  (freqs.takeWhile (· ≤ speed)).getLast?.getD (freqs.headD 4294967294)

/-- The frequencies of `throttle_table` after `tegra_throttle_init`; `lowest` is the one of the entry
`throttle_lowest_index`. -/
def throttleInit (table : List (Option ℕ)) (lowest : ℕ) : List ℕ :=
  [lowest, 640000, 640000, 640000, 640000, 640000, 760000, 760000, 1000000, 1000000].map
    (clipToTable table)

section Table

variable {table : List (Option ℕ)} {min max target f : ℕ} {relation : FreqRelation}

theorem filterMap_snoc (done : List (Option ℕ)) (freq : ℕ) :
    (done ++ [some freq]).filterMap id = done.filterMap id ++ [freq] := by
  simp

/-- Among the entries within the limits, the best one on the side of the target that `relation` asks for,
and the best one on the other side. -/
structure TableInv (min max target : ℕ) (relation : FreqRelation) (entries : List ℕ) (b : TableBest) :
    Prop where
  low : relation = .low →
    IsBest (· ≤ ·) (fun f => (min ≤ f ∧ f ≤ max) ∧ target ≤ f) entries b.optimal ∧
      IsBest (· ≥ ·) (fun f => (min ≤ f ∧ f ≤ max) ∧ f < target) entries b.suboptimal
  high : relation = .high →
    IsBest (· ≥ ·) (fun f => (min ≤ f ∧ f ≤ max) ∧ f ≤ target) entries b.optimal ∧
      IsBest (· ≤ ·) (fun f => (min ≤ f ∧ f ≤ max) ∧ target < f) entries b.suboptimal

theorem tableInv_foldl (table : List (Option ℕ)) (min max target : ℕ) (relation : FreqRelation) :
    TableInv min max target relation (table.filterMap id)
      (table.foldl (tableTurn min max target relation) ⟨none, none⟩) := by
  refine Loop.foldl_inv (I := fun done b => TableInv min max target relation (done.filterMap id) b)
    ⟨fun _ => ⟨isBest_nil, isBest_nil⟩, fun _ => ⟨isBest_nil, isBest_nil⟩⟩ ?_
  rintro done entry rest b - h
  cases entry with
  | none => simpa [tableTurn] using h
  | some freq =>
    rw [filterMap_snoc]
    cases relation with
    | low =>
      obtain ⟨hopt, hsub⟩ := h.low rfl
      refine ⟨fun _ => ?_, fun hrel => FreqRelation.noConfusion hrel⟩
      simp only [tableTurn]
      split_ifs with hout htarget
      · exact ⟨hopt.skip (by omega), hsub.skip (by omega)⟩
      · exact ⟨hopt.keep (by omega), hsub.skip (by omega)⟩
      · exact ⟨hopt.skip (by omega), hsub.keep (by omega)⟩
    | high =>
      obtain ⟨hopt, hsub⟩ := h.high rfl
      refine ⟨fun hrel => FreqRelation.noConfusion hrel, fun _ => ?_⟩
      simp only [tableTurn]
      split_ifs with hout htarget
      · exact ⟨hopt.skip (by omega), hsub.skip (by omega)⟩
      · exact ⟨hopt.keep (by omega), hsub.skip (by omega)⟩
      · exact ⟨hopt.skip (by omega), hsub.keep (by omega)⟩

/-- If there is an entry `f` within the limits, then for a target from `f` on no lower entry is chosen. -/
theorem frequencyTableTarget_ge (hmem : some f ∈ table) (hmin : min ≤ f) (hmax : f ≤ max)
    (hle : f ≤ target) : ∃ x, frequencyTableTarget table min max target relation = some x ∧ f ≤ x := by
  have hf : f ∈ table.filterMap id := List.mem_filterMap.2 ⟨some f, hmem, rfl⟩
  have hinv := tableInv_foldl table min max target relation
  rw [frequencyTableTarget]
  generalize table.foldl (tableTurn min max target relation) ⟨none, none⟩ = b at hinv
  obtain ⟨optimal, suboptimal⟩ := b
  cases relation with
  | high =>
    obtain ⟨x, rfl, hfx⟩ := (hinv.high rfl).1.best f hf ⟨⟨hmin, hmax⟩, hle⟩
    exact ⟨x, rfl, hfx⟩
  | low =>
    obtain ⟨hopt, hsub⟩ := hinv.low rfl
    cases optimal with
    | some x => exact ⟨x, rfl, hle.trans (hopt.mem x rfl).2.2⟩
    | none =>
      -- the entry itself is below the target
      have hlt : f < target := by
        by_contra hge
        obtain ⟨x, hx, -⟩ := hopt.best f hf ⟨⟨hmin, hmax⟩, not_lt.1 hge⟩
        cases hx
      obtain ⟨x, hx, hfx⟩ := hsub.best f hf ⟨⟨hmin, hmax⟩, hlt⟩
      exact ⟨x, hx, hfx⟩

/-- The last element up to `speed` of an ascending list, or the one before the list. -/
theorem le_getLast_takeWhile {first speed : ℕ} {freqs : List ℕ}
    (hsorted : (first :: freqs).Pairwise (· ≤ ·)) :
    first ≤ (freqs.takeWhile (· ≤ speed)).getLast?.getD first := by
  induction freqs generalizing first with
  | nil => exact le_rfl
  | cons freq freqs ih =>
    have hle : first ≤ freq := (List.pairwise_cons.1 hsorted).1 freq List.mem_cons_self
    by_cases hfreq : freq ≤ speed
    · rw [List.takeWhile_cons_of_pos (by simpa using hfreq), List.getLast?_cons, Option.getD_some]
      exact hle.trans (ih (List.pairwise_cons.1 hsorted).2)
    · rw [List.takeWhile_cons_of_neg (by simpa using hfreq)]
      exact le_rfl

theorem getLast_takeWhile_mono {first s t : ℕ} {freqs : List ℕ}
    (hsorted : (first :: freqs).Pairwise (· ≤ ·)) (hst : s ≤ t) :
    (freqs.takeWhile (· ≤ s)).getLast?.getD first ≤ (freqs.takeWhile (· ≤ t)).getLast?.getD first := by
  induction freqs generalizing first with
  | nil => exact le_rfl
  | cons freq freqs ih =>
    by_cases hs : freq ≤ s
    · have ht : freq ≤ t := hs.trans hst
      rw [List.takeWhile_cons_of_pos (by simpa using hs), List.takeWhile_cons_of_pos (by simpa using ht),
        List.getLast?_cons, List.getLast?_cons, Option.getD_some, Option.getD_some]
      exact ih (List.pairwise_cons.1 hsorted).2
    · rw [List.takeWhile_cons_of_neg (p := fun x => decide (x ≤ s)) (by simpa using hs)]
      exact le_getLast_takeWhile hsorted

theorem clipToTable_mono (hsorted : (table.map entryFreq).Pairwise (· ≤ ·)) :
    Monotone (clipToTable table) := by
  intro s t hst
  unfold clipToTable
  cases hfreqs : table.map entryFreq with
  | nil => exact le_rfl
  | cons freq freqs =>
    rw [hfreqs] at hsorted
    refine getLast_takeWhile_mono (List.pairwise_cons.2 ⟨fun x hx => ?_, hsorted⟩) hst
    rcases List.mem_cons.1 hx with rfl | hx
    · exact le_rfl
    · exact (List.pairwise_cons.1 hsorted).1 x hx

/-- `tegra_throttle_init` leaves the throttle table in ascending order if the frequency table is. -/
theorem throttleInit_sorted {lowest : ℕ} (hsorted : (table.map entryFreq).Pairwise (· ≤ ·))
    (hlowest : lowest ≤ 640000) : (throttleInit table lowest).Pairwise (· ≤ ·) := by
  refine List.Pairwise.map _ (fun s t hst => clipToTable_mono hsorted hst) ?_
  refine List.pairwise_cons.2 ⟨fun x hx => hlowest.trans ?_, by decide⟩
  revert x
  decide

end Table

/-! ### The driver -/

/-- `cpu_g` and `cpu_lp`. -/
inductive Cluster
  | g
  | lp
  deriving DecidableEq

/-- What does not change: `freq_table`, the frequencies of `throttle_table`,
`freq_table[suspend_index]`, and the ranges of the clusters. -/
structure FreqConfig where
  table : List (Option ℕ)
  throttleTable : List ℕ
  suspendFreq : ℕ
  idleBottomFreq : ℕ
  minRate : Cluster → ℕ
  maxRate : Cluster → ℕ

/-- `tegra3_cpu_cmplx_round_rate` -/
def FreqConfig.roundRate (cfg : FreqConfig) (cluster : Cluster) (rate : ℕ) : ℕ :=
  if cfg.maxRate cluster < rate then cfg.maxRate cluster
  else if rate < cfg.minRate cluster then cfg.minRate cluster
  else rate

/-- The variables of `cpu-tegra.c` and `tegra3_throttle.c`, the limits of the policies, and the clock. -/
structure FreqDriver where
  online : Fin maxCpu → Bool
  /-- `cpufreq_cpu_data` is set -/
  hasPolicy : Fin maxCpu → Bool
  policyMin : Fin maxCpu → ℕ
  policyMax : Fin maxCpu → ℕ
  targetCpuSpeed : Fin maxCpu → ℕ
  policyMaxSpeed : Fin maxCpu → ℕ
  forcePolicyMax : Bool
  isSuspended : Bool
  isThrottling : ℕ
  throttleIndex : ℕ
  edpLimit : ℕ
  cpuUserCap : ℕ
  /-- `tegra_getspeed` -/
  rate : ℕ
  cluster : Cluster
  /-- neither the clock nor the memory bus can be set -/
  clockFails : Bool

namespace FreqDriver

variable (cfg : FreqConfig) (d : FreqDriver)

/-- `tegra_cpu_highest_speed` -/
def highestSpeed : ℕ :=
  let rate := (Finset.univ.filter fun c => d.online c = true).sup d.targetCpuSpeed
  if d.forcePolicyMax then
    ((List.finRange maxCpu).filter d.online).foldl (fun r c => min r (d.policyMaxSpeed c)) rate
  else rate

/-- `tegra_throttle_governor_speed` -/
def throttleGovernorSpeed (speed : ℕ) : ℕ :=
  if d.isThrottling ≠ 0 then min speed (cfg.throttleTable.getD d.throttleIndex 0) else speed

/-- `edp_governor_speed` -/
def edpGovernorSpeed (speed : ℕ) : ℕ :=
  if d.edpLimit = 0 ∨ speed ≤ d.edpLimit then speed else d.edpLimit

/-- `user_cap_speed` -/
def userCapSpeed (speed : ℕ) : ℕ :=
  if d.cpuUserCap ≠ 0 ∧ d.cpuUserCap < speed then d.cpuUserCap else speed

/-- The three limits, in the order of `tegra_cpu_set_speed_cap`. -/
def capped (speed : ℕ) : ℕ := d.userCapSpeed (d.edpGovernorSpeed (d.throttleGovernorSpeed cfg speed))

/-- `tegra_update_cpu_speed` -/
def updateCpuSpeed (speed : ℕ) : FreqDriver × ℤ :=
  let new := cfg.roundRate d.cluster speed
  if d.rate = new then (d, 0)
  else if d.clockFails then (d, -22)
  else ({ d with rate := new }, 0)

/-- `tegra_cpu_set_speed_cap` -/
def setSpeedCap : FreqDriver × ℤ :=
  if d.isSuspended then (d, -16) else d.updateCpuSpeed cfg (d.capped cfg d.highestSpeed)

/-- `tegra3_cpu_cmplx_clk_set_parent`, without the parameters of `/sys`. -/
def setParent (p : Cluster) : FreqDriver × ℤ :=
  if p = d.cluster then (d, 0)
  else if cfg.maxRate p < d.rate then (d, -125)
  else if d.clockFails then (d, -22)
  else ({ d with cluster := p }, 0)

/-- The switches of `tegra_auto_hotplug_work_func`: "catch-up with governor target speed". -/
def switchCluster (p : Cluster) : FreqDriver :=
  let x := d.setParent cfg p
  if x.2 = 0 then (x.1.setSpeedCap cfg).1 else x.1

/-- `min_cpus_notify` -/
def minCpusNotify (n : ℕ) : FreqDriver :=
  let d :=
    if 1 ≤ n ∧ d.cluster = .lp then
      ((d.updateCpuSpeed cfg (max d.rate (cfg.minRate .g))).1.setParent cfg .g).1
    else d
  (d.setSpeedCap cfg).1

/-- `tegra_target` -/
def tegraTarget (cpu : Fin maxCpu) (freq : ℕ) (relation : FreqRelation) : FreqDriver × ℤ :=
  match frequencyTableTarget cfg.table (d.policyMin cpu) (d.policyMax cpu) freq relation with
  | none => (d, -22)
  | some speed =>
      ({ d with targetCpuSpeed := Function.update d.targetCpuSpeed cpu speed }).setSpeedCap cfg

/-- `__cpufreq_driver_target` -/
def driverTarget (cpu : Fin maxCpu) (freq : ℕ) (relation : FreqRelation) : FreqDriver × ℤ :=
  if d.online cpu then d.tegraTarget cfg cpu freq relation else (d, -22)

/-- `tegra_cpufreq_policy_notifier`, for the limits that the policy is about to have. -/
def policyNotifier (cpu : Fin maxCpu) (min max : ℕ) : FreqDriver :=
  let speed :=
    if d.online cpu then (frequencyTableTarget cfg.table min max max .high).getD max else max
  { d with policyMaxSpeed := Function.update d.policyMaxSpeed cpu speed }

/-- Another limit of the throttling, if the clock is above it. -/
def checkThrottle : FreqDriver :=
  if cfg.throttleTable.getD d.throttleIndex 0 < d.rate then (d.setSpeedCap cfg).1 else d

/-- `tegra_throttling_enable` -/
def throttlingEnable (enable : Bool) : FreqDriver :=
  if enable then
    if d.isThrottling = 0 then
      ({ d with isThrottling := 1, throttleIndex := cfg.throttleTable.length - 1 }).checkThrottle cfg
    else { d with isThrottling := d.isThrottling + 1 }
  else if d.isThrottling ≠ 0 then
    let d := { d with isThrottling := d.isThrottling - 1 }
    if d.isThrottling = 0 then (d.setSpeedCap cfg).1 else d
  else d

/-- `tegra_throttle_work_func` -/
def throttleWork : FreqDriver :=
  if d.isThrottling = 0 then d
  else ({ d with throttleIndex := d.throttleIndex - 1 }).checkThrottle cfg

/-- `tegra_cpu_user_cap_set` -/
def userCapSet (speed : ℕ) : FreqDriver :=
  let cap := if speed ≠ 0 then clipToTable cfg.table speed else speed
  (({ d with cpuUserCap := cap }).setSpeedCap cfg).1

/-- `tegra_cpu_edp_notify` for `CPU_DEAD`. -/
def edpDead (limit : ℕ) : FreqDriver := (({ d with edpLimit := limit }).setSpeedCap cfg).1

/-- `tegra_edp_update_thermal_zone` and `tegra_system_edp_alarm`, once the first CPU has its policy. -/
def edpUpdate (limit : ℕ) : FreqDriver := if d.targetCpuSpeed 0 ≠ 0 then d.edpDead cfg limit else d

/-- `tegra_cpu_edp_notify` for `CPU_UP_PREPARE`; the limit is taken back if the clock cannot be set. -/
def edpPrepare (limit : ℕ) : FreqDriver :=
  let d' := { d with edpLimit := limit }
  if d'.edpGovernorSpeed d.rate < d.rate then
    if (d'.setSpeedCap cfg).2 = 0 then (d'.setSpeedCap cfg).1 else d
  else d'

/-- `force_policy_max_set` -/
def forceMax (force : Bool) : FreqDriver :=
  if d.forcePolicyMax = force then d else (({ d with forcePolicyMax := force }).setSpeedCap cfg).1

/-- `tegra_pm_notify` for `PM_SUSPEND_PREPARE`, with the switch of `tegra_auto_hotplug_governor`. -/
def suspend : FreqDriver :=
  let d := (({ d with isSuspended := true }).updateCpuSpeed cfg cfg.suspendFreq).1
  if d.cluster = .lp ∧ cfg.idleBottomFreq ≤ cfg.suspendFreq then (d.setParent cfg .g).1 else d

/-- `tegra_suspended_target` -/
def suspendedTarget (freq : ℕ) : FreqDriver :=
  if d.isSuspended then
    (d.updateCpuSpeed cfg (d.edpGovernorSpeed (d.throttleGovernorSpeed cfg freq))).1
  else d

/-- `tegra_pm_notify` for `PM_POST_SUSPEND`. -/
def resume (limit : ℕ) : FreqDriver :=
  (({ d with isSuspended := false, edpLimit := limit }).setSpeedCap cfg).1

/-- A CPU comes up.  What it asked for when it went down counts again, until it has a policy. -/
def cpuUp (cpu : Fin maxCpu) : FreqDriver := { d with online := Function.update d.online cpu true }

/-- `tegra_cpu_init`, from `cpufreq_add_dev`: the CPU asks for the clock as it is. -/
def cpuInit (cpu : Fin maxCpu) : FreqDriver :=
  { d with
    hasPolicy := Function.update d.hasPolicy cpu true
    targetCpuSpeed := Function.update d.targetCpuSpeed cpu d.rate }

/-- `__cpufreq_remove_dev` -/
def cpuExit (cpu : Fin maxCpu) : FreqDriver :=
  { d with hasPolicy := Function.update d.hasPolicy cpu false }

/-- A CPU goes down. -/
def cpuDown (cpu : Fin maxCpu) : FreqDriver := { d with online := Function.update d.online cpu false }

end FreqDriver

/-- What happens to the driver. -/
inductive FreqEvent
  | target (cpu : Fin maxCpu) (freq : ℕ) (relation : FreqRelation)
  /-- `policy->min` and `policy->max` are written -/
  | limits (cpu : Fin maxCpu) (min max : ℕ)
  | policyNotifier (cpu : Fin maxCpu) (min max : ℕ)
  | throttlingEnable (enable : Bool)
  | throttleWork
  | userCapSet (speed : ℕ)
  | edpUpdate (limit : ℕ)
  | edpDead (limit : ℕ)
  | edpPrepare (limit : ℕ)
  | forceMax (force : Bool)
  | suspend
  | suspendedTarget (freq : ℕ)
  | resume (limit : ℕ)
  | cpuUp (cpu : Fin maxCpu)
  | cpuInit (cpu : Fin maxCpu)
  | cpuExit (cpu : Fin maxCpu)
  | cpuDown (cpu : Fin maxCpu)
  | switchCluster (p : Cluster)
  | minCpusNotify (n : ℕ)
  /-- a switch through `/sys`, or for a secondary CPU that is started (`platsmp.c`) -/
  | setParent (p : Cluster)
  /-- from now on the clock can be set, or cannot -/
  | clockFails (fails : Bool)

namespace FreqDriver

variable (cfg : FreqConfig) (d : FreqDriver)

/-- The state after an event. -/
def after : FreqEvent → FreqDriver
  | .target cpu freq relation => (d.driverTarget cfg cpu freq relation).1
  | .limits cpu min max => { d with
      policyMin := Function.update d.policyMin cpu min
      policyMax := Function.update d.policyMax cpu max }
  | .policyNotifier cpu min max => d.policyNotifier cfg cpu min max
  | .throttlingEnable enable => d.throttlingEnable cfg enable
  | .throttleWork => d.throttleWork cfg
  | .userCapSet speed => d.userCapSet cfg speed
  | .edpUpdate limit => d.edpUpdate cfg limit
  | .edpDead limit => d.edpDead cfg limit
  | .edpPrepare limit => d.edpPrepare cfg limit
  | .forceMax force => d.forceMax cfg force
  | .suspend => d.suspend cfg
  | .suspendedTarget freq => d.suspendedTarget cfg freq
  | .resume limit => d.resume cfg limit
  | .cpuUp cpu => d.cpuUp cpu
  | .cpuInit cpu => d.cpuInit cpu
  | .cpuExit cpu => d.cpuExit cpu
  | .cpuDown cpu => d.cpuDown cpu
  | .switchCluster p => d.switchCluster cfg p
  | .minCpusNotify n => d.minCpusNotify cfg n
  | .setParent p => (d.setParent cfg p).1
  | .clockFails fails => { d with clockFails := fails }

/-- A request needs a policy, and more CPUs do not have a higher EDP limit.  `cpufreq_cpu_callback` adds
the policy of a CPU once it is up, and removes it before the CPU goes down. -/
def Can : FreqEvent → Prop
  | .target cpu _ _ => d.hasPolicy cpu = true
  | .edpPrepare limit => limit ≠ 0 ∧ (d.edpLimit = 0 ∨ limit ≤ d.edpLimit)
  | .cpuUp cpu => d.online cpu = false
  | .cpuInit cpu => d.online cpu = true
  | .cpuDown cpu => d.hasPolicy cpu = false
  | _ => True

end FreqDriver

/-- The clock can always be set, and outside of a suspend the clusters are switched by the hotplug governor
only, which sets the clock afterwards. -/
def Steady (d : FreqDriver) : FreqEvent → Prop
  | .setParent _ => d.isSuspended = true
  | .clockFails fails => fails = false
  | _ => True

/-- The events as calls; they all return. -/
def freqExec (cfg : FreqConfig) (d : FreqDriver) (e : FreqEvent) : Call FreqDriver (FreqDriver × Unit) :=
  pure (d.after cfg e, ())

/-- The states from `d₀` on, where all events meet `ok`. -/
def FreqRun (cfg : FreqConfig) (ok : FreqDriver → FreqEvent → Prop) (d₀ : FreqDriver) :
    FreqDriver → Prop :=
  Reach (fun d => d = d₀) (fun d e => d.Can e ∧ ok d e) (freqExec cfg)

/-! ### The limits -/

section Capped

variable {cfg : FreqConfig} {d d' : FreqDriver} {f speed : ℕ}

theorem capped_mono : Monotone (d.capped cfg) := by
  intro s t hst
  unfold FreqDriver.capped FreqDriver.userCapSpeed FreqDriver.edpGovernorSpeed
    FreqDriver.throttleGovernorSpeed
  split_ifs <;> omega

theorem capped_le : d.capped cfg speed ≤ speed := by
  unfold FreqDriver.capped FreqDriver.userCapSpeed FreqDriver.edpGovernorSpeed
    FreqDriver.throttleGovernorSpeed
  split_ifs <;> omega

theorem capped_le_throttle (h : d.isThrottling ≠ 0) :
    d.capped cfg speed ≤ cfg.throttleTable.getD d.throttleIndex 0 := by
  unfold FreqDriver.capped FreqDriver.userCapSpeed FreqDriver.edpGovernorSpeed
    FreqDriver.throttleGovernorSpeed
  split_ifs <;> omega

theorem capped_le_edp (h : d.edpLimit ≠ 0) : d.capped cfg speed ≤ d.edpLimit := by
  unfold FreqDriver.capped FreqDriver.userCapSpeed FreqDriver.edpGovernorSpeed
  split_ifs <;> omega

theorem capped_le_user (h : d.cpuUserCap ≠ 0) : d.capped cfg speed ≤ d.cpuUserCap := by
  unfold FreqDriver.capped FreqDriver.userCapSpeed
  split_ifs <;> omega

/-- A speed that no limit is below. -/
theorem le_capped (hle : f ≤ speed)
    (hthrottle : d.isThrottling ≠ 0 → f ≤ cfg.throttleTable.getD d.throttleIndex 0)
    (hedp : d.edpLimit ≠ 0 → f ≤ d.edpLimit) (huser : d.cpuUserCap ≠ 0 → f ≤ d.cpuUserCap) :
    f ≤ d.capped cfg speed := by
  unfold FreqDriver.capped FreqDriver.userCapSpeed FreqDriver.edpGovernorSpeed
    FreqDriver.throttleGovernorSpeed
  split_ifs <;> omega

/-- Limits that are not above those of `d`. -/
theorem capped_anti (hthrottle : d.isThrottling ≠ 0 → d'.isThrottling ≠ 0 ∧
      cfg.throttleTable.getD d'.throttleIndex 0 ≤ cfg.throttleTable.getD d.throttleIndex 0)
    (hedp : d.edpLimit ≠ 0 → d'.edpLimit ≠ 0 ∧ d'.edpLimit ≤ d.edpLimit)
    (huser : d'.cpuUserCap = d.cpuUserCap) : d'.capped cfg speed ≤ d.capped cfg speed := by
  refine le_capped capped_le (fun h => ?_) (fun h => ?_) fun h => ?_
  · exact (capped_le_throttle (hthrottle h).1).trans (hthrottle h).2
  · exact (capped_le_edp (hedp h).1).trans (hedp h).2
  · rw [← huser] at h ⊢
    exact capped_le_user h

end Capped

/-! ### The invariant -/

/-- The part of the invariant that a suspend does not touch. -/
structure FreqSettled (cfg : FreqConfig) (d : FreqDriver) : Prop where
  online : ∀ cpu, d.hasPolicy cpu = true → d.online cpu = true
  index : d.isThrottling ≠ 0 → d.throttleIndex < cfg.throttleTable.length
  works : d.clockFails = false

/-- Outside of a suspend, the clock is within the limits, and as fast as a CPU asks for and the limits
allow; both as far as the active cluster can. -/
structure FreqInv (cfg : FreqConfig) (d : FreqDriver) : Prop extends FreqSettled cfg d where
  covers : d.isSuspended = false → d.forcePolicyMax = false → ∀ cpu, d.hasPolicy cpu = true →
    min (d.capped cfg (d.targetCpuSpeed cpu)) (cfg.maxRate d.cluster) ≤ d.rate
  throttle : d.isSuspended = false → d.isThrottling ≠ 0 →
    d.rate ≤ max (cfg.throttleTable.getD d.throttleIndex 0) (cfg.minRate d.cluster)
  edp : d.isSuspended = false → d.edpLimit ≠ 0 → d.rate ≤ max d.edpLimit (cfg.minRate d.cluster)
  user : d.isSuspended = false → d.cpuUserCap ≠ 0 →
    d.rate ≤ max d.cpuUserCap (cfg.minRate d.cluster)

/-- The throttle table is in ascending order, as its comment asks for. -/
structure FreqConfig.Ascending (cfg : FreqConfig) : Prop where
  sorted : cfg.throttleTable.Pairwise (· ≤ ·)
  nonempty : cfg.throttleTable ≠ []

section Inv

variable {cfg : FreqConfig} {d d' d₀ : FreqDriver} {e : FreqEvent} {cpu : Fin maxCpu}

theorem le_highestSpeed (hforce : d.forcePolicyMax = false) (honline : d.online cpu = true) :
    d.targetCpuSpeed cpu ≤ d.highestSpeed := by
  simp only [FreqDriver.highestSpeed, hforce, Bool.false_eq_true, if_false]
  exact Finset.le_sup (f := d.targetCpuSpeed)
    (Finset.mem_filter.2 ⟨Finset.mem_univ cpu, honline⟩)

/-- Rounding lowers a rate only to the maximum of the cluster. -/
theorem min_le_roundRate (cluster : Cluster) (rate : ℕ) :
    min rate (cfg.maxRate cluster) ≤ cfg.roundRate cluster rate := by
  unfold FreqConfig.roundRate
  split_ifs <;> omega

/-- It raises a rate only to the minimum of the cluster. -/
theorem roundRate_le_max (cfg : FreqConfig) (cluster : Cluster) (rate : ℕ) :
    cfg.roundRate cluster rate ≤ max rate (cfg.minRate cluster) := by
  unfold FreqConfig.roundRate
  split_ifs <;> omega

/-- Setting the clock writes its rate only. -/
theorem updateCpuSpeed_eq (cfg : FreqConfig) (d : FreqDriver) (speed : ℕ) :
    ∃ rate, (d.updateCpuSpeed cfg speed).1 = { d with rate := rate } := by
  simp only [FreqDriver.updateCpuSpeed]
  split_ifs
  · exact ⟨d.rate, rfl⟩
  · exact ⟨d.rate, rfl⟩
  · exact ⟨_, rfl⟩

theorem updateCpuSpeed_works (hworks : d.clockFails = false) (speed : ℕ) :
    d.updateCpuSpeed cfg speed = ({ d with rate := cfg.roundRate d.cluster speed }, 0) := by
  simp only [FreqDriver.updateCpuSpeed]
  by_cases hsame : d.rate = cfg.roundRate d.cluster speed
  · rw [if_pos hsame, ← hsame]
  · rw [if_neg hsame, if_neg (by simp [hworks])]

/-- A switch writes the cluster only. -/
theorem setParent_eq (cfg : FreqConfig) (d : FreqDriver) (p : Cluster) :
    ∃ cluster, (d.setParent cfg p).1 = { d with cluster := cluster } := by
  unfold FreqDriver.setParent
  split_ifs
  · exact ⟨d.cluster, rfl⟩
  · exact ⟨d.cluster, rfl⟩
  · exact ⟨d.cluster, rfl⟩
  · exact ⟨p, rfl⟩

theorem FreqSettled.updateCpuSpeed (h : FreqSettled cfg d) (speed : ℕ) :
    FreqSettled cfg (d.updateCpuSpeed cfg speed).1 := by
  obtain ⟨rate, hrate⟩ := updateCpuSpeed_eq cfg d speed
  rw [hrate]
  exact ⟨h.online, h.index, h.works⟩

theorem FreqSettled.setParent (h : FreqSettled cfg d) (p : Cluster) :
    FreqSettled cfg (d.setParent cfg p).1 := by
  obtain ⟨cluster, hcluster⟩ := setParent_eq cfg d p
  rw [hcluster]
  exact ⟨h.online, h.index, h.works⟩

theorem FreqSettled.of_suspended (h : FreqSettled cfg d) (hsuspended : d.isSuspended = true) :
    FreqInv cfg d := by
  have hnot : d.isSuspended = false → False := fun hs => Bool.noConfusion (hs.symm.trans hsuspended)
  exact ⟨h, fun hs => (hnot hs).elim, fun hs => (hnot hs).elim, fun hs => (hnot hs).elim,
    fun hs => (hnot hs).elim⟩

/-- Wherever the clock is set, all is well. -/
theorem FreqSettled.setSpeedCap (h : FreqSettled cfg d) : FreqInv cfg (d.setSpeedCap cfg).1 := by
  unfold FreqDriver.setSpeedCap
  split_ifs with hsuspended
  · exact h.of_suspended hsuspended
  · rw [updateCpuSpeed_works h.works]
    have hle := roundRate_le_max cfg d.cluster (d.capped cfg d.highestSpeed)
    refine ⟨⟨h.online, h.index, h.works⟩, fun _ hforce cpu hpolicy => ?_, fun _ hne => hle.trans ?_,
      fun _ hne => hle.trans ?_, fun _ hne => hle.trans ?_⟩
    · refine le_trans (min_le_min_right _ ?_) (min_le_roundRate d.cluster _)
      exact capped_mono (le_highestSpeed hforce (h.online cpu hpolicy))
    · exact max_le_max_right _ (capped_le_throttle hne)
    · exact max_le_max_right _ (capped_le_edp hne)
    · exact max_le_max_right _ (capped_le_user hne)

/-- A switch of the hotplug governor is followed by a new clock, or does not take place. -/
theorem FreqInv.switchCluster (h : FreqInv cfg d) (p : Cluster) :
    FreqInv cfg (d.switchCluster cfg p) := by
  have hset := (h.toFreqSettled.setParent p).setSpeedCap
  unfold FreqDriver.switchCluster FreqDriver.setParent at *
  simp only at hset ⊢
  split_ifs at hset ⊢ <;> first | exact hset | exact h | contradiction

theorem FreqSettled.minCpusNotify (h : FreqSettled cfg d) (n : ℕ) :
    FreqInv cfg (d.minCpusNotify cfg n) := by
  unfold FreqDriver.minCpusNotify
  split_ifs
  · exact ((h.updateCpuSpeed _).setParent .g).setSpeedCap
  · exact h.setSpeedCap

theorem FreqSettled.suspend (h : FreqSettled cfg d) : FreqInv cfg (d.suspend cfg) := by
  obtain ⟨rate, hrate⟩ := updateCpuSpeed_eq cfg { d with isSuspended := true } cfg.suspendFreq
  simp only [FreqDriver.suspend, hrate]
  split_ifs
  · obtain ⟨cluster, hcluster⟩ := setParent_eq cfg { d with isSuspended := true, rate := rate } .g
    rw [hcluster]
    exact FreqSettled.of_suspended ⟨h.online, h.index, h.works⟩ rfl
  · exact FreqSettled.of_suspended ⟨h.online, h.index, h.works⟩ rfl

theorem FreqInv.target (h : FreqInv cfg d) {freq : ℕ} {relation : FreqRelation} :
    FreqInv cfg (d.driverTarget cfg cpu freq relation).1 := by
  unfold FreqDriver.driverTarget FreqDriver.tegraTarget
  split_ifs
  · split
    · exact h
    · exact FreqSettled.setSpeedCap ⟨h.online, h.index, h.works⟩
  · exact h

/-- A limit of the throttling that is not above the last one. -/
theorem FreqInv.checkThrottle (h : FreqInv cfg d) {count index : ℕ} (hcount : count ≠ 0)
    (hindex : index < cfg.throttleTable.length)
    (hle : d.isThrottling ≠ 0 →
      cfg.throttleTable.getD index 0 ≤ cfg.throttleTable.getD d.throttleIndex 0) :
    FreqInv cfg (({ d with isThrottling := count, throttleIndex := index }).checkThrottle cfg) := by
  unfold FreqDriver.checkThrottle
  split_ifs with hlt
  · exact FreqSettled.setSpeedCap ⟨h.online, fun _ => hindex, h.works⟩
  · refine ⟨⟨h.online, fun _ => hindex, h.works⟩,
      fun hs hf cpu hcpu => le_trans (min_le_min_right _ ?_) (h.covers hs hf cpu hcpu),
      fun _ _ => le_max_of_le_left (not_lt.1 hlt), h.edp, h.user⟩
    exact capped_anti (fun hthrottling => ⟨hcount, hle hthrottling⟩) (fun hedp => ⟨hedp, le_rfl⟩) rfl

/-- One more or one less that wants throttling, and not the last one. -/
theorem FreqInv.count (h : FreqInv cfg d) {count : ℕ} (hne : d.isThrottling ≠ 0) (hcount : count ≠ 0) :
    FreqInv cfg { d with isThrottling := count } := by
  refine ⟨⟨h.online, fun _ => h.index hne, h.works⟩,
    fun hs hf cpu hcpu => le_trans (min_le_min_right _ ?_) (h.covers hs hf cpu hcpu),
    fun hs _ => h.throttle hs hne, h.edp, h.user⟩
  exact capped_anti (fun _ => ⟨hcount, le_rfl⟩) (fun hedp => ⟨hedp, le_rfl⟩) rfl

theorem FreqInv.throttlingEnable (h : FreqInv cfg d) (hcfg : cfg.Ascending) (enable : Bool) :
    FreqInv cfg (d.throttlingEnable cfg enable) := by
  unfold FreqDriver.throttlingEnable
  split_ifs with henable hzero hzero
  · refine h.checkThrottle one_ne_zero ?_ fun hne => absurd hzero hne
    exact Nat.sub_lt (List.length_pos_of_ne_nil hcfg.nonempty) one_pos
  · exact h.count hzero (Nat.succ_ne_zero _)
  · simp only
    split_ifs with hlast
    · exact FreqSettled.setSpeedCap ⟨h.online, fun hne => absurd hlast hne, h.works⟩
    · exact h.count hzero hlast
  · exact h

theorem FreqInv.throttleWork (h : FreqInv cfg d) (hcfg : cfg.Ascending) :
    FreqInv cfg (d.throttleWork cfg) := by
  unfold FreqDriver.throttleWork
  split_ifs with hzero
  · exact h
  · have hindex := h.index hzero
    have hlt : d.throttleIndex - 1 < cfg.throttleTable.length := (Nat.sub_le _ 1).trans_lt hindex
    refine h.checkThrottle hzero hlt fun _ => ?_
    rw [List.getD_eq_getElem _ _ hlt, List.getD_eq_getElem _ _ hindex]
    rcases (Nat.sub_le d.throttleIndex 1).lt_or_eq with hless | heq
    · exact List.pairwise_iff_getElem.1 hcfg.sorted _ _ hlt hindex hless
    · simp [heq]

theorem FreqInv.edpPrepare (h : FreqInv cfg d) {limit : ℕ} (hcan : d.Can (.edpPrepare limit)) :
    FreqInv cfg (d.edpPrepare cfg limit) := by
  simp only [FreqDriver.edpPrepare]
  split_ifs with hlt hset
  · exact FreqSettled.setSpeedCap ⟨h.online, h.index, h.works⟩
  · exact h
  · refine ⟨⟨h.online, h.index, h.works⟩,
      fun hs hf cpu hcpu => le_trans (min_le_min_right _ ?_) (h.covers hs hf cpu hcpu), h.throttle,
      fun _ hne => le_max_of_le_left ?_, h.user⟩
    · exact capped_anti (fun hne => ⟨hne, le_rfl⟩) (fun hne => ⟨hcan.1, hcan.2.resolve_left hne⟩) rfl
    · by_contra hgt
      have hgov : ({ d with edpLimit := limit } : FreqDriver).edpGovernorSpeed d.rate = limit :=
        if_neg (not_or.2 ⟨hne, hgt⟩)
      rw [hgov] at hlt
      exact hlt (not_le.1 hgt)

theorem FreqInv.cpuUp (h : FreqInv cfg d) (cpu : Fin maxCpu) : FreqInv cfg (d.cpuUp cpu) := by
  refine ⟨⟨fun c hc => ?_, h.index, h.works⟩, h.covers, h.throttle, h.edp, h.user⟩
  by_cases hcpu : c = cpu
  · rw [hcpu]
    exact Function.update_self ..
  · exact (Function.update_of_ne hcpu ..).trans (h.online c hc)

theorem FreqInv.cpuInit (h : FreqInv cfg d) (honline : d.online cpu = true) :
    FreqInv cfg (d.cpuInit cpu) := by
  have hother : ∀ {c}, c ≠ cpu → (d.cpuInit cpu).hasPolicy c = true → d.hasPolicy c = true :=
    fun hcpu hc => (Function.update_of_ne hcpu ..).symm.trans hc
  refine ⟨⟨fun c hc => ?_, h.index, h.works⟩, fun hs hf c hc => ?_, h.throttle, h.edp, h.user⟩
  · by_cases hcpu : c = cpu
    · rw [hcpu]
      exact honline
    · exact h.online c (hother hcpu hc)
  · by_cases hcpu : c = cpu
    · rw [hcpu]
      exact (min_le_left _ _).trans (capped_le.trans (Function.update_self ..).le)
    · refine le_trans (min_le_min_right _ (capped_mono (Function.update_of_ne hcpu ..).le)) ?_
      exact h.covers hs hf c (hother hcpu hc)

theorem FreqInv.cpuExit (h : FreqInv cfg d) (cpu : Fin maxCpu) : FreqInv cfg (d.cpuExit cpu) := by
  have hsub : ∀ c, (d.cpuExit cpu).hasPolicy c = true → d.hasPolicy c = true := by
    intro c hc
    by_cases hcpu : c = cpu
    · simp [FreqDriver.cpuExit, hcpu] at hc
    · exact (Function.update_of_ne hcpu ..).symm.trans hc
  exact ⟨⟨fun c hc => h.online c (hsub c hc), h.index, h.works⟩,
    fun hs hf c hc => h.covers hs hf c (hsub c hc), h.throttle, h.edp, h.user⟩

theorem FreqInv.cpuDown (h : FreqInv cfg d) (hpolicy : d.hasPolicy cpu = false) :
    FreqInv cfg (d.cpuDown cpu) := by
  refine ⟨⟨fun c hc => ?_, h.index, h.works⟩, h.covers, h.throttle, h.edp, h.user⟩
  have hcpu : c ≠ cpu := by
    rintro rfl
    exact Bool.noConfusion (hpolicy.symm.trans hc)
  exact (Function.update_of_ne hcpu ..).trans (h.online c hc)

theorem FreqInv.step (h : FreqInv cfg d) (hcfg : cfg.Ascending) (hcan : d.Can e)
    (hsteady : Steady d e) : FreqInv cfg (d.after cfg e) := by
  cases e with
  | target cpu freq relation => exact h.target
  | limits cpu min max => exact ⟨⟨h.online, h.index, h.works⟩, h.covers, h.throttle, h.edp, h.user⟩
  | policyNotifier cpu min max => exact ⟨⟨h.online, h.index, h.works⟩, h.covers, h.throttle, h.edp, h.user⟩
  | throttlingEnable enable => exact h.throttlingEnable hcfg enable
  | throttleWork => exact h.throttleWork hcfg
  | userCapSet speed => exact FreqSettled.setSpeedCap ⟨h.online, h.index, h.works⟩
  | edpUpdate limit =>
    simp only [FreqDriver.after, FreqDriver.edpUpdate]
    split_ifs
    · exact FreqSettled.setSpeedCap ⟨h.online, h.index, h.works⟩
    · exact h
  | edpDead limit => exact FreqSettled.setSpeedCap ⟨h.online, h.index, h.works⟩
  | edpPrepare limit => exact h.edpPrepare hcan
  | forceMax force =>
    simp only [FreqDriver.after, FreqDriver.forceMax]
    split_ifs
    · exact h
    · exact FreqSettled.setSpeedCap ⟨h.online, h.index, h.works⟩
  | suspend => exact h.toFreqSettled.suspend
  | suspendedTarget freq =>
    simp only [FreqDriver.after, FreqDriver.suspendedTarget]
    split_ifs with hsuspended
    · obtain ⟨rate, hrate⟩ := updateCpuSpeed_eq cfg d
        (d.edpGovernorSpeed (d.throttleGovernorSpeed cfg freq))
      rw [hrate]
      exact FreqSettled.of_suspended ⟨h.online, h.index, h.works⟩ hsuspended
    · exact h
  | resume limit => exact FreqSettled.setSpeedCap ⟨h.online, h.index, h.works⟩
  | cpuUp cpu => exact h.cpuUp cpu
  | cpuInit cpu => exact h.cpuInit hcan
  | cpuExit cpu => exact h.cpuExit cpu
  | cpuDown cpu => exact h.cpuDown hcan
  | switchCluster p => exact h.switchCluster p
  | minCpusNotify n => exact h.toFreqSettled.minCpusNotify n
  | setParent p =>
    obtain ⟨cluster, hcluster⟩ := setParent_eq cfg d p
    simp only [FreqDriver.after]
    rw [hcluster]
    exact FreqSettled.of_suspended ⟨h.online, h.index, h.works⟩ hsteady
  | clockFails fails =>
    exact ⟨⟨h.online, h.index, hsteady⟩, h.covers, h.throttle, h.edp, h.user⟩

theorem FreqInv.run {ok : FreqDriver → FreqEvent → Prop} (hok : ∀ d e, ok d e → Steady d e)
    (hcfg : cfg.Ascending) (h₀ : FreqInv cfg d₀) (hrun : FreqRun cfg ok d₀ d) : FreqInv cfg d := by
  refine Reach.inv (I := FreqInv cfg) (E := fun _ => True) ?_ ?_ hrun
  · rintro _ rfl
    exact h₀
  · rintro d e h ⟨hcan, hsteady⟩
    exact h.step hcfg hcan (hok d e hsteady)

end Inv

/-! ### Runs -/

/-- The driver before it is registered: no CPU has a policy yet, and the clock is within the first EDP
limit and can be set. -/
structure BootedFreq (d : FreqDriver) : Prop where
  policy : ∀ cpu, d.hasPolicy cpu = false
  throttling : d.isThrottling = 0
  cap : d.cpuUserCap = 0
  edp : d.edpLimit ≠ 0 → d.rate ≤ d.edpLimit
  works : d.clockFails = false

/-- The run is steady, the policy of `cpu` stays, and whoever asks for a frequency of `cpu` asks for `f`
or more while the policy has `f`. -/
def Keeps (cpu : Fin maxCpu) (f : ℕ) (d : FreqDriver) : FreqEvent → Prop
  | .target c freq _ => c = cpu → f ≤ freq ∧ d.policyMin cpu ≤ f ∧ f ≤ d.policyMax cpu
  | .cpuInit c => c ≠ cpu
  | .cpuExit c => c ≠ cpu
  | e => Steady d e

theorem Keeps.steady {cpu : Fin maxCpu} {f : ℕ} (d : FreqDriver) (e : FreqEvent)
    (h : Keeps cpu f d e) : Steady d e := by
  cases e <;> first | exact h | exact trivial

/-- The CPU has a policy and asks for `f` or more. -/
def Asks (cpu : Fin maxCpu) (f : ℕ) (d : FreqDriver) : Prop :=
  d.hasPolicy cpu = true ∧ f ≤ d.targetCpuSpeed cpu

section Runs

variable {cfg : FreqConfig} {d d₀ d₁ : FreqDriver} {e : FreqEvent} {cpu c : Fin maxCpu} {f freq : ℕ}
  {relation : FreqRelation}

theorem BootedFreq.inv (h : BootedFreq d) : FreqInv cfg d := by
  have hpolicy : ∀ {cpu}, d.hasPolicy cpu = true → False := fun hcpu =>
    Bool.noConfusion ((h.policy _).symm.trans hcpu)
  exact ⟨⟨fun _ hcpu => (hpolicy hcpu).elim, fun hne => absurd h.throttling hne, h.works⟩,
    fun _ _ _ hcpu => (hpolicy hcpu).elim, fun _ hne => absurd h.throttling hne,
    fun _ hne => le_max_of_le_left (h.edp hne), fun _ hne => absurd h.cap hne⟩

theorem asks_updateCpuSpeed {speed : ℕ} :
    Asks cpu f (d.updateCpuSpeed cfg speed).1 ↔ Asks cpu f d := by
  obtain ⟨rate, hrate⟩ := updateCpuSpeed_eq cfg d speed
  rw [hrate]
  rfl

theorem asks_setParent {p : Cluster} : Asks cpu f (d.setParent cfg p).1 ↔ Asks cpu f d := by
  obtain ⟨cluster, hcluster⟩ := setParent_eq cfg d p
  rw [hcluster]
  rfl

theorem asks_setSpeedCap : Asks cpu f (d.setSpeedCap cfg).1 ↔ Asks cpu f d := by
  unfold FreqDriver.setSpeedCap
  split_ifs
  · rfl
  · exact asks_updateCpuSpeed

theorem asks_checkThrottle : Asks cpu f (d.checkThrottle cfg) ↔ Asks cpu f d := by
  unfold FreqDriver.checkThrottle
  split_ifs
  · exact asks_setSpeedCap
  · rfl

/-- A request from `f` on for an entry `f` that the policy has. -/
theorem asks_driverTarget (hpolicy : d.hasPolicy cpu = true) (honline : d.online cpu = true)
    (hmem : some f ∈ cfg.table) (hmin : d.policyMin cpu ≤ f) (hmax : f ≤ d.policyMax cpu)
    (hle : f ≤ freq) : Asks cpu f (d.driverTarget cfg cpu freq relation).1 := by
  obtain ⟨x, hx, hfx⟩ : ∃ x, frequencyTableTarget cfg.table (d.policyMin cpu) (d.policyMax cpu) freq
      relation = some x ∧ f ≤ x := frequencyTableTarget_ge hmem hmin hmax hle
  rw [FreqDriver.driverTarget, if_pos honline, FreqDriver.tegraTarget, hx]
  exact asks_setSpeedCap.2 ⟨hpolicy, hfx.trans (Function.update_self cpu x d.targetCpuSpeed).ge⟩

theorem Asks.driverTarget_of_ne (h : Asks cpu f d) (hne : c ≠ cpu) :
    Asks cpu f (d.driverTarget cfg c freq relation).1 := by
  unfold FreqDriver.driverTarget FreqDriver.tegraTarget
  split_ifs
  · split
    · exact h
    · exact asks_setSpeedCap.2 ⟨h.1, h.2.trans (Function.update_of_ne hne.symm ..).ge⟩
  · exact h

theorem Asks.step (h : Asks cpu f d) (hinv : FreqInv cfg d) (hmem : some f ∈ cfg.table)
    (hkeeps : Keeps cpu f d e) : Asks cpu f (d.after cfg e) := by
  cases e with
  | target c freq relation =>
    by_cases hc : c = cpu
    · obtain ⟨hle, hmin, hmax⟩ := hkeeps hc
      rw [hc]
      exact asks_driverTarget h.1 (hinv.online cpu h.1) hmem hmin hmax hle
    · exact h.driverTarget_of_ne hc
  | limits c min max => exact h
  | policyNotifier c min max => exact h
  | throttlingEnable enable =>
    simp only [FreqDriver.after, FreqDriver.throttlingEnable]
    split_ifs
    · exact asks_checkThrottle.2 h
    · exact h
    · exact asks_setSpeedCap.2 h
    · exact h
    · exact h
  | throttleWork =>
    simp only [FreqDriver.after, FreqDriver.throttleWork]
    split_ifs
    · exact h
    · exact asks_checkThrottle.2 h
  | userCapSet speed => exact asks_setSpeedCap.2 h
  | edpUpdate limit =>
    simp only [FreqDriver.after, FreqDriver.edpUpdate]
    split_ifs
    · exact asks_setSpeedCap.2 h
    · exact h
  | edpDead limit => exact asks_setSpeedCap.2 h
  | edpPrepare limit =>
    simp only [FreqDriver.after, FreqDriver.edpPrepare]
    split_ifs
    · exact asks_setSpeedCap.2 h
    · exact h
    · exact h
  | forceMax force =>
    simp only [FreqDriver.after, FreqDriver.forceMax]
    split_ifs
    · exact h
    · exact asks_setSpeedCap.2 h
  | suspend =>
    simp only [FreqDriver.after, FreqDriver.suspend]
    split_ifs
    · exact asks_setParent.2 (asks_updateCpuSpeed.2 h)
    · exact asks_updateCpuSpeed.2 h
  | suspendedTarget freq =>
    simp only [FreqDriver.after, FreqDriver.suspendedTarget]
    split_ifs
    · exact asks_updateCpuSpeed.2 h
    · exact h
  | resume limit => exact asks_setSpeedCap.2 h
  | cpuUp c => exact h
  | cpuInit c =>
    have hne : cpu ≠ c := Ne.symm hkeeps
    simpa [Asks, FreqDriver.after, FreqDriver.cpuInit, hne] using h
  | cpuExit c =>
    have hne : cpu ≠ c := Ne.symm hkeeps
    simpa [Asks, FreqDriver.after, FreqDriver.cpuExit, hne] using h
  | cpuDown c => exact h
  | switchCluster p =>
    simp only [FreqDriver.after, FreqDriver.switchCluster]
    split_ifs
    · exact asks_setSpeedCap.2 (asks_setParent.2 h)
    · exact asks_setParent.2 h
  | minCpusNotify n =>
    simp only [FreqDriver.after, FreqDriver.minCpusNotify]
    split_ifs
    · exact asks_setSpeedCap.2 (asks_setParent.2 (asks_updateCpuSpeed.2 h))
    · exact asks_setSpeedCap.2 h
  | setParent p => exact asks_setParent.2 h
  | clockFails fails => exact h

theorem Asks.run (hcfg : cfg.Ascending) (hinv : FreqInv cfg d₁) (hasks : Asks cpu f d₁)
    (hmem : some f ∈ cfg.table) (hrun : FreqRun cfg (Keeps cpu f) d₁ d) : Asks cpu f d := by
  have hboth : FreqInv cfg d ∧ Asks cpu f d := by
    refine Reach.inv (I := fun d => FreqInv cfg d ∧ Asks cpu f d) (E := fun _ => True) ?_ ?_ hrun
    · rintro _ rfl
      exact ⟨hinv, hasks⟩
    · rintro d e ⟨h, ha⟩ ⟨hcan, hkeeps⟩
      exact ⟨h.step hcfg hcan hkeeps.steady, ha.step h hmem hkeeps⟩
  exact hboth.2

end Runs

/-- A processor of 1000 MHz. -/
def gigahertzConfig : FreqConfig where
  table := (threeSpeeds 204000 475000 1000000).table
  throttleTable := throttleInit (threeSpeeds 204000 475000 1000000).table 204000
  suspendFreq := 475000
  idleBottomFreq := 204000
  minRate
    | .g => 204000
    | .lp => 0
  maxRate
    | .g => 1000000
    | .lp => 475000

theorem gigahertzConfig_ascending : gigahertzConfig.Ascending :=
  ⟨throttleInit_sorted (by decide) (by decide), by simp [gigahertzConfig, throttleInit]⟩

/-- It boots at the highest frequency. -/
def gigahertzBoot : FreqDriver where
  online _ := true
  hasPolicy _ := false
  policyMin _ := 204000
  policyMax _ := 1000000
  targetCpuSpeed _ := 0
  policyMaxSpeed _ := 0
  forcePolicyMax := false
  isSuspended := false
  isThrottling := 0
  throttleIndex := 0
  edpLimit := 1000000
  cpuUserCap := 0
  rate := 1000000
  cluster := .g
  clockFails := false

theorem gigahertzBoot_booted : BootedFreq gigahertzBoot :=
  ⟨fun _ => rfl, rfl, rfl, fun _ => le_rfl, rfl⟩

/-- Two CPUs have a policy, and the second one asks for the middle frequency. -/
def gigahertzAsked : FreqDriver :=
  (((gigahertzBoot.cpuInit 0).cpuInit 1).driverTarget gigahertzConfig 1 475000 .low).1

theorem gigahertzRun : FreqRun gigahertzConfig Steady gigahertzBoot gigahertzAsked := by
  refine Reach.step (s := (gigahertzBoot.cpuInit 0).cpuInit 1) (a := .target 1 475000 .low) (r := ())
    ?_ ⟨rfl, trivial⟩ rfl
  refine Reach.step (s := gigahertzBoot.cpuInit 0) (a := .cpuInit 1) (r := ()) ?_ ⟨rfl, trivial⟩ rfl
  exact Reach.step (a := .cpuInit 0) (r := ()) (.start rfl) ⟨rfl, trivial⟩ rfl

/-- Throttling, for two turns of its work; the hotplug governor switches to the slow cluster then. -/
def gigahertzThrottled (d : FreqDriver) : FreqDriver :=
  (((d.throttlingEnable gigahertzConfig true).throttleWork gigahertzConfig).throttleWork
    gigahertzConfig).switchCluster gigahertzConfig .lp

theorem gigahertzRun_throttled {ok : FreqDriver → FreqEvent → Prop} {d₀ d : FreqDriver}
    (henable : ∀ d, ok d (.throttlingEnable true)) (hwork : ∀ d, ok d .throttleWork)
    (hswitch : ∀ d, ok d (.switchCluster .lp)) (hrun : FreqRun gigahertzConfig ok d₀ d) :
    FreqRun gigahertzConfig ok d₀ (gigahertzThrottled d) := by
  refine Reach.step (a := .switchCluster .lp) (r := ()) ?_ ⟨trivial, hswitch _⟩ rfl
  refine Reach.step (a := .throttleWork) (r := ()) ?_ ⟨trivial, hwork _⟩ rfl
  refine Reach.step (a := .throttleWork) (r := ()) ?_ ⟨trivial, hwork _⟩ rfl
  exact Reach.step (a := .throttlingEnable true) (r := ()) hrun ⟨trivial, henable _⟩ rfl

/-- The first CPU asks for the middle frequency too. -/
def gigahertzBoth : FreqDriver := (gigahertzAsked.driverTarget gigahertzConfig 0 475000 .low).1

/-- The second one asks for the lowest frequency then. -/
def gigahertzLower : FreqDriver := (gigahertzBoth.driverTarget gigahertzConfig 1 204000 .low).1

theorem gigahertzLower_run : FreqRun gigahertzConfig (Keeps 0 475000) gigahertzBoth gigahertzLower :=
  Reach.step (s := gigahertzBoth) (a := .target 1 204000 .low) (r := ()) (.start rfl)
    ⟨rfl, fun h => absurd h (by decide)⟩ rfl

end RtSched
