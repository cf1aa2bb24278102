import RtSched.Base.Run
import RtSched.Switch

/-!
# The log of a process (`setLogging.c`, `getLog.c`, `log_data_point` in `kernel/sched.c`)

`sys_setLogging` allocates a buffer for the process and sets a flag in its threads; the hook in
`__schedule` writes the start and the length of each slice to it; when it is full the hook clears the
flags and signals the reader, who collects the entries with `sys_getLog`, which frees the buffer.

Every area from `vmalloc` has a number of its own and is never used again.  A write or a read through
a null pointer, through a pointer to a freed area or past the end of an area is an oops.

* `LogState.exec`: the three calls, and what can happen on the CPUs;
* `logBuffer_lifecycle`: as long as a log is collected once, and after it is complete, every entry
  goes to the buffer of its process and every buffer is freed once.
-/

namespace RtSched

open Call

/-! ### Memory -/

/-- `sizeof(struct timespec)`. -/
def timespecSize : ℕ := 8

/-- `PAGE_SIZE`. -/
def pageSize : ℕ := 4096

/-- `PAGE_ALIGN`, in 32 bits. -/
def pageAlign (size : ℕ) : ℕ := (size + (pageSize - 1)) / pageSize * pageSize % 2 ^ 32

/-- An area from `vmalloc`. -/
structure LogBuffer where
  /-- the entries it has room for, up to the guard page behind it -/
  capacity : ℕ
  cells : ℕ → Timespec
  /-- how often it has been passed to `vfree` -/
  frees : ℕ

/-- The fields of `struct task_struct` for the log. -/
structure LogFields where
  userPid : ℤ
  /-- the number of the area; `none` is the null pointer -/
  buf : Option ℕ
  isLogEnabled : Bool
  bufOffset : ℕ
  noDataPoints : ℤ

/-- `2*curr->no_data_points`, an `int`. -/
def LogFields.entries (f : LogFields) : ℤ := Int.bmod (2 * f.noDataPoints) (2 ^ 32)

/-- The CPUs and tasks, the log fields of each task, and the areas allocated so far. -/
structure LogState extends Smp where
  log : Tid → LogFields
  areas : ℕ
  heap : ℕ → LogBuffer

/-- What `memset(curr->buf, '0', size)` leaves in an entry. -/
def blankEntry : Timespec := ⟨0x30303030, 0x30303030⟩

/-- An area of `size` bytes, with blank entries. -/
def newArea (size : ℕ) : LogBuffer where
  capacity := pageAlign size / timespecSize
  cells := fun _ => blankEntry
  frees := 0

/-- The state with a new area. -/
def allocated (size : ℕ) (m : LogState) : LogState :=
  { m with
    areas := m.areas + 1
    heap := Function.update m.heap m.areas (newArea size) }

/-- `vmalloc`, with `avail` bytes to be had, and the `memset` of the new area. -/
def vmalloc (avail size : ℕ) (m : LogState) : LogState × Option ℕ :=
  if pageAlign size = 0 ∨ avail < pageAlign size then (m, none)
  else (allocated size m, some m.areas)

/-- `vfree`. -/
def vfree (buf : Option ℕ) (m : LogState) : LogState :=
  match buf with
  | none => m
  | some b => { m with
      heap := Function.update m.heap b { m.heap b with frees := (m.heap b).frees + 1 } }

/-- The first `n` entries of the area can be accessed. -/
def Accessible (m : LogState) (buf : Option ℕ) (n : ℕ) : Prop :=
  ∃ b ∈ buf, b < m.areas ∧ (m.heap b).frees = 0 ∧ n ≤ (m.heap b).capacity

instance (m : LogState) : (buf : Option ℕ) → (n : ℕ) → Decidable (Accessible m buf n)
  | none, _ => .isFalse (by simp [Accessible])
  | some b, n => decidable_of_iff (b < m.areas ∧ (m.heap b).frees = 0 ∧ n ≤ (m.heap b).capacity)
      (by simp [Accessible])

/-! ### The calls -/

/-- `size` in `sys_setLogging`, an `int`, as `vmalloc` takes it. -/
def logSize (noDataPoints : ℤ) : ℕ := (noDataPoints * 2 * timespecSize % 2 ^ 32).toNat

/-- Set the flag in every thread of the group. -/
def setLogFlags (curr : Tid) (flag : Bool) (m : LogState) : LogState :=
  { m with log := fun u =>
      if u ∈ m.st.threads curr then { m.log u with isLogEnabled := flag } else m.log u }

/-- The fields of a new log, and the flags. -/
def startLog (curr : Tid) (f : LogFields) (m : LogState) : LogState :=
  setLogFlags curr true { m with log := Function.update m.log curr f }

/-- `sys_setLogging`. -/
def setLogging (avail : ℕ) (logPid userPid noDataPoints : ℤ) (m : LogState) :
    Call LogState (LogState × ℤ) :=
  if logPid ≤ 0 then pure (m, -einval)
  else if userPid ≤ 0 then pure (m, -einval)
  else
    match m.st.findTaskByVpid logPid with
    | none => pure (m, -esrch)
    | some curr =>
        if (m.log curr).isLogEnabled then pure (m, -einval)
        else
          let size := logSize noDataPoints
          let (m, buf) := vmalloc avail size m
          -- `memset` through the null pointer
          if buf = none ∧ size ≠ 0 then .error (.oops, m)
          else
            pure (startLog curr ⟨userPid, buf, true, 0, noDataPoints⟩ m, 0)

/-- `sys_getLog`; `copied` says whether the user's buffer takes all entries. -/
def getLog (copied : Bool) (pid : ℤ) (m : LogState) : Call LogState (LogState × ℤ) :=
  if pid ≤ 0 then pure (m, -einval)
  else
    match m.st.findTaskByVpid pid with
    | none => pure (m, -esrch)
    | some curr =>
        let f := m.log curr
        let size := Int.bmod (f.bufOffset * timespecSize) (2 ^ 32)
        if f.bufOffset ≠ 0 ∧ ¬ Accessible m f.buf f.bufOffset then .error (.oops, m)
        else pure (vfree f.buf m, if copied then size else -efault)

/-- `log_data_point`.  Without the signal to the reader. -/
def logDataPoint (curr : Tid) (data : Timespec) (m : LogState) : Call LogState LogState :=
  let f := m.log curr
  if (f.bufOffset : ℤ) ≥ f.entries then pure (setLogFlags curr false m)
  else
    match f.buf with
    | none => .error (.oops, m)
    | some b =>
        if ¬ Accessible m (some b) (f.bufOffset + 1) then .error (.oops, m)
        else pure { m with
          heap := Function.update m.heap b { m.heap b with
            cells := Function.update (m.heap b).cells f.bufOffset data }
          log := Function.update m.log curr { f with bufOffset := f.bufOffset + 1 } }

/-- The hook in `__schedule` for the thread that leaves a CPU: the budget, then the log. -/
def logSwitchOut (prev : Tid) (m : LogState) : Call LogState LogState :=
  let leader := (m.st.task prev).tgid
  let t1 := nsToTimespec m.st.now
  let m := { m with st := switchOut prev m.st }
  if (m.log prev).isLogEnabled = true ∧ (m.log leader).bufOffset ≠ 0 then
    logDataPoint leader (timespecSub t1 (m.st.task leader).execTime) m
  else pure m

/-- The first part of the hook in `__schedule` for the thread that gets a CPU: the start of the slice,
for the budget and the log, and the budget timer. -/
def beginSlice (logged : Bool) (next : Tid) (s : KState) : KState :=
  let leader := (s.task next).tgid
  let s := if (s.task next).isBudgetSet ∨ logged then startSlice leader s else s
  if (s.task next).isBudgetSet then armLeader leader next s else s

/-- The hook for the thread that gets a CPU, with the log. -/
def logSwitchIn (next : Tid) (m : LogState) : Call LogState LogState :=
  let leader := (m.st.task next).tgid
  let m := { m with st := beginSlice (m.log next).isLogEnabled next m.st }
  if (m.log next).isLogEnabled then logDataPoint leader (m.st.task leader).execTime m
  else pure m

/-- What can happen. -/
inductive LogEvent
  | setLogging (avail : ℕ) (logPid userPid noDataPoints : ℤ)
  | getLog (copied : Bool) (pid : ℤ)
  | smp (a : SmpEvent)

/-- The state after an event, and what a call returns. -/
def LogState.exec (m : LogState) : LogEvent → Call LogState (LogState × ℤ)
  | .setLogging avail logPid userPid noDataPoints =>
      RtSched.setLogging avail logPid userPid noDataPoints m
  | .getLog copied pid => RtSched.getLog copied pid m
  | .smp (.switchIn cpu t) => do
      let m ← logSwitchIn t m
      pure ({ m with curr := Function.update m.curr cpu (some t) }, 0)
  | .smp (.switchOut cpu) =>
      match m.curr cpu with
      | some t => do
          let m ← logSwitchOut t m
          pure ({ m with curr := Function.update m.curr cpu none }, 0)
      | none => pure (m, 0)
  | .smp a => pure ({ m with toSmp := m.toSmp.after a }, 0)

theorem sameGroups_beginSlice (logged : Bool) (next : Tid) (s : KState) :
    SameGroups s (beginSlice logged next s) := by
  simp only [beginSlice]
  set s₁ := if (s.task next).isBudgetSet = true ∨ logged = true then
    startSlice (s.task next).tgid s else s with hs₁
  have hstart : SameGroups s s₁ := by
    rw [hs₁]
    split_ifs
    · exact sameGroups_startSlice _ s
    · exact SameGroups.refl s
  by_cases hset : (s₁.task next).isBudgetSet = true
  · rw [if_pos hset]
    exact hstart.trans (sameGroups_armLeader _ next s₁)
  · rw [if_neg hset]
    exact hstart

/-! ### The life of a buffer -/

/-- The buffer of the process has been collected, or there is none. -/
def Collected (m : LogState) (t : Tid) : Prop := ∀ b ∈ (m.log t).buf, (m.heap b).frees ≠ 0

/-- The size of a buffer of so many data points is computed without overflow, or no entry is ever
written. -/
def CountOk (noDataPoints : ℤ) : Prop :=
  Int.bmod (2 * noDataPoints) (2 ^ 32) ≤ 0 ∨ 0 ≤ noDataPoints ∧ noDataPoints < 2 ^ 28

/-- A log is started for a group leader, of a size that can be computed, when the last one has been
collected; it is collected once, when it is complete. -/
def LogOk (m : LogState) : LogEvent → Prop
  | .setLogging _ logPid _ noDataPoints => ∀ t ∈ m.st.findTaskByVpid logPid,
      (m.log t).isLogEnabled = false →
        (m.st.task t).tgid = t ∧ CountOk noDataPoints ∧ Collected m t
  | .getLog _ pid => ∀ t ∈ m.st.findTaskByVpid pid, ∀ b ∈ (m.log t).buf,
      (m.log t).isLogEnabled = false ∧ (m.heap b).frees = 0
  | .smp a => Possible m.toSmp a

/-- No log has been started yet. -/
structure LogBooted (m : LogState) : Prop where
  areas : m.areas = 0
  disabled : ∀ t, (m.log t).isLogEnabled = false
  null : ∀ t, (m.log t).buf = none

/-- Every entry a hook writes goes to a buffer that is there, no buffer is freed twice, and none is
lost before it is freed. -/
structure LogSafe (m : LogState) : Prop where
  writes : ∀ a, Possible m.toSmp a → ∃ x, m.exec (.smp a) = .ok x
  once : ∀ b < m.areas, (m.heap b).frees ≤ 1
  kept : ∀ b < m.areas, (m.heap b).frees = 0 → ∃ t, (m.log t).buf = some b

/-- What holds on the way. -/
structure LogInv (m : LogState) : Prop where
  known : ∀ t b, (m.log t).buf = some b → b < m.areas
  own : ∀ t u b, (m.log t).buf = some b → (m.log u).buf = some b → t = u
  once : ∀ b < m.areas, (m.heap b).frees ≤ 1
  kept : ∀ b < m.areas, (m.heap b).frees = 0 → ∃ t, (m.log t).buf = some b
  /-- a flag is set in the group leader too -/
  flagged : ∀ u, (m.log u).isLogEnabled = true → u ∈ m.st.pidHash ∧
    (m.st.task (m.st.task u).tgid).tgid = (m.st.task u).tgid ∧
    (m.log (m.st.task u).tgid).isLogEnabled = true
  /-- and then there is room for all entries -/
  room : ∀ t, (m.log t).isLogEnabled = true → (m.st.task t).tgid = t → 0 < (m.log t).entries →
    ∃ b, (m.log t).buf = some b ∧ (m.heap b).frees = 0 ∧ (m.log t).entries ≤ (m.heap b).capacity

section LogInv

variable {m : LogState} {t u : Tid}

theorem logInv_booted (h : LogBooted m) : LogInv m where
  known := fun t b hb => by rw [h.null t] at hb; cases hb
  own := fun t u b hb => by rw [h.null t] at hb; cases hb
  once := fun b hb => by rw [h.areas] at hb; exact absurd hb (Nat.not_lt_zero b)
  kept := fun b hb => by rw [h.areas] at hb; exact absurd hb (Nat.not_lt_zero b)
  flagged := fun u hu => by rw [h.disabled u] at hu; cases hu
  room := fun t ht => by rw [h.disabled t] at ht; cases ht

/-- The hooks and timers do not change the groups. -/
theorem LogInv.of_sameGroups (h : LogInv m) (m' : Smp) (hs : SameGroups m.st m'.st) :
    LogInv { m with toSmp := m' } where
  known := h.known
  own := h.own
  once := h.once
  kept := h.kept
  flagged := fun u hu => by
    obtain ⟨hhash, hleader, hflag⟩ := h.flagged u hu
    simp only [hs.hash, hs.tgid]
    exact ⟨hhash, hleader, hflag⟩
  room := fun t ht hleader => h.room t ht ((hs.tgid t).symm.trans hleader)

theorem setLogFlags_log (curr : Tid) (flag : Bool) (m : LogState) (u : Tid) :
    (setLogFlags curr flag m).log u = { m.log u with
      isLogEnabled := if u ∈ m.st.threads curr then flag else (m.log u).isLogEnabled } := by
  simp only [setLogFlags]
  split_ifs <;> rfl

/-- A group has one leader. -/
theorem leader_eq_of_mem_threads {s : KState} (ht : (s.task t).tgid = t) (hu : (s.task u).tgid = u)
    (hmem : u ∈ s.threads t) : u = t := by
  have heq := s.tgid_of_mem_threads hmem
  rw [hu, ht] at heq
  exact heq

/-- Clearing the flags of a group. -/
theorem LogInv.clearFlags (h : LogInv m) (hleader : (m.st.task t).tgid = t) :
    LogInv (setLogFlags t false m) := by
  have hbuf : ∀ u, ((setLogFlags t false m).log u).buf = (m.log u).buf := by
    intro u
    rw [setLogFlags_log]
  have hentries : ∀ u, ((setLogFlags t false m).log u).entries = (m.log u).entries := by
    intro u
    rw [setLogFlags_log]
    rfl
  have hflag : ∀ u, ((setLogFlags t false m).log u).isLogEnabled = true →
      u ∉ m.st.threads t ∧ (m.log u).isLogEnabled = true := by
    intro u hu
    rw [setLogFlags_log] at hu
    dsimp only at hu
    split_ifs at hu with hmem
    exact ⟨hmem, hu⟩
  refine ⟨fun u b hb => ?_, fun u v b hu hv => ?_, h.once, fun b hb h0 => ?_, fun u hu => ?_,
    fun u hu htgid hpos => ?_⟩
  · exact h.known u b ((hbuf u).symm.trans hb)
  · exact h.own u v b ((hbuf u).symm.trans hu) ((hbuf v).symm.trans hv)
  · obtain ⟨u, hu⟩ := h.kept b hb h0
    exact ⟨u, (hbuf u).trans hu⟩
  · obtain ⟨hout, hu⟩ := hflag u hu
    obtain ⟨hhash, htop, htopflag⟩ := h.flagged u hu
    refine ⟨hhash, htop, ?_⟩
    -- the leader of `u` is not in the group of `t`, or `u` would be
    have hout' : (m.st.task u).tgid ∉ m.st.threads t := by
      intro hmem
      have heq := leader_eq_of_mem_threads hleader htop hmem
      refine hout (m.st.mem_threads.2 (Or.inr ⟨hhash, ?_⟩))
      rw [heq, hleader]
    rw [setLogFlags_log]
    show (if (m.st.task u).tgid ∈ m.st.threads t then false else _) = true
    rw [if_neg hout']
    exact htopflag
  · rw [hentries u] at hpos ⊢
    rw [hbuf u]
    exact h.room u (hflag u hu).2 htgid hpos

/-- Writing an entry. -/
theorem LogInv.congr (h : LogInv m) {m' : LogState} (hsmp : m'.toSmp = m.toSmp)
    (hareas : m'.areas = m.areas)
    (hlog : ∀ u, (m'.log u).buf = (m.log u).buf ∧
      (m'.log u).isLogEnabled = (m.log u).isLogEnabled ∧ (m'.log u).entries = (m.log u).entries)
    (hheap : ∀ b, (m'.heap b).frees = (m.heap b).frees ∧
      (m'.heap b).capacity = (m.heap b).capacity) : LogInv m' := by
  refine ⟨fun t b hb => ?_, fun t u b ht hu => ?_, fun b hb => ?_, fun b hb h0 => ?_,
    fun u hu => ?_, fun t ht hleader hpos => ?_⟩
  · rw [hareas]
    exact h.known t b ((hlog t).1.symm.trans hb)
  · exact h.own t u b ((hlog t).1.symm.trans ht) ((hlog u).1.symm.trans hu)
  · rw [(hheap b).1]
    exact h.once b (hareas ▸ hb)
  · rw [(hheap b).1] at h0
    obtain ⟨t, ht⟩ := h.kept b (hareas ▸ hb) h0
    exact ⟨t, (hlog t).1.trans ht⟩
  · rw [hsmp, (hlog _).2.1]
    exact h.flagged u ((hlog u).2.1.symm.trans hu)
  · rw [hsmp] at hleader
    rw [(hlog t).2.2] at hpos ⊢
    obtain ⟨b, hb, h0, hle⟩ := h.room t ((hlog t).2.1.symm.trans ht) hleader hpos
    refine ⟨b, (hlog t).1.trans hb, (hheap b).1.trans h0, ?_⟩
    rwa [(hheap b).2]

/-- A data point of a process that is being logged. -/
theorem LogInv.logDataPoint (h : LogInv m) (hleader : (m.st.task t).tgid = t)
    (hflag : (m.log t).isLogEnabled = true) (data : Timespec) :
    ∃ m', logDataPoint t data m = .ok m' ∧ LogInv m' := by
  simp only [RtSched.logDataPoint]
  by_cases hfull : ((m.log t).bufOffset : ℤ) ≥ (m.log t).entries
  · rw [if_pos hfull]
    exact ⟨_, rfl, h.clearFlags hleader⟩
  · rw [if_neg hfull]
    obtain ⟨b, hb, h0, hle⟩ := h.room t hflag hleader (by omega)
    have haccess : Accessible m (some b) ((m.log t).bufOffset + 1) :=
      ⟨b, rfl, h.known t b hb, h0, by omega⟩
    simp only [hb, haccess, not_true, if_false]
    refine ⟨_, rfl, h.congr rfl rfl (fun u => ?_) (fun c => ?_)⟩
    · by_cases hu : u = t
      · subst hu
        simp [hb, LogFields.entries]
      · simp only [Function.update_of_ne hu, and_self]
    · by_cases hc : c = b
      · subst hc
        simp only [Function.update_self, and_self]
      · simp only [Function.update_of_ne hc, and_self]

theorem LogInv.switchOut (h : LogInv m) (prev : Tid) :
    ∃ m', logSwitchOut prev m = .ok m' ∧ LogInv m' := by
  have h' : LogInv { m with st := RtSched.switchOut prev m.st } :=
    h.of_sameGroups ⟨RtSched.switchOut prev m.st, m.curr⟩ (sameGroups_switchOut prev m.st)
  simp only [logSwitchOut]
  split_ifs with hlog
  · obtain ⟨-, hleader, hflag⟩ := h'.flagged prev hlog.1
    have htgid : ((RtSched.switchOut prev m.st).task prev).tgid = (m.st.task prev).tgid :=
      (sameGroups_switchOut prev m.st).tgid prev
    rw [htgid] at hleader hflag
    exact h'.logDataPoint hleader hflag _
  · exact ⟨_, rfl, h'⟩

theorem LogInv.switchIn (h : LogInv m) (next : Tid) :
    ∃ m', logSwitchIn next m = .ok m' ∧ LogInv m' := by
  set s := beginSlice (m.log next).isLogEnabled next m.st with hs
  have hsame : SameGroups m.st s := sameGroups_beginSlice _ next m.st
  have h' : LogInv { m with st := s } := h.of_sameGroups ⟨s, m.curr⟩ hsame
  simp only [logSwitchIn, ← hs]
  split_ifs with hlog
  · obtain ⟨-, hleader, hflag⟩ := h'.flagged next hlog
    have htgid : (s.task next).tgid = (m.st.task next).tgid := hsame.tgid next
    rw [htgid] at hleader hflag
    exact h'.logDataPoint hleader hflag _
  · exact ⟨_, rfl, h'⟩

/-- What happens on the CPUs. -/
theorem LogInv.smp (h : LogInv m) (a : SmpEvent) : ∃ x, m.exec (.smp a) = .ok x ∧ LogInv x.1 := by
  cases a with
  | switchIn cpu t =>
    obtain ⟨m', hm', hinv⟩ := h.switchIn t
    exact ⟨_, bind_eq_ok.2 ⟨m', hm', rfl⟩,
      hinv.of_sameGroups ⟨m'.st, _⟩ (SameGroups.refl m'.st)⟩
  | switchOut cpu =>
    simp only [LogState.exec]
    split
    · rename_i t _
      obtain ⟨m', hm', hinv⟩ := h.switchOut t
      exact ⟨_, bind_eq_ok.2 ⟨m', hm', rfl⟩,
        hinv.of_sameGroups ⟨m'.st, _⟩ (SameGroups.refl m'.st)⟩
    · exact ⟨_, rfl, h⟩
  | pass d => exact ⟨_, rfl, h.of_sameGroups _ (sameGroups_after m.toSmp (.pass d))⟩
  | budgetExpiry t => exact ⟨_, rfl, h.of_sameGroups _ (sameGroups_after m.toSmp (.budgetExpiry t))⟩
  | periodExpiry t => exact ⟨_, rfl, h.of_sameGroups _ (sameGroups_after m.toSmp (.periodExpiry t))⟩

/-! ### The calls -/

/-- Unless the rounding up to pages overflows, an area has room for what was asked for. -/
theorem le_pageAlign {size : ℕ} (hsize : size < 2 ^ 32) (h0 : pageAlign size ≠ 0) :
    size ≤ pageAlign size := by
  simp only [pageAlign, pageSize] at h0 ⊢
  omega

theorem entries_pos_iff {n : ℤ} (hn : CountOk n) (hpos : 0 < Int.bmod (2 * n) (2 ^ 32)) :
    Int.bmod (2 * n) (2 ^ 32) = 2 * n ∧ (logSize n : ℤ) = 16 * n ∧ 0 < n := by
  rcases hn with hle | ⟨h0, hlt⟩
  · exact absurd hpos (not_lt.2 hle)
  · have hmod : Int.bmod (2 * n) (2 ^ 32) = 2 * n :=
      Int.bmod_eq_of_le (by omega) (by omega)
    rw [hmod] at hpos
    refine ⟨hmod, ?_, by omega⟩
    rw [logSize, timespecSize]
    omega

theorem startLog_self (curr : Tid) {f : LogFields} (hf : f.isLogEnabled = true) (m : LogState) :
    (startLog curr f m).log curr = f := by
  rw [startLog, setLogFlags_log]
  simp only [Function.update_self]
  rw [if_pos (m.st.self_mem_threads curr), ← hf]

theorem startLog_other {curr : Tid} (hu : u ≠ curr) (f : LogFields) (m : LogState) :
    (startLog curr f m).log u = { m.log u with
      isLogEnabled := if u ∈ m.st.threads curr then true else (m.log u).isLogEnabled } := by
  rw [startLog, setLogFlags_log]
  simp only [Function.update_of_ne hu]

/-- The flags of the group are set, and no flag is cleared. -/
theorem startLog_flag {f : LogFields} (hf : f.isLogEnabled = true) (m : LogState) (u : Tid) :
    ((startLog t f m).log u).isLogEnabled = true ↔
      u ∈ m.st.threads t ∨ (m.log u).isLogEnabled = true := by
  by_cases hut : u = t
  · subst hut
    rw [startLog_self u hf]
    exact iff_of_true hf (Or.inl (m.st.self_mem_threads u))
  · rw [startLog_other hut]
    dsimp only
    split_ifs with hmem
    · exact iff_of_true rfl (Or.inl hmem)
    · rw [or_iff_right hmem]

/-- A new log for a group leader whose last one has been collected. -/
theorem LogInv.startLog (h : LogInv m) (hhash : t ∈ m.st.pidHash)
    (hleader : (m.st.task t).tgid = t) (hcollected : Collected m t) {f : LogFields}
    (hf : f.isLogEnabled = true) (areas : ℕ) (heap : ℕ → LogBuffer)
    (hold : ∀ b < m.areas, heap b = m.heap b) (hmore : m.areas ≤ areas)
    (hnew : ∀ b, m.areas ≤ b → b < areas → f.buf = some b ∧ (heap b).frees = 0)
    (hbuf : ∀ b, f.buf = some b → m.areas ≤ b ∧ b < areas)
    (hroom : 0 < f.entries → ∃ b, f.buf = some b ∧ (heap b).frees = 0 ∧
      f.entries ≤ (heap b).capacity) :
    LogInv (RtSched.startLog t f { m with areas := areas, heap := heap }) := by
  set m' := RtSched.startLog t f { m with areas := areas, heap := heap } with hm'
  have hself : m'.log t = f := startLog_self t hf _
  have hother : ∀ u, u ≠ t → m'.log u = { m.log u with
      isLogEnabled := if u ∈ m.st.threads t then true else (m.log u).isLogEnabled } :=
    fun u hu => startLog_other hu f _
  have hotherbuf : ∀ u, u ≠ t → (m'.log u).buf = (m.log u).buf := by
    intro u hu
    rw [hother u hu]
  have hflag : ∀ u, (m'.log u).isLogEnabled = true ↔
      u ∈ m.st.threads t ∨ (m.log u).isLogEnabled = true := startLog_flag hf _
  refine ⟨fun u b hb => ?_, fun u v b hu hv => ?_, fun b hb => ?_, fun b hb h0 => ?_,
    fun u hu => ?_, fun u hu htgid hpos => ?_⟩
  · by_cases hut : u = t
    · rw [hut, hself] at hb
      exact (hbuf b hb).2
    · rw [hotherbuf u hut] at hb
      exact lt_of_lt_of_le (h.known u b hb) hmore
  · -- the new area is not one of the old ones
    have hfresh : ∀ w, w ≠ t → (m'.log w).buf = some b → (m'.log t).buf ≠ some b := by
      intro w hw hwb htb
      rw [hotherbuf w hw] at hwb
      rw [hself] at htb
      exact absurd (h.known w b hwb) (not_lt.2 (hbuf b htb).1)
    by_cases hut : u = t <;> by_cases hvt : v = t
    · rw [hut, hvt]
    · exact absurd (hut ▸ hu) (hfresh v hvt hv)
    · exact absurd (hvt ▸ hv) (hfresh u hut hu)
    · rw [hotherbuf u hut] at hu
      rw [hotherbuf v hvt] at hv
      exact h.own u v b hu hv
  · by_cases hlt : b < m.areas
    · show (heap b).frees ≤ 1
      rw [hold b hlt]
      exact h.once b hlt
    · show (heap b).frees ≤ 1
      rw [(hnew b (not_lt.1 hlt) hb).2]
      exact Nat.zero_le 1
  · by_cases hlt : b < m.areas
    · have hlive : (heap b).frees = 0 := h0
      rw [hold b hlt] at hlive
      obtain ⟨u, hu⟩ := h.kept b hlt hlive
      have hut : u ≠ t := by
        rintro rfl
        exact hcollected b hu hlive
      exact ⟨u, (hotherbuf u hut).trans hu⟩
    · exact ⟨t, hself ▸ (hnew b (not_lt.1 hlt) hb).1⟩
  · show u ∈ m.st.pidHash ∧ (m.st.task (m.st.task u).tgid).tgid = (m.st.task u).tgid ∧
      (m'.log (m.st.task u).tgid).isLogEnabled = true
    rcases (hflag u).1 hu with hmem | hu
    · have htgid := m.st.tgid_of_mem_threads hmem
      rw [hleader] at htgid
      rw [htgid, hself]
      refine ⟨?_, hleader, hf⟩
      rcases m.st.mem_threads.1 hmem with rfl | ⟨hu, -⟩
      · exact hhash
      · exact hu
    · obtain ⟨h1, h2, h3⟩ := h.flagged u hu
      exact ⟨h1, h2, (hflag _).2 (Or.inr h3)⟩
  · by_cases hut : u = t
    · subst hut
      rw [hself] at hpos ⊢
      exact hroom hpos
    · have htgid : (m.st.task u).tgid = u := htgid
      have hu := ((hflag u).1 hu).resolve_left fun hmem =>
        hut (leader_eq_of_mem_threads hleader htgid hmem)
      rw [hother u hut] at hpos ⊢
      obtain ⟨b, hb, h0, hle⟩ := h.room u hu htgid hpos
      refine ⟨b, hb, ?_⟩
      show (heap b).frees = 0 ∧ (m.log u).entries ≤ (heap b).capacity
      rw [hold b (h.known u b hb)]
      exact ⟨h0, hle⟩

/-- What `sys_setLogging` has done when it comes back.  It has no buffer if the size is 0. -/
theorem setLogging_cases {avail : ℕ} {logPid userPid n : ℤ} {x : LogState × ℤ}
    (h : setLogging avail logPid userPid n m = .ok x) :
    x.1 = m ∧ x.2 ≠ 0 ∨ ∃ t, m.st.findTaskByVpid logPid = some t ∧
      (m.log t).isLogEnabled = false ∧
      (logSize n = 0 ∧ x.1 = startLog t ⟨userPid, none, true, 0, n⟩ m ∨
        pageAlign (logSize n) ≠ 0 ∧
          x.1 = startLog t ⟨userPid, some m.areas, true, 0, n⟩ (allocated (logSize n) m)) := by
  have herr : -einval ≠ 0 ∧ -esrch ≠ 0 := by decide
  rw [setLogging] at h
  split_ifs at h
  · obtain rfl := Except.ok.inj h
    exact Or.inl ⟨rfl, herr.1⟩
  · obtain rfl := Except.ok.inj h
    exact Or.inl ⟨rfl, herr.1⟩
  cases hfind : m.st.findTaskByVpid logPid with
  | none =>
    rw [hfind] at h
    obtain rfl := Except.ok.inj h
    exact Or.inl ⟨rfl, herr.2⟩
  | some t =>
    rw [hfind] at h
    simp only at h
    split_ifs at h with hflag hoops
    · obtain rfl := Except.ok.inj h
      exact Or.inl ⟨rfl, herr.1⟩
    refine Or.inr ⟨t, rfl, by simpa using hflag, ?_⟩
    obtain rfl := Except.ok.inj h
    by_cases hnull : pageAlign (logSize n) = 0 ∨ avail < pageAlign (logSize n)
    · have hvmalloc : vmalloc avail (logSize n) m = (m, none) := if_pos hnull
      rw [hvmalloc] at hoops ⊢
      refine Or.inl ⟨?_, rfl⟩
      by_contra hne
      exact hoops ⟨rfl, hne⟩
    · have hvmalloc : vmalloc avail (logSize n) m = (allocated (logSize n) m, some m.areas) :=
        if_neg hnull
      rw [hvmalloc]
      exact Or.inr ⟨(not_or.1 hnull).1, rfl⟩

/-- The area of a log that can be counted has room for it. -/
theorem entries_le_capacity {n : ℤ} (hn : CountOk n) (hpos : 0 < Int.bmod (2 * n) (2 ^ 32))
    (hne : pageAlign (logSize n) ≠ 0) :
    Int.bmod (2 * n) (2 ^ 32) ≤ ((newArea (logSize n)).capacity : ℤ) := by
  obtain ⟨hentries, hsize, hn⟩ := entries_pos_iff hn hpos
  have hlt : logSize n < 2 ^ 32 := by
    rw [logSize]
    omega
  have hle := le_pageAlign hlt hne
  show Int.bmod (2 * n) (2 ^ 32) ≤ ((pageAlign (logSize n) / timespecSize : ℕ) : ℤ)
  rw [hentries, timespecSize]
  omega

theorem LogInv.setLogging (h : LogInv m) {avail : ℕ} {logPid userPid noDataPoints : ℤ}
    (hok : LogOk m (.setLogging avail logPid userPid noDataPoints)) :
    Sat (fun x => LogInv x.1) (fun _ => True)
      (RtSched.setLogging avail logPid userPid noDataPoints m) := by
  refine sat_of_forall_ok fun x hx => ?_
  rcases setLogging_cases hx with ⟨hsame, -⟩ | ⟨t, hfind, hflag, hnew⟩
  · rw [hsame]
    exact h
  obtain ⟨hleader, hcount, hcollected⟩ := hok t hfind hflag
  have hhash := m.st.mem_pidHash_of_find hfind
  rcases hnew with ⟨hsize, heq⟩ | ⟨hne, heq⟩
  · rw [heq]
    refine h.startLog hhash hleader hcollected rfl m.areas m.heap (fun _ _ => rfl) le_rfl
      (fun b h1 h2 => absurd h2 (not_lt.2 h1)) nofun fun hpos => ?_
    -- without a buffer no entry is written
    obtain ⟨-, hsize', hn⟩ := entries_pos_iff hcount hpos
    omega
  · rw [heq]
    refine h.startLog hhash hleader hcollected rfl (m.areas + 1) _
      (fun b hb => Function.update_of_ne hb.ne _ _) (Nat.le_succ _)
      (fun b h1 h2 => ?_) (fun b hb => ?_) fun hpos => ⟨m.areas, rfl, ?_, ?_⟩
    · obtain rfl : b = m.areas := by omega
      rw [Function.update_self]
      exact ⟨rfl, rfl⟩
    · obtain rfl := Option.some.inj hb
      exact ⟨le_rfl, Nat.lt_succ_self _⟩
    · rw [Function.update_self]
      rfl
    · rw [Function.update_self]
      exact entries_le_capacity hcount hpos hne

theorem LogInv.getLog (h : LogInv m) {copied : Bool} {pid : ℤ} (hok : LogOk m (.getLog copied pid)) :
    Sat (fun x => LogInv x.1) (fun _ => True) (RtSched.getLog copied pid m) := by
  refine sat_ite (fun _ => h) fun _ => ?_
  cases hfind : m.st.findTaskByVpid pid with
  | none => exact h
  | some t =>
    refine sat_ite (fun _ => trivial) fun _ => ?_
    show LogInv (vfree (m.log t).buf m)
    cases hbuf : (m.log t).buf with
    | none => exact h
    | some b =>
      obtain ⟨hflag, h0⟩ := hok t hfind b hbuf
      have hfrees : ∀ c, ((vfree (some b) m).heap c).frees =
          if c = b then 1 else (m.heap c).frees := by
        intro c
        by_cases hc : c = b
        · rw [if_pos hc, hc]
          show (Function.update m.heap b _ b).frees = 1
          rw [Function.update_self, h0]
        · rw [if_neg hc]
          show (Function.update m.heap b _ c).frees = _
          rw [Function.update_of_ne hc]
      refine ⟨h.known, h.own, fun c hc => ?_, fun c hc hlive => ?_, h.flagged,
        fun u hu hleader hpos => ?_⟩
      · rw [hfrees]
        split_ifs
        · exact le_rfl
        · exact h.once c hc
      · rw [hfrees] at hlive
        split_ifs at hlive
        exact h.kept c hc hlive
      · obtain ⟨c, hc, hlive, hle⟩ := h.room u hu hleader hpos
        -- the buffer that goes is not that of a process with the flag
        have hcb : c ≠ b := by
          rintro rfl
          have hu : (m.log u).isLogEnabled = true := hu
          rw [h.own u t c hc hbuf, hflag] at hu
          cases hu
        refine ⟨c, hc, ?_, ?_⟩
        · rw [hfrees, if_neg hcb]
          exact hlive
        · show _ ≤ ((Function.update m.heap b _ c).capacity : ℤ)
          rw [Function.update_of_ne hcb]
          exact hle

end LogInv

/-- **The life of a log buffer.**  In every run in which logs are started for group leaders and
collected once, when complete, every entry is written to the buffer of its process, and every buffer
is freed once. -/
theorem logBuffer_lifecycle {m : LogState} (h : Reach LogBooted LogOk LogState.exec m) : LogSafe m := by
  have hinv : LogInv m := by
    refine h.inv (I := LogInv) (E := fun _ => True) (fun _ => logInv_booted) fun m a hm hok => ?_
    cases a with
    | setLogging avail logPid userPid noDataPoints => exact hm.setLogging hok
    | getLog copied pid => exact hm.getLog hok
    | smp a =>
      obtain ⟨x, hx, hinv⟩ := hm.smp a
      rw [hx]
      exact hinv
  refine ⟨fun a _ => ?_, hinv.once, hinv.kept⟩
  obtain ⟨x, hx, -⟩ := hinv.smp a
  exact ⟨x, hx⟩

/-- Processes 1 and 2, not logged yet. -/
def logBoot : LogState where
  st := bootState [1, 2] .noPm
  curr := fun _ => none
  log := fun _ => ⟨0, none, false, 0, 0⟩
  areas := 0
  heap := fun _ => ⟨0, fun _ => blankEntry, 0⟩

theorem logBooted_logBoot : LogBooted logBoot := ⟨rfl, fun _ => rfl, fun _ => rfl⟩

instance (n : ℤ) : Decidable (CountOk n) := instDecidableOr

instance (m : LogState) (t : Tid) : Decidable (Collected m t) :=
  inferInstanceAs (Decidable (∀ b ∈ (m.log t).buf, (m.heap b).frees ≠ 0))

instance (m : LogState) : (a : LogEvent) → Decidable (LogOk m a)
  | .setLogging _ logPid _ n => inferInstanceAs (Decidable (∀ t ∈ m.st.findTaskByVpid logPid,
      (m.log t).isLogEnabled = false → (m.st.task t).tgid = t ∧ CountOk n ∧ Collected m t))
  | .getLog _ pid => inferInstanceAs (Decidable (∀ t ∈ m.st.findTaskByVpid pid,
      ∀ b ∈ (m.log t).buf, (m.log t).isLogEnabled = false ∧ (m.heap b).frees = 0))
  | .smp a => inferInstanceAs (Decidable (Possible m.toSmp a))

/-- A log of one data point is written, collected, and started again. -/
theorem logBuffer_lifecycle_twice :
    ∃ m, Reach LogBooted LogOk LogState.exec m ∧ m.areas = 2 ∧ (m.heap 0).frees = 1 ∧ LogSafe m := by
  obtain ⟨m, hm, hareas, hfrees⟩ : ∃ m, follow LogOk LogState.exec
      [.setLogging 4096 1 2 1, .smp (.switchIn 0 1), .smp (.pass 7), .smp (.switchOut 0),
        .smp (.switchIn 1 1), .getLog true 1, .setLogging 4096 1 2 1] logBoot = some m ∧
      m.areas = 2 ∧ (m.heap 0).frees = 1 :=
    exists_some_of_test (by decide)
  have hreach := reach_of_follow (Reach.start logBooted_logBoot) hm
  exact ⟨m, hreach, hareas, hfrees, logBuffer_lifecycle hreach⟩

/-- Any calls, and what is possible on the CPUs. -/
def LogAny (m : LogState) : LogEvent → Prop
  | .smp a => Possible m.toSmp a
  | _ => True

instance (m : LogState) : (a : LogEvent) → Decidable (LogAny m a)
  | .smp a => inferInstanceAs (Decidable (Possible m.toSmp a))
  | .setLogging .. | .getLog .. => instDecidableTrue

/-- A log is collected before it is complete: the next switch of the process writes to the freed
buffer. -/
theorem logBuffer_used_after_free :
    ¬ ∀ m, Reach LogBooted LogAny LogState.exec m → LogSafe m := by
  intro hall
  obtain ⟨m, hm, hpossible, hoops⟩ : ∃ m, follow LogAny LogState.exec
      [.setLogging 4096 1 2 1, .getLog true 1] logBoot = some m ∧
      Possible m.toSmp (.switchIn 0 1) ∧
      (m.exec (.smp (.switchIn 0 1))).test (fun _ => true) = false :=
    exists_some_of_test (by decide)
  obtain ⟨x, hx⟩ := (hall m (reach_of_follow (Reach.start logBooted_logBoot) hm)).writes _ hpossible
  rw [hx] at hoops
  cases hoops

end RtSched
