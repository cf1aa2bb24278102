import RtSched.Logging

/-!
# What a log says

For a process of one thread.  The slices it runs, from the first one that begins after
`sys_setLogging` on, are recorded next to the state (`LogTrace`): what should be in the log is their
starts and lengths, in order (`LogTrace.times`).

* `logDataPoint_frame`, `LogFrame`: the logs of other processes do not matter;
* `TraceInv`: while the flag is set the log has all there is to log; when it has been cleared, the
  log is full;
* `log_contents`: so the log is what it should be, up to its size, in every run.
-/

namespace RtSched

open Call

/-! ### What should be in the log -/

/-- The state, the slices of the process that have begun since its log was started and have ended,
and the start of the one that has not. -/
structure LogTrace extends LogState where
  ended : List (ℤ × ℤ)
  began : Option ℤ

/-- The entries the slices `ended` make. -/
def pairs (ended : List (ℤ × ℤ)) : List ℤ := ended.flatMap fun x => [x.1, x.2 - x.1]

/-- Start and length of each slice, in order; of the last one perhaps only the start. -/
def LogTrace.times (g : LogTrace) : List ℤ := pairs g.ended ++ g.began.toList

/-- The slices after an event. -/
def LogTrace.note (p : Tid) (g : LogTrace) : SmpEvent → List (ℤ × ℤ) × Option ℤ
  | .switchIn _ t => if t = p then (g.ended, some g.st.now) else (g.ended, g.began)
  | .switchOut cpu =>
      if g.curr cpu = some p then
        match g.began with
        | some a => (g.ended ++ [(a, g.st.now)], none)
        | none => (g.ended, none)
      else (g.ended, g.began)
  | _ => (g.ended, g.began)

/-- A step of a run. -/
def traceExec (p : Tid) (g : LogTrace) (a : SmpEvent) : Call LogTrace (LogTrace × Unit) :=
  match g.toLogState.exec (.smp a) with
  | .ok x => .ok (⟨x.1, (g.note p a).1, (g.note p a).2⟩, ())
  | .error (trap, m) => .error (trap, { g with toLogState := m })

/-- `p` is the only thread of its process. -/
def SingleThreaded (p : Tid) (s : KState) : Prop := ∀ u, (s.task u).tgid = p ↔ u = p

/-- The log of `p` has just been started, with room for `n` data points.  The process may be running,
on one CPU, or not. -/
structure LogStarted (p : Tid) (n : ℤ) (g : LogTrace) : Prop where
  oneCpu : ∀ c d, g.curr c = some p → g.curr d = some p → c = d
  ended : g.ended = []
  began : g.began = none
  call : ∃ avail logPid userPid m, m.st.findTaskByVpid logPid = some p ∧ SingleThreaded p m.st ∧
    (∀ u b, (m.log u).buf = some b → b < m.areas) ∧
    setLogging avail logPid userPid n m = .ok (g.toLogState, 0)

/-- The log of `p` has the starts and lengths of the slices, as many as there is room for, and nothing
has been written behind them.  A switch of the process comes to its end. -/
structure LogHolds (p : Tid) (n : ℤ) (g : LogTrace) : Prop where
  offset : ((g.log p).bufOffset : ℤ) = min (2 * n) g.times.length
  contents : 0 < n → ∃ b, (g.log p).buf = some b ∧
    (∀ i < (g.log p).bufOffset, timespecToNs ((g.heap b).cells i) = g.times.getD i 0) ∧
    ∀ i : ℕ, 2 * n ≤ i → (g.heap b).cells i = blankEntry
  switchIn : ∀ cpu, Possible g.toSmp (.switchIn cpu p) →
    ∃ x, g.toLogState.exec (.smp (.switchIn cpu p)) = .ok x
  switchOut : ∀ cpu, g.curr cpu = some p → ∃ x, g.toLogState.exec (.smp (.switchOut cpu)) = .ok x

/-! ### What other processes leave alone -/

section Frame

variable {m m' : LogState} {s : KState} {p t u next : Tid}

theorem armLeader_execTime (leader next u : Tid) (s : KState) :
    ((armLeader leader next s).task u).execTime = (s.task u).execTime := by
  rcases armLeader_cases leader next s with ⟨-, heq⟩ | ⟨-, heq | heq⟩
  all_goals rw [heq]
  · rw [KState.modifyTask_task]
    split_ifs <;> rfl
  · rw [KState.modifyTask_task]
    split_ifs <;> rfl

/-- The leader gets the start of the slice. -/
theorem beginSlice_execTime (logged : Bool) (next u : Tid) (s : KState) :
    ((beginSlice logged next s).task u).execTime =
      if ((s.task next).isBudgetSet = true ∨ logged = true) ∧ u = (s.task next).tgid then
        nsToTimespec s.now
      else (s.task u).execTime := by
  simp only [beginSlice]
  set s₁ := if (s.task next).isBudgetSet = true ∨ logged = true then
    startSlice (s.task next).tgid s else s with hs₁
  have hstart : (s₁.task u).execTime =
      if ((s.task next).isBudgetSet = true ∨ logged = true) ∧ u = (s.task next).tgid then
        nsToTimespec s.now
      else (s.task u).execTime := by
    rw [hs₁]
    by_cases hany : (s.task next).isBudgetSet = true ∨ logged = true
    · rw [if_pos hany, startSlice_task]
      simp only [hany, true_and]
    · rw [if_neg hany, if_neg fun h => hany h.1]
  rw [← hstart]
  by_cases hset : (s₁.task next).isBudgetSet = true
  · rw [if_pos hset, armLeader_execTime]
  · rw [if_neg hset]

theorem switchOut_execTime (prev u : Tid) (s : KState) :
    ((switchOut prev s).task u).execTime = (s.task u).execTime := by
  rw [switchOut_task]
  split_ifs <;> rfl

theorem periodCallback_execTime (curr u : Tid) (s : KState) :
    ((periodCallback curr s).task u).execTime = (s.task u).execTime := by
  have hwake : ∀ q : TaskStruct, (wakeUpProcess q).execTime = q.execTime := by
    intro q
    obtain ⟨_, -, heq⟩ := wakeUpProcess_eq q
    rw [heq]
  rw [periodCallback, KState.eachThread_task, KState.modifyTask_task]
  split_ifs
  · exact hwake _
  · exact hwake _
  · rfl
  · rfl

/-- A data point is written to the leader's buffer, or its group loses the flags. -/
theorem logDataPoint_frame {data : Timespec} (h : logDataPoint t data m = .ok m') :
    m'.toSmp = m.toSmp ∧ m'.areas = m.areas ∧ (∀ u, (m'.log u).buf = (m.log u).buf) ∧
      (∀ u, u ∉ m.st.threads t → m'.log u = m.log u) ∧
      ∀ b, (m.log t).buf ≠ some b → m'.heap b = m.heap b := by
  simp only [logDataPoint] at h
  split_ifs at h with hfull
  · obtain rfl := Except.ok.inj h
    refine ⟨rfl, rfl, fun u => ?_, fun u hu => ?_, fun _ _ => rfl⟩
    · rw [setLogFlags_log]
    · rw [setLogFlags_log, if_neg hu]
  · cases hbuf : (m.log t).buf with
    | none =>
      rw [hbuf] at h
      cases h
    | some c =>
      rw [hbuf] at h
      simp only at h
      split_ifs at h
      obtain rfl := Except.ok.inj h
      refine ⟨rfl, rfl, fun u => ?_, fun u hu => ?_, fun b hb => ?_⟩
      · by_cases hut : u = t
        · subst hut
          simp [hbuf]
        · simp only [Function.update_of_ne hut]
      · have hut : u ≠ t := by
          rintro rfl
          exact hu (m.st.self_mem_threads u)
        simp only [Function.update_of_ne hut]
      · have hbc : b ≠ c := by
          rintro rfl
          exact hb rfl
        simp only [Function.update_of_ne hbc]

/-- The log of `p`, its buffer and the start of its slice are as they were. -/
structure LogFrame (p : Tid) (m m' : LogState) : Prop where
  curr : m'.curr = m.curr
  groups : SameGroups m.st m'.st
  exec : (m'.st.task p).execTime = (m.st.task p).execTime
  log : m'.log p = m.log p
  bufs : ∀ u, (m'.log u).buf = (m.log u).buf
  areas : m'.areas = m.areas
  heap : ∀ b, (m.log p).buf = some b → m'.heap b = m.heap b

/-- A change of the tasks that leaves the start of the slice of `p` alone. -/
theorem logFrame_st (hs : SameGroups m.st s) (hexec : (s.task p).execTime = (m.st.task p).execTime) :
    LogFrame p m { m with st := s } :=
  ⟨rfl, hs, hexec, rfl, fun _ => rfl, rfl, fun _ _ => rfl⟩

theorem LogFrame.trans {m'' : LogState} (h : LogFrame p m m') (h' : LogFrame p m' m'') :
    LogFrame p m m'' where
  curr := h'.curr.trans h.curr
  groups := h.groups.trans h'.groups
  exec := h'.exec.trans h.exec
  log := h'.log.trans h.log
  bufs := fun u => (h'.bufs u).trans (h.bufs u)
  areas := h'.areas.trans h.areas
  heap := fun b hb => (h'.heap b ((h.bufs p).trans hb)).trans (h.heap b hb)

theorem not_mem_threads_of_single (hp : SingleThreaded p s) (ht : t ≠ p) : p ∉ s.threads t := by
  intro hmem
  have htgid := s.tgid_of_mem_threads hmem
  rw [(hp p).2 rfl] at htgid
  exact ht ((hp t).1 htgid.symm)

/-- A data point of another process. -/
theorem logDataPoint_other (hp : SingleThreaded p m.st)
    (hforeign : ∀ u b, u ≠ p → (m.log u).buf = some b → (m.log p).buf ≠ some b) (ht : t ≠ p)
    {data : Timespec} (h : logDataPoint t data m = .ok m') : LogFrame p m m' := by
  obtain ⟨hsmp, hareas, hbufs, hlog, hheap⟩ := logDataPoint_frame h
  have hst : m'.st = m.st := congrArg Smp.st hsmp
  refine ⟨by rw [hsmp], ?_, ?_, hlog p (not_mem_threads_of_single hp ht), hbufs, hareas,
    fun b hb => ?_⟩
  · rw [hst]
    exact SameGroups.refl m.st
  · rw [hst]
  · exact hheap b fun htb => hforeign t b ht htb hb

/-- A switch of another process. -/
theorem logSwitchOut_other (hp : SingleThreaded p m.st)
    (hforeign : ∀ u b, u ≠ p → (m.log u).buf = some b → (m.log p).buf ≠ some b) (ht : t ≠ p)
    (h : logSwitchOut t m = .ok m') : LogFrame p m m' := by
  have hframe : LogFrame p m { m with st := switchOut t m.st } :=
    logFrame_st (sameGroups_switchOut t m.st) (switchOut_execTime t p m.st)
  have hp' : SingleThreaded p (switchOut t m.st) := by
    intro u
    rw [(sameGroups_switchOut t m.st).tgid u]
    exact hp u
  simp only [logSwitchOut] at h
  split_ifs at h with hlog
  · exact hframe.trans (logDataPoint_other hp' hforeign (fun heq => ht ((hp t).1 heq)) h)
  · obtain rfl := Except.ok.inj h
    exact hframe

theorem logSwitchIn_other (hp : SingleThreaded p m.st)
    (hforeign : ∀ u b, u ≠ p → (m.log u).buf = some b → (m.log p).buf ≠ some b) (ht : t ≠ p)
    (h : logSwitchIn t m = .ok m') : LogFrame p m m' := by
  have hleader : (m.st.task t).tgid ≠ p := fun heq => ht ((hp t).1 heq)
  have hsame := sameGroups_beginSlice (m.log t).isLogEnabled t m.st
  have hframe : LogFrame p m { m with st := beginSlice (m.log t).isLogEnabled t m.st } := by
    refine logFrame_st hsame ?_
    rw [beginSlice_execTime, if_neg fun heq => hleader heq.2.symm]
  have hp' : SingleThreaded p (beginSlice (m.log t).isLogEnabled t m.st) := by
    intro u
    rw [hsame.tgid u]
    exact hp u
  simp only [logSwitchIn] at h
  split_ifs at h with hlog
  · exact hframe.trans (logDataPoint_other hp' hforeign hleader h)
  · obtain rfl := Except.ok.inj h
    exact hframe

/-- The timers and the clock. -/
theorem logFrame_after {a : SmpEvent} (hin : ∀ cpu t, a ≠ .switchIn cpu t)
    (hout : ∀ cpu, a ≠ .switchOut cpu) :
    LogFrame p m { m with toSmp := m.toSmp.after a } := by
  have hsame := sameGroups_after m.toSmp a
  cases a with
  | switchIn cpu t => exact absurd rfl (hin cpu t)
  | switchOut cpu => exact absurd rfl (hout cpu)
  | pass d => exact ⟨rfl, hsame, rfl, rfl, fun _ => rfl, rfl, fun _ _ => rfl⟩
  | budgetExpiry t =>
    refine ⟨rfl, hsame, ?_, rfl, fun _ => rfl, rfl, fun _ _ => rfl⟩
    show ((m.st.modifyTask t budgetTimerCallback).task p).execTime = (m.st.task p).execTime
    rw [KState.modifyTask_task, budgetTimerCallback]
    split_ifs <;> rfl
  | periodExpiry t =>
    exact ⟨rfl, hsame, periodCallback_execTime t p m.st, rfl, fun _ => rfl, rfl, fun _ _ => rfl⟩

end Frame

/-! ### The buffer -/

/-- The log of `p` has the entries `times`: all of them while the flag is set, the first `2 * n` when
it has been cleared. -/
structure BufferOk (p : Tid) (n : ℤ) (times : List ℤ) (m : LogState) : Prop where
  count : (m.log p).noDataPoints = n
  buffer : 0 < n → ∃ b, (m.log p).buf = some b ∧ b < m.areas ∧ (m.heap b).frees = 0 ∧
    2 * n ≤ (m.heap b).capacity ∧
    (∀ i < (m.log p).bufOffset, timespecToNs ((m.heap b).cells i) = times.getD i 0) ∧
    ∀ i : ℕ, 2 * n ≤ i → (m.heap b).cells i = blankEntry
  enabled : (m.log p).isLogEnabled = true →
    (m.log p).bufOffset = times.length ∧ ((m.log p).bufOffset : ℤ) ≤ 2 * n
  complete : (m.log p).isLogEnabled = false →
    ((m.log p).bufOffset : ℤ) = 2 * n ∧ 2 * n ≤ times.length

section Buffer

variable {p : Tid} {n : ℤ} {times : List ℤ} {m m' : LogState}

theorem BufferOk.offset_le (h : BufferOk p n times m) : (m.log p).bufOffset ≤ times.length := by
  cases hflag : (m.log p).isLogEnabled with
  | true => exact (h.enabled hflag).1.le
  | false =>
    have := h.complete hflag
    omega

theorem BufferOk.of_frame (h : BufferOk p n times m) (hf : LogFrame p m m') :
    BufferOk p n times m' := by
  refine ⟨?_, fun hpos => ?_, ?_, ?_⟩
  · rw [hf.log]
    exact h.count
  · obtain ⟨b, hb, hlt, hrest⟩ := h.buffer hpos
    refine ⟨b, ?_, ?_, ?_⟩
    · rw [hf.log]
      exact hb
    · rw [hf.areas]
      exact hlt
    · rw [hf.heap b hb, hf.log]
      exact hrest
  · rw [hf.log]
    exact h.enabled
  · rw [hf.log]
    exact h.complete

/-- A full log stays as it is. -/
theorem BufferOk.append (h : BufferOk p n times m) (hflag : (m.log p).isLogEnabled = false)
    (more : List ℤ) : BufferOk p n (times ++ more) m := by
  have hlen := h.offset_le
  refine ⟨h.count, fun hpos => ?_, fun htrue => ?_, fun _ => ?_⟩
  · obtain ⟨b, hb, hlt, h0, hcap, hcells, hblank⟩ := h.buffer hpos
    refine ⟨b, hb, hlt, h0, hcap, fun i hi => ?_, hblank⟩
    rw [List.getD_append _ _ _ _ (by omega)]
    exact hcells i hi
  · rw [hflag] at htrue
    cases htrue
  · obtain ⟨hoff, hle⟩ := h.complete hflag
    refine ⟨hoff, ?_⟩
    rw [List.length_append]
    omega

/-- One data point more. -/
theorem BufferOk.logDataPoint (h : BufferOk p n times m) (h0 : 0 ≤ n) (hn : n < 2 ^ 28)
    (hflag : (m.log p).isLogEnabled = true) (data : Timespec) :
    ∃ m', logDataPoint p data m = .ok m' ∧ BufferOk p n (times ++ [timespecToNs data]) m' := by
  obtain ⟨hoff, hle⟩ := h.enabled hflag
  have hentries : (m.log p).entries = 2 * n := by
    rw [LogFields.entries, h.count]
    exact Int.bmod_eq_of_le (by omega) (by omega)
  have hlen : (times ++ [timespecToNs data]).length = times.length + 1 := by simp
  simp only [RtSched.logDataPoint, hentries]
  by_cases hfull : ((m.log p).bufOffset : ℤ) ≥ 2 * n
  · rw [if_pos hfull]
    have hlog : (setLogFlags p false m).log p = { m.log p with isLogEnabled := false } := by
      rw [setLogFlags_log, if_pos (m.st.self_mem_threads p)]
    refine ⟨_, rfl, ?_, fun hpos => ?_, fun htrue => ?_, fun _ => ?_⟩
    · rw [hlog]
      exact h.count
    · obtain ⟨b, hb, hlt, hfrees, hcap, hcells, hblank⟩ := h.buffer hpos
      rw [hlog]
      refine ⟨b, hb, hlt, hfrees, hcap, fun i hi => ?_, hblank⟩
      have hi : i < (m.log p).bufOffset := hi
      rw [List.getD_append _ _ _ _ (by omega)]
      exact hcells i hi
    · rw [hlog] at htrue
      cases htrue
    · rw [hlog, hlen]
      dsimp only
      omega
  · rw [if_neg hfull]
    obtain ⟨b, hb, hlt, hfrees, hcap, hcells, hblank⟩ := h.buffer (by omega)
    have haccess : Accessible m (some b) ((m.log p).bufOffset + 1) :=
      ⟨b, rfl, hlt, hfrees, by omega⟩
    simp only [hb, haccess, not_true, if_false]
    refine ⟨_, rfl, ?_, fun _ => ⟨b, ?_⟩, fun _ => ?_, fun hfalse => ?_⟩
    · simp only [Function.update_self]
      exact h.count
    · simp only [Function.update_self, true_and]
      refine ⟨hlt, hfrees, hcap, fun i hi => ?_, fun i hi => ?_⟩
      · by_cases hlast : i = (m.log p).bufOffset
        · rw [hlast, Function.update_self, hoff, List.getD_append_right _ _ _ _ le_rfl,
            Nat.sub_self]
          rfl
        · rw [Function.update_of_ne hlast, List.getD_append _ _ _ _ (by omega)]
          exact hcells i (by omega)
      · have hne : i ≠ (m.log p).bufOffset := by omega
        rw [Function.update_of_ne hne]
        exact hblank i hi
    · simp only [Function.update_self, hlen]
      omega
    · simp only [Function.update_self, hflag] at hfalse
      cases hfalse

end Buffer

/-! ### The invariant -/

/-- What holds on the way. -/
structure TraceInv (p : Tid) (n : ℤ) (g : LogTrace) : Prop where
  single : SingleThreaded p g.st
  oneCpu : ∀ c d, g.curr c = some p → g.curr d = some p → c = d
  foreign : ∀ u b, u ≠ p → (g.log u).buf = some b → (g.log p).buf ≠ some b
  holds : BufferOk p n g.times g.toLogState
  running : ∀ a, g.began = some a → ∃ c, g.curr c = some p
  /-- `exec_time` is the start of the slice -/
  slice : (g.log p).isLogEnabled = true → ∀ a, g.began = some a →
    timespecToNs (g.st.task p).execTime = a
  /-- a slice that is not recorded began before the log was started -/
  first : (g.log p).isLogEnabled = true → g.began = none → (∃ c, g.curr c = some p) → g.ended = []

section TraceInv

variable {p : Tid} {n : ℤ} {g : LogTrace} {m' : LogState}

theorem SingleThreaded.of_sameGroups {s s' : KState} (h : SingleThreaded p s)
    (hs : SameGroups s s') : SingleThreaded p s' := by
  intro u
  rw [hs.tgid u]
  exact h u

/-- The buffers are where they were. -/
theorem TraceInv.foreign_of_bufs (h : TraceInv p n g)
    (hbufs : ∀ u, (m'.log u).buf = (g.log u).buf) {u : Tid} {b : ℕ} (hu : u ≠ p)
    (hb : (m'.log u).buf = some b) : (m'.log p).buf ≠ some b := by
  rw [hbufs] at hb ⊢
  exact h.foreign u b hu hb

/-- Something that does not concern `p`. -/
theorem TraceInv.of_frame (h : TraceInv p n g) (hf : LogFrame p g.toLogState m')
    {curr : Fin maxCpu → Option Tid} (hcurr : ∀ c, curr c = some p ↔ g.curr c = some p) :
    TraceInv p n ⟨{ m' with curr := curr }, g.ended, g.began⟩ := by
  have hholds := h.holds.of_frame hf
  refine ⟨h.single.of_sameGroups hf.groups,
    fun c d hc hd => h.oneCpu c d ((hcurr c).1 hc) ((hcurr d).1 hd),
    fun u b hu hb => h.foreign_of_bufs hf.bufs hu hb,
    ⟨hholds.count, hholds.buffer, hholds.enabled, hholds.complete⟩,
    fun a ha => (h.running a ha).imp fun c => (hcurr c).2, fun hflag a ha => ?_,
    fun hflag hnone hrun => ?_⟩
  · have hflag : (m'.log p).isLogEnabled = true := hflag
    rw [hf.log] at hflag
    exact (congrArg timespecToNs hf.exec).trans (h.slice hflag a ha)
  · have hflag : (m'.log p).isLogEnabled = true := hflag
    rw [hf.log] at hflag
    exact h.first hflag hnone (hrun.imp fun c => (hcurr c).1)

theorem pairs_append (l : List (ℤ × ℤ)) (a b : ℤ) : pairs (l ++ [(a, b)]) = pairs l ++ [a] ++ [b - a] := by
  simp [pairs]

theorem LogTrace.times_of_none (h : g.began = none) : g.times = pairs g.ended := by
  rw [LogTrace.times, h]
  exact List.append_nil _

/-- The process runs on the CPU it has been given, with the start of its slice as the last entry. -/
theorem TraceInv.enter (h : TraceInv p n g) (hoff : ∀ c, g.curr c ≠ some p)
    (hok : BufferOk p n (pairs g.ended ++ [g.st.now]) m') (hst : SameGroups g.st m'.st)
    (hcurr : m'.curr = g.curr) (hbufs : ∀ u, (m'.log u).buf = (g.log u).buf)
    (hexec : (m'.log p).isLogEnabled = true → timespecToNs (m'.st.task p).execTime = g.st.now)
    (cpu : Fin maxCpu) :
    TraceInv p n ⟨{ m' with curr := Function.update m'.curr cpu (some p) }, g.ended,
      some g.st.now⟩ := by
  have honly : ∀ c, Function.update m'.curr cpu (some p) c = some p → c = cpu := by
    intro c hc
    by_contra hne
    rw [Function.update_of_ne hne, hcurr] at hc
    exact hoff c hc
  refine ⟨h.single.of_sameGroups hst, fun c d hc hd => (honly c hc).trans (honly d hd).symm,
    fun u b hu hb => h.foreign_of_bufs hbufs hu hb,
    ⟨hok.count, hok.buffer, hok.enabled, hok.complete⟩, fun _ _ => ⟨cpu, Function.update_self ..⟩,
    fun hflag a ha => ?_, fun _ hnone => absurd hnone (Option.some_ne_none _)⟩
  rw [← Option.some.inj ha]
  exact hexec hflag

/-- The process gets a CPU. -/
theorem TraceInv.switchIn (h : TraceInv p n g) (h0 : 0 ≤ n) (hn : n < 2 ^ 28)
    (hoff : ∀ c, g.curr c ≠ some p) :
    ∃ m', logSwitchIn p g.toLogState = .ok m' ∧ ∀ cpu, TraceInv p n
      ⟨{ m' with curr := Function.update m'.curr cpu (some p) }, g.ended, some g.st.now⟩ := by
  have hnone : g.began = none := by
    cases hbegan : g.began with
    | none => rfl
    | some a =>
      obtain ⟨c, hc⟩ := h.running a hbegan
      exact absurd hc (hoff c)
  have htimes := LogTrace.times_of_none hnone
  have hleader : (g.st.task p).tgid = p := (h.single p).2 rfl
  have hsame := sameGroups_beginSlice (g.log p).isLogEnabled p g.st
  -- the tasks have changed, the log not yet
  have hholds : BufferOk p n g.times
      { g.toLogState with st := beginSlice (g.log p).isLogEnabled p g.st } :=
    ⟨h.holds.count, h.holds.buffer, h.holds.enabled, h.holds.complete⟩
  simp only [logSwitchIn, hleader]
  by_cases hflag : (g.log p).isLogEnabled = true
  · have hexec : timespecToNs ((beginSlice (g.log p).isLogEnabled p g.st).task p).execTime =
        g.st.now := by
      rw [beginSlice_execTime, if_pos ⟨Or.inr hflag, hleader.symm⟩, timespecToNs_nsToTimespec]
    rw [if_pos hflag]
    obtain ⟨m', hm', hok⟩ := hholds.logDataPoint h0 hn hflag
      ((beginSlice (g.log p).isLogEnabled p g.st).task p).execTime
    rw [hexec, htimes] at hok
    obtain ⟨hsmp, -, hbufs, -, -⟩ := logDataPoint_frame hm'
    have hst : m'.st = beginSlice (g.log p).isLogEnabled p g.st := congrArg Smp.st hsmp
    have hcurr : m'.curr = g.curr := by rw [hsmp]
    refine ⟨m', hm', h.enter hoff hok (hst ▸ hsame) hcurr hbufs fun _ => ?_⟩
    rw [hst, hexec]
  · rw [Bool.not_eq_true] at hflag
    rw [if_neg (by rw [hflag]; exact Bool.false_ne_true)]
    have hmore := hholds.append hflag [g.st.now]
    rw [htimes] at hmore
    refine ⟨_, rfl, h.enter hoff hmore hsame rfl (fun _ => rfl) fun htrue => ?_⟩
    exact absurd (htrue.symm.trans hflag) (by decide)

/-- The process runs nowhere, and its slices are over. -/
theorem TraceInv.leave (h : TraceInv p n g) {cpu : Fin maxCpu} (hcpu : g.curr cpu = some p)
    {ended : List (ℤ × ℤ)} (hok : BufferOk p n (pairs ended) m') (hst : SameGroups g.st m'.st)
    (hcurr : m'.curr = g.curr) (hbufs : ∀ u, (m'.log u).buf = (g.log u).buf) :
    TraceInv p n ⟨{ m' with curr := Function.update m'.curr cpu none }, ended, none⟩ := by
  have hgone : ∀ c, Function.update m'.curr cpu none c ≠ some p := by
    intro c hc
    by_cases hne : c = cpu
    · rw [hne, Function.update_self] at hc
      cases hc
    · rw [Function.update_of_ne hne, hcurr] at hc
      exact hne (h.oneCpu c cpu hc hcpu)
  refine ⟨h.single.of_sameGroups hst, fun c d hc => absurd hc (hgone c),
    fun u b hu hb => h.foreign_of_bufs hbufs hu hb, ?_, nofun, fun _ => nofun,
    fun _ _ ⟨c, hc⟩ => absurd hc (hgone c)⟩
  rw [LogTrace.times_of_none rfl]
  exact ⟨hok.count, hok.buffer, hok.enabled, hok.complete⟩

/-- The process leaves its CPU. -/
theorem TraceInv.switchOut (h : TraceInv p n g) (h0 : 0 ≤ n) (hn : n < 2 ^ 28) {cpu : Fin maxCpu}
    (hcpu : g.curr cpu = some p) :
    ∃ m', logSwitchOut p g.toLogState = .ok m' ∧ TraceInv p n
      ⟨{ m' with curr := Function.update m'.curr cpu none }, (g.note p (.switchOut cpu)).1,
        (g.note p (.switchOut cpu)).2⟩ := by
  have hleader : (g.st.task p).tgid = p := (h.single p).2 rfl
  have hsame := sameGroups_switchOut p g.st
  have hholds : BufferOk p n g.times { g.toLogState with st := RtSched.switchOut p g.st } :=
    ⟨h.holds.count, h.holds.buffer, h.holds.enabled, h.holds.complete⟩
  simp only [logSwitchOut, hleader, LogTrace.note, hcpu, if_true]
  cases hbegan : g.began with
  | none =>
    have htimes := LogTrace.times_of_none hbegan
    have hskip : ¬ ((g.log p).isLogEnabled = true ∧ (g.log p).bufOffset ≠ 0) := by
      rintro ⟨hflag, hne⟩
      have hempty := h.first hflag hbegan ⟨cpu, hcpu⟩
      rw [(h.holds.enabled hflag).1, htimes, hempty] at hne
      exact hne rfl
    rw [if_neg hskip]
    rw [htimes] at hholds
    have hinv := h.leave hcpu hholds hsame rfl fun _ => rfl
    exact ⟨_, rfl, hinv⟩
  | some a =>
    have htimes : g.times = pairs g.ended ++ [a] := by
      rw [LogTrace.times, hbegan]
      rfl
    have hpairs : pairs (g.ended ++ [(a, g.st.now)]) = g.times ++ [g.st.now - a] := by
      rw [pairs_append, htimes]
    cases hflag : (g.log p).isLogEnabled with
    | false =>
      rw [if_neg fun hlog => Bool.false_ne_true hlog.1]
      have hmore := hholds.append hflag [g.st.now - a]
      rw [← hpairs] at hmore
      have hinv := h.leave hcpu hmore hsame rfl fun _ => rfl
      exact ⟨_, rfl, hinv⟩
    | true =>
      have hoffset : (g.log p).bufOffset ≠ 0 := by
        rw [(h.holds.enabled hflag).1, htimes]
        simp
      have hdata : timespecToNs (timespecSub (nsToTimespec g.st.now)
          ((RtSched.switchOut p g.st).task p).execTime) = g.st.now - a := by
        rw [timespecToNs_sub, timespecToNs_nsToTimespec, switchOut_execTime, h.slice hflag a hbegan]
      rw [if_pos ⟨rfl, hoffset⟩]
      obtain ⟨m', hm', hok⟩ := hholds.logDataPoint h0 hn hflag (timespecSub (nsToTimespec g.st.now)
        ((RtSched.switchOut p g.st).task p).execTime)
      obtain ⟨hsmp, -, hbufs, -, -⟩ := logDataPoint_frame hm'
      have hst : m'.st = RtSched.switchOut p g.st := congrArg Smp.st hsmp
      rw [hdata, ← hpairs] at hok
      exact ⟨m', hm', h.leave hcpu hok (hst ▸ hsame) (by rw [hsmp]) hbufs⟩

/-- A log that has just been started is empty. -/
theorem traceInv_start (h0 : 0 ≤ n) (hn : n < 2 ^ 28) (h : LogStarted p n g) : TraceInv p n g := by
  obtain ⟨avail, logPid, userPid, m, hfind, hsingle, hknown, hcall⟩ := h.call
  have htimes : g.times = [] := by
    rw [LogTrace.times, h.ended, h.began]
    rfl
  rcases setLogging_cases hcall with ⟨-, hne⟩ | ⟨t, hfind', -, hnew⟩
  · exact absurd rfl hne
  obtain rfl : t = p := Option.some.inj (hfind'.symm.trans hfind)
  -- the fields of the new log, and the buffers of the others
  obtain ⟨hst, hfields, hbufs⟩ : g.st = m.st ∧
      (∃ buf, (g.log t) = ⟨userPid, buf, true, 0, n⟩ ∧ ∀ b, buf = some b → b = m.areas) ∧
      ∀ u, u ≠ t → (g.log u).buf = (m.log u).buf := by
    rcases hnew with ⟨-, heq⟩ | ⟨-, heq⟩
    · dsimp only at heq
      rw [heq]
      exact ⟨rfl, ⟨none, startLog_self t rfl m, nofun⟩, fun u hu => by rw [startLog_other hu]⟩
    · dsimp only at heq
      rw [heq]
      exact ⟨rfl, ⟨some m.areas, startLog_self t rfl _, fun b hb => (Option.some.inj hb).symm⟩,
        fun u hu => by rw [startLog_other hu]; rfl⟩
  obtain ⟨buf, hlog, hbuf⟩ := hfields
  have hsingle' : SingleThreaded t g.st := by
    rw [hst]
    exact hsingle
  refine ⟨hsingle', h.oneCpu, fun u b hu hb hself => ?_, ⟨?_, fun hpos => ?_, fun _ => ?_, ?_⟩,
    fun a ha => ?_, fun _ a ha => ?_, fun _ _ _ => h.ended⟩
  · rw [hlog] at hself
    rw [hbufs u hu] at hb
    have hlt := hknown u b hb
    rw [hbuf b hself] at hlt
    exact lt_irrefl _ hlt
  · rw [hlog]
  · have hcount : CountOk n := Or.inr ⟨h0, hn⟩
    have hentries : Int.bmod (2 * n) (2 ^ 32) = 2 * n := Int.bmod_eq_of_le (by omega) (by omega)
    have hpos' : 0 < Int.bmod (2 * n) (2 ^ 32) := by omega
    rcases hnew with ⟨hsize, -⟩ | ⟨hne, heq⟩
    · obtain ⟨-, hsize', -⟩ := entries_pos_iff hcount hpos'
      omega
    · dsimp only at heq
      have hheap : g.heap m.areas = newArea (logSize n) := by
        rw [heq]
        exact Function.update_self ..
      refine ⟨m.areas, ?_, ?_, ?_, ?_, fun i hi => ?_, fun i _ => ?_⟩
      · rw [heq, startLog_self t rfl]
      · rw [heq]
        exact Nat.lt_succ_self _
      · rw [hheap]
        rfl
      · rw [hheap, ← hentries]
        exact entries_le_capacity hcount hpos' hne
      · rw [hlog] at hi
        exact absurd hi (Nat.not_lt_zero i)
      · rw [hheap]
        rfl
  · rw [hlog, htimes]
    exact ⟨rfl, by dsimp only; omega⟩
  · rw [hlog]
    exact nofun
  · rw [h.began] at ha
    cases ha
  · rw [h.began] at ha
    cases ha

/-- One event. -/
theorem TraceInv.step (h : TraceInv p n g) (h0 : 0 ≤ n) (hn : n < 2 ^ 28) {a : SmpEvent}
    (hpossible : Possible g.toSmp a) {g' : LogTrace} (hexec : traceExec p g a = .ok (g', ())) :
    TraceInv p n g' := by
  cases hx : g.toLogState.exec (.smp a) with
  | error e =>
    simp only [traceExec, hx] at hexec
    cases hexec
  | ok x =>
    simp only [traceExec, hx] at hexec
    obtain rfl := (Prod.mk.inj (Except.ok.inj hexec)).1
    cases a with
    | switchIn cpu t =>
      obtain ⟨m', hm', hx⟩ := bind_eq_ok.1 hx
      obtain rfl := Except.ok.inj hx
      by_cases ht : t = p
      · subst ht
        obtain ⟨m'', hm'', hinv⟩ := h.switchIn h0 hn hpossible.2
        rw [hm'] at hm''
        obtain rfl := Except.ok.inj hm''
        have hnote : g.note t (.switchIn cpu t) = (g.ended, some g.st.now) := if_pos rfl
        rw [hnote]
        exact hinv cpu
      · have hnote : g.note p (.switchIn cpu t) = (g.ended, g.began) := if_neg ht
        rw [hnote]
        have hframe := logSwitchIn_other h.single h.foreign ht hm'
        refine h.of_frame hframe fun c => ?_
        by_cases hc : c = cpu
        · subst hc
          rw [Function.update_self, hpossible.1]
          exact ⟨fun heq => absurd (Option.some.inj heq) ht, fun heq => absurd heq.symm (by simp)⟩
        · rw [Function.update_of_ne hc, hframe.curr]
    | switchOut cpu =>
      obtain ⟨t, ht⟩ := Option.isSome_iff_exists.1 hpossible
      simp only [LogState.exec, ht] at hx
      obtain ⟨m', hm', hx⟩ := bind_eq_ok.1 hx
      obtain rfl := Except.ok.inj hx
      by_cases htp : t = p
      · subst htp
        obtain ⟨m'', hm'', hinv⟩ := h.switchOut h0 hn ht
        rw [hm'] at hm''
        obtain rfl := Except.ok.inj hm''
        exact hinv
      · have hnot : g.curr cpu ≠ some p := by
          rw [ht]
          exact fun heq => htp (Option.some.inj heq)
        have hnote : g.note p (.switchOut cpu) = (g.ended, g.began) := if_neg hnot
        rw [hnote]
        have hframe := logSwitchOut_other h.single h.foreign htp hm'
        refine h.of_frame hframe fun c => ?_
        by_cases hc : c = cpu
        · subst hc
          rw [Function.update_self]
          exact ⟨fun heq => absurd heq.symm (by simp), fun heq => absurd heq hnot⟩
        · rw [Function.update_of_ne hc, hframe.curr]
    | pass d =>
      obtain rfl := Except.ok.inj hx
      exact h.of_frame (logFrame_after (a := .pass d) (by simp) (by simp)) fun _ => Iff.rfl
    | budgetExpiry t =>
      obtain rfl := Except.ok.inj hx
      exact h.of_frame (logFrame_after (a := .budgetExpiry t) (by simp) (by simp)) fun _ => Iff.rfl
    | periodExpiry t =>
      obtain rfl := Except.ok.inj hx
      exact h.of_frame (logFrame_after (a := .periodExpiry t) (by simp) (by simp)) fun _ => Iff.rfl

end TraceInv

/-- **Log contents.**  A log whose size is computed without overflow has, in every run of switches,
the start and the length of each slice, in order, up to its size. -/
theorem log_contents {p : Tid} {n : ℤ} {g : LogTrace} (h0 : 0 ≤ n) (hn : n < 2 ^ 28)
    (h : Reach (LogStarted p n) (fun g a => Possible g.toSmp a) (traceExec p) g) :
    LogHolds p n g := by
  have hinv : TraceInv p n g := by
    refine h.inv (I := TraceInv p n) (E := fun _ => True) (fun _ => traceInv_start h0 hn)
      fun g a hg hok => ?_
    refine sat_of_forall_ok fun x hx => ?_
    exact hg.step h0 hn hok hx
  refine ⟨?_, fun hpos => ?_, fun cpu hpossible => ?_, fun cpu hcpu => ?_⟩
  · cases hflag : (g.log p).isLogEnabled with
    | true =>
      obtain ⟨heq, hle⟩ := hinv.holds.enabled hflag
      rw [← heq, min_eq_right hle]
    | false =>
      obtain ⟨heq, hle⟩ := hinv.holds.complete hflag
      rw [heq, min_eq_left hle]
  · obtain ⟨b, hb, -, -, -, hcells, hblank⟩ := hinv.holds.buffer hpos
    exact ⟨b, hb, hcells, hblank⟩
  · obtain ⟨m', hm', -⟩ := hinv.switchIn h0 hn hpossible.2
    exact ⟨_, bind_eq_ok.2 ⟨m', hm', rfl⟩⟩
  · obtain ⟨m', hm', -⟩ := hinv.switchOut h0 hn hcpu
    simp only [LogState.exec, hcpu]
    exact ⟨_, bind_eq_ok.2 ⟨m', hm', rfl⟩⟩

theorem logStarted_boot {avail : ℕ} {n : ℤ} {x : LogState × ℤ}
    (hx : setLogging avail 1 2 n logBoot = .ok x) (hzero : x.2 = 0)
    (hoff : ∀ cpu, x.1.curr cpu = none) : LogStarted 1 n ⟨x.1, [], none⟩ := by
  refine ⟨fun c d hc => ?_, rfl, rfl, avail, 1, 2, logBoot, rfl, fun u => Iff.rfl, nofun, ?_⟩
  · have hc : x.1.curr c = some 1 := hc
    rw [hoff c] at hc
    cases hc
  · rw [hx, ← hzero]

/-- A slice of 7 ns, and a second one that has begun. -/
theorem log_contents_slice :
    ∃ g, Reach (LogStarted 1 1) (fun g a => Possible g.toSmp a) (traceExec 1) g ∧
      g.times = [0, 7, 10] ∧ LogHolds 1 1 g := by
  obtain ⟨x, hx, hzero, hoff, hrun⟩ : ∃ x, setLogging 4096 1 2 1 logBoot = .ok x ∧ x.2 = 0 ∧
      (∀ cpu, x.1.curr cpu = none) ∧
      (follow (fun g a => Possible g.toSmp a) (traceExec 1)
        [.switchIn 0 1, .pass 7, .switchOut 0, .pass 3, .switchIn 1 1] ⟨x.1, [], none⟩).any
          (fun g => decide (g.times = [0, 7, 10])) = true :=
    exists_ok_of_test (by decide)
  obtain ⟨g, hg, htimes⟩ := exists_some_of_test hrun
  have hreach := reach_of_follow (Reach.start (logStarted_boot hx hzero hoff)) hg
  exact ⟨g, hreach, htimes, log_contents (by decide) (by decide) hreach⟩

/-- For `2 ^ 28` data points the size is 0 in an `int`.  The call succeeds without a buffer, and the
first entry goes through the null pointer. -/
theorem log_contents_overflow :
    ¬ ∀ (p : Tid) (n : ℤ) (g : LogTrace), 0 ≤ n → n < 2 ^ 31 →
      Reach (LogStarted p n) (fun g a => Possible g.toSmp a) (traceExec p) g → LogHolds p n g := by
  intro hall
  obtain ⟨x, hx, hzero, hoff, hpossible, hoops⟩ : ∃ x, setLogging 4096 1 2 (2 ^ 28) logBoot = .ok x ∧
      x.2 = 0 ∧ (∀ cpu, x.1.curr cpu = none) ∧ Possible x.1.toSmp (.switchIn 0 1) ∧
      (x.1.exec (.smp (.switchIn 0 1))).test (fun _ => true) = false :=
    exists_ok_of_test (by decide)
  have hholds := hall 1 (2 ^ 28) _ (by decide) (by decide) (.start (logStarted_boot hx hzero hoff))
  obtain ⟨y, hy⟩ := hholds.switchIn 0 hpossible
  have hy : x.1.exec (.smp (.switchIn 0 1)) = .ok y := hy
  rw [hy] at hoops
  cases hoops

end RtSched
