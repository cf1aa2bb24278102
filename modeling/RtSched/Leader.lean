import RtSched.Effect

/-!
# Reservations of processes

Without bin packing, and when reservations are made for processes (by the pid of the group leader),
the flag of a leader and its place on the global list go together: `LeaderInv s list`.  The lemmas
below carry this over the list part of each call; the part that sets priorities and clock keeps it
because it is quiet.
-/

namespace RtSched

open Call

variable {e : Env} {s s' : KState} {list : List Tid} {t u : Tid}

/-- The task holds a reservation. -/
def Holds (s : KState) (t : Tid) : Prop := ∃ list, OnList s list ∧ t ∈ list

theorem Kept.mem_of_holds (h : Kept s list) (ht : Holds s t) : t ∈ list := by
  obtain ⟨l, hl, ht⟩ := ht
  rwa [hl.unique h.onList] at ht

/-- The list holds exactly the leaders with the flag. -/
structure LeaderInv (s : KState) (list : List Tid) : Prop where
  kept : Kept s list
  binOff : s.isBinPackingSet = false
  leader : ∀ t ∈ list, (s.task t).tgid = t
  flag : ∀ t, (s.task t).tgid = t → ((s.task t).isBudgetSet = true ↔ t ∈ list)

theorem leaderInv_booted (h : Booted s) : LeaderInv s [] := by
  refine ⟨kept_booted h, h.binOff, by simp, fun t _ => ?_⟩
  rw [h.flag t]
  simp

theorem LeaderInv.of_quiet (h : LeaderInv s list) (hq : Quiet s s') : LeaderInv s' list := by
  have htgid : ∀ t, (s'.task t).tgid = (s.task t).tgid := fun t =>
    congrArg TaskReg.tgid (registry_task hq.registry t)
  have hflag : ∀ t, (s'.task t).isBudgetSet = (s.task t).isBudgetSet := fun t =>
    congrArg TaskReg.isBudgetSet (registry_task hq.registry t)
  refine ⟨h.kept.of_quiet hq, (registry_bin hq.registry).trans h.binOff, fun t ht => ?_,
    fun t ht => ?_⟩
  · rw [htgid]
    exact h.leader t ht
  · rw [hflag]
    exact h.flag t ((htgid t).symm.trans ht)

/-- For a process the flag and the list agree, as `sys_setProcessBudget` relies on. -/
theorem LeaderInv.setOk (h : LeaderInv s list) (ht : (s.task t).tgid = t) : SetOk s list t :=
  ⟨(h.flag t ht).2, fun hf => Or.inl ((h.flag t ht).1 hf)⟩

/-- Two leaders of one group are the same task. -/
theorem eq_of_mem_threads (hu : (s.task u).tgid = u) (ht : (s.task t).tgid = t)
    (hut : u ∈ s.threads t) : u = t := by
  rw [← hu, ← ht]
  exact s.tgid_of_mem_threads hut

section Reserved

variable {b p : Timespec}

theorem Reserved.tgid (h : Reserved t b p s s') (u : Tid) : (s'.task u).tgid = (s.task u).tgid :=
  congrArg TaskReg.tgid (h.reg u)

theorem Reserved.periods (h : Reserved t b p s s') :
    s'.periods = Function.update s.periods t p := by
  funext u
  rw [KState.periods, h.timePeriod, Function.update_apply]
  rfl

theorem Reserved.flag (h : Reserved t b p s s') (hoff : s.isBinPackingSet = false) (u : Tid) :
    (s'.task u).isBudgetSet = true ↔ (s.task u).isBudgetSet = true ∨ u ∈ s.threads t := by
  have := congrArg TaskReg.isBudgetSet (h.reg u)
  simp only [TaskStruct.reg, hoff] at this
  rw [this]
  simp

theorem mem_reservedList : u ∈ reservedList s t p list ↔ u = t ∨ u ∈ list.erase t :=
  mem_insertByPeriod

theorem LeaderInv.reserved (h : LeaderInv s list) (ht : (s.task t).tgid = t)
    (hk : Kept s' (reservedList s t p list)) (hr : Reserved t b p s s') :
    LeaderInv s' (reservedList s t p list) := by
  refine ⟨hk, hr.step.bin.trans h.binOff, fun u hu => ?_, fun u hu => ?_⟩
  · rw [hr.tgid]
    rcases mem_reservedList.1 hu with rfl | hu
    · exact ht
    · exact h.leader u (List.mem_of_mem_erase hu)
  · rw [hr.tgid] at hu
    rw [hr.flag h.binOff, h.flag u hu, mem_reservedList]
    constructor
    · rintro (hmem | hmem)
      · by_cases hut : u = t
        · exact Or.inl hut
        · exact Or.inr ((List.mem_erase_of_ne hut).2 hmem)
      · exact Or.inl (eq_of_mem_threads hu ht hmem)
    · rintro (rfl | hmem)
      · exact Or.inr (s.self_mem_threads u)
      · exact Or.inl (List.mem_of_mem_erase hmem)

end Reserved

section Removed

/-- The flag of a task outside a group survives what clears the group's. -/
theorem flag_and_iff (s : KState) (t u : Tid) :
    ((s.task u).isBudgetSet && !decide (u ∈ s.threads t)) = true ↔
      (s.task u).isBudgetSet = true ∧ u ∉ s.threads t := by simp

/-- What a removal needs to know of the new state. -/
theorem LeaderInv.removed (h : LeaderInv s list) (hok : t ∈ list ∨ list = [])
    (hk : Kept s' (list.erase t)) (hbin : s'.isBinPackingSet = s.isBinPackingSet)
    (htgid : ∀ u, (s'.task u).tgid = (s.task u).tgid)
    (hflag : ∀ u, (s'.task u).isBudgetSet =
      ((s.task u).isBudgetSet && !decide (u ∈ s.threads t))) : LeaderInv s' (list.erase t) := by
  refine ⟨hk, hbin.trans h.binOff, fun u hu => ?_, fun u hu => ?_⟩
  · rw [htgid]
    exact h.leader u (List.mem_of_mem_erase hu)
  · rw [htgid] at hu
    rw [hflag, flag_and_iff, h.flag u hu, h.kept.nodup.mem_erase_iff]
    constructor
    · rintro ⟨hmem, hout⟩
      refine ⟨?_, hmem⟩
      rintro rfl
      exact hout (s.self_mem_threads u)
    · rintro ⟨hne, hmem⟩
      refine ⟨hmem, fun hthr => hne ?_⟩
      rcases hok with ht | rfl
      · exact eq_of_mem_threads hu (h.leader t ht) hthr
      · cases hmem

theorem LeaderInv.unreserved (h : LeaderInv s list) (hok : t ∈ list ∨ list = [])
    (hk : Kept s' (list.erase t)) (hu : Unreserved t s s') : LeaderInv s' (list.erase t) :=
  h.removed hok hk hu.step.bin (fun u => congrArg TaskReg.tgid (hu.reg u))
    fun u => congrArg TaskReg.isBudgetSet (hu.reg u)

theorem LeaderInv.dropped (h : LeaderInv s list) (hok : t ∈ list ∨ list = [])
    (hk : Kept s' (list.erase t)) (hd : Dropped t s s') : LeaderInv s' (list.erase t) :=
  h.removed hok hk hd.step.bin (fun u => congrArg TaskReg.tgid (hd.reg u))
    fun u => congrArg TaskReg.isBudgetSet (hd.reg u)

end Removed

theorem LeaderInv.finishExit (h : LeaderInv s list) (t : Tid) (autoreap : Bool) :
    LeaderInv (finishExit t autoreap s) list := by
  have he := ended_finishExit t autoreap s
  refine ⟨he.kept h.kept, he.bin.trans h.binOff, fun u hu => ?_, fun u hu => ?_⟩
  · obtain ⟨_, _, hf⟩ := finishExit_task t u autoreap s
    rw [hf]
    exact h.leader u hu
  · obtain ⟨_, _, hf⟩ := finishExit_task t u autoreap s
    rw [hf] at hu ⊢
    exact h.flag u hu

/-- A thread that is not a leader takes nothing but its own flag with it. -/
theorem LeaderInv.exit_thread (h : LeaderInv s list) (ht : t ≠ (s.task t).tgid) :
    LeaderInv (s.modifyTask t fun p => { p with isBudgetSet := false }) list := by
  have hother : ∀ u, (s.task u).tgid = u →
      (s.modifyTask t fun p => { p with isBudgetSet := false }).task u = s.task u := by
    intro u hu
    rw [KState.modifyTask_task, if_neg]
    rintro rfl
    exact ht hu.symm
  have htgid : ∀ u, ((s.modifyTask t fun p => { p with isBudgetSet := false }).task u).tgid =
      (s.task u).tgid := by
    intro u
    rw [KState.modifyTask_task]
    split_ifs <;> rfl
  refine ⟨(ended_clearFlag t s).kept h.kept, h.binOff, fun u hu => ?_, fun u hu => ?_⟩
  · rw [htgid]
    exact h.leader u hu
  · rw [htgid] at hu
    rw [hother u hu]
    exact h.flag u hu

/-- A reservation is accepted for positive periods only. -/
theorem period_pos {budget : ℕ} {p : Timespec}
    (h : timespecCompare (taskBudgetOf e budget) p < 0) : 0 < timespecCompare p ⟨0, 0⟩ := by
  have hb : (taskBudgetOf e budget).Normalised := nsToTimespec_normalised (by positivity)
  have h0 : (⟨0, 0⟩ : Timespec).Normalised := by decide
  have hle : timespecCompare ⟨0, 0⟩ (taskBudgetOf e budget) ≤ 0 := by
    rw [timespecCompare_le_iff_ns h0 hb, taskBudgetOf, timespecToNs_nsToTimespec]
    simp only [timespecToNs]
    positivity
  rw [timespecCompare_le_iff] at hle
  rw [timespecCompare_neg_iff] at h
  rw [timespecCompare_pos_iff]
  simp only at *
  omega

/-! ### One call

The rules below take a call apart as far as the list is concerned.  What is left to show is about
the state `s₁` with the new list, and the state `s'` once priorities and clock have followed. -/

section Rules

variable {Q : KState → Prop}

theorem setProcessBudget_leader (h : LeaderInv s list) {pid : ℤ} {budget : ℕ} {p : Timespec}
    (hlead : ∀ t ∈ s.findTaskByVpid pid, (s.task t).tgid = t) (hsame : Q s)
    (hrun : ∀ t ∈ s.findTaskByVpid pid, timespecCompare (taskBudgetOf e budget) p < 0 →
      Admitted s list (taskBudgetOf e budget) p → ∀ s₁ s',
      LeaderInv s₁ (reservedList s t p list) → Reserved t (taskBudgetOf e budget) p s s₁ →
      Launched e t (reservedList s t p list) s₁ s' → Q s') :
    Sat (fun x => Q x.1) (fun _ => True) (setProcessBudget e pid budget p s) := by
  refine setProcessBudget_rule h.kept hsame fun t ht hlt hadm => ?_
  refine (setReservation_off h.kept (h.setOk (hlead t ht)) h.binOff budget _ p).mono ?_
    fun _ _ => trivial
  rintro s' ⟨s₁, hk, hr, hl⟩
  exact hrun t ht hlt (hadm h.binOff) s₁ s' (h.reserved (hlead t ht) hk hr) hr hl

theorem cancelBudget_leader (h : LeaderInv s list) {pid : ℤ}
    (hmem : ∀ t ∈ s.findTaskByVpid pid, t ∈ list ∨ list = []) (hsame : Q s)
    (hrun : ∀ t ∈ s.findTaskByVpid pid, ∀ s₁ s', LeaderInv s₁ (list.erase t) → Unreserved t s s₁ →
      TaskUpdate ClockOnly (numberTasks s₁ (list.erase t)) s' →
      (∃ f, ∀ u ∈ list.erase t, (s'.task u).budgetTime =
        updatedBudget e.maxFreq f (s'.task u).minBudgetTime) →
      (s.powerScheme = .sysClock → SysCoherent e s' (list.erase t)) → Q s') :
    Sat (fun x => Q x.1) (fun _ => True) (cancelBudget e pid s) := by
  refine cancelBudget_rule hsame fun t ht => ?_
  refine (cancelReservation_off h.kept (hmem t ht) h.binOff).mono ?_ fun _ _ => trivial
  rintro s' ⟨s₁, hk, hu, hup, hf, hsys⟩
  exact hrun t ht s₁ s' (h.unreserved (hmem t ht) hk hu) hu hup hf hsys

theorem doExit_leader (h : LeaderInv s list) {autoreap : Bool}
    (hplain : (s.task t).isBudgetSet = false → Q (RtSched.finishExit t autoreap s))
    (hthread : t ≠ (s.task t).tgid → Q (RtSched.finishExit t autoreap
      (s.modifyTask t fun p => { p with isBudgetSet := false })))
    (hrun : t ∈ list → ∀ s₁ s', LeaderInv s₁ (list.erase t) → Dropped t s s₁ →
      TaskUpdate ClockOnly (numberTasks s₁ (list.erase t)) s' →
      (s.powerScheme = .sysClock → SysCoherent e s' (list.erase t)) →
      (s.powerScheme ≠ .sysClock → ∀ u, (s'.task u).budgetTime = (s.task u).budgetTime) →
      Q (RtSched.finishExit t autoreap s')) :
    Sat (fun x => Q x.1) (fun _ => True) (doExit e t autoreap s) := by
  refine doExit_rule (fun hflag => ?_) hplain
  by_cases hlead : t = (s.task t).tgid
  · have hmem := (h.flag t hlead.symm).1 hflag
    refine (exitReservation_off h.kept (Or.inl hmem) h.binOff hlead).mono ?_ fun _ _ => trivial
    rintro s' ⟨s₁, hk, hd, hup, hsys, hbud⟩
    exact hrun hmem s₁ s' (h.dropped (Or.inl hmem) hk hd) hd hup hsys hbud
  · rw [exitReservation, if_neg hlead]
    exact hthread hlead

end Rules

end RtSched
