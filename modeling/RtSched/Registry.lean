import RtSched.Admission

/-!
# The list of reservations (`kernel/sched.c`)

`check_admission`, `add_periodic_task` and `del_periodic_task`, and what the list means.

* `Kept s list`: `periodic_task_head` is a ring through the tasks `list`, `periodic_tasks_size` is
  their number, and they are sorted by period;
* `addPeriodicTask_kept`, `delPeriodicTask_kept`: on such a state the two functions are insertion
  behind the tasks of at most the new period, and removal;
* `delPeriodicTask_of_empty`: on an empty list a removal does nothing.
-/

namespace RtSched

open LinkRing TimeDemand

/-- The budget and the period of a task, as the admission test reads them. -/
def ctOf (s : KState) (t : Tid) : TaskCt where
  budget := convertToUsecs (s.task t).minBudgetTime
  period := convertToUsecs (s.task t).timePeriod

/-- An array of `size` entries filled from a list.  With any other number of tasks on the list the
code leaves the array or reads entries it never wrote; we end there as on a bad pointer. -/
def ctArray (s : KState) (size : ℕ) (list : List TaskCt) : Call KState (List TaskCt) :=
  if list.length = size then pure list else .error (.oops, s)

/-- `SCALE_UP_FACTOR`. -/
def scaleUpFactor : ℤ := 1000

/-- The array of the admission tests: the new task before the first of at least its period. -/
def insertCt (c : TaskCt) (list : List TaskCt) : List TaskCt :=
  list.orderedInsert (fun c d => c.period ≤ d.period) c

/-- `check_admission`. -/
def checkAdmission (fuel : ℕ) (budget period : Timespec) (s : KState) : Call KState Bool :=
  let budgetUs := convertToUsecs budget
  let periodUs := convertToUsecs period
  if s.periodicTasksSize = 0 then
    pure (decide ((budgetUs * scaleUpFactor).tdiv periodUs ≤ 1000))
  else do
    let tasks ← s.periodicTasks fuel
    let list ← ctArray s s.periodicTasksSize (tasks.map (ctOf s))
    Call.ofOption s (checkAdmissionList fuel (insertCt { budget := budgetUs, period := periodUs } list)
      (s.periodicTasksSize + 1))

/-- `add_periodic_task`. -/
def addPeriodicTask (fuel : ℕ) (new : Tid) (s : KState) : Call KState KState := do
  let s := if s.periodicTasksSize = 0 then { s with links := initListHead s.links .head } else s
  let s := { s with periodicTasksSize := s.periodicTasksSize + 1 }
  -- the search stops at the first longer period, so the task comes behind the equal ones
  let links ← Call.lift s (seekAdd s.links .head
    (fun n => decide (timespecCompare (s.task n.task).timePeriod (s.task new).timePeriod > 0))
    (.entry new) fuel)
  pure { s with links := links }

/-- `del_periodic_task`. -/
def delPeriodicTask (entry : Tid) (s : KState) : Call KState KState :=
  if s.periodicTasksSize > 0 then do
    -- whether the entry is on this list, or on any, is not checked
    let s := { s with periodicTasksSize := s.periodicTasksSize - 1 }
    let links ← Call.lift s (listDel (.entry entry) s.links)
    pure { s with links := links }
  else pure s

/-! ### Insertion by period -/

/-- `b` has a longer period than `a`. -/
def Longer (per : Tid → Timespec) (a b : Tid) : Prop := timespecCompare (per b) (per a) > 0

instance (per : Tid → Timespec) : DecidableRel (Longer per) :=
  fun a b => inferInstanceAs (Decidable (timespecCompare (per b) (per a) > 0))

/-- A list in the order of the periods. -/
def ByPeriod (per : Tid → Timespec) (list : List Tid) : Prop :=
  list.Pairwise fun a b => timespecCompare (per a) (per b) ≤ 0

/-- Insertion behind the tasks of at most the new period. -/
def insertByPeriod (per : Tid → Timespec) (new : Tid) (list : List Tid) : List Tid :=
  list.orderedInsert (Longer per) new

section Insert

variable {per per' : Tid → Timespec} {new t : Tid} {list : List Tid}

theorem insertByPeriod_eq (per : Tid → Timespec) (new : Tid) (list : List Tid) :
    insertByPeriod per new list =
      list.takeWhile (fun b => !decide (Longer per new b)) ++
        new :: list.dropWhile fun b => !decide (Longer per new b) := by
  rw [insertByPeriod, List.orderedInsert_eq_take_drop]
  simp

theorem insertByPeriod_perm : (insertByPeriod per new list).Perm (new :: list) :=
  List.perm_orderedInsert _ _ _

@[simp] theorem mem_insertByPeriod : t ∈ insertByPeriod per new list ↔ t = new ∨ t ∈ list :=
  List.mem_orderedInsert _

@[simp] theorem length_insertByPeriod : (insertByPeriod per new list).length = list.length + 1 := by
  rw [insertByPeriod_perm.length_eq, List.length_cons]

theorem byPeriod_insert (h : ByPeriod per list) : ByPeriod per (insertByPeriod per new list) := by
  induction list with
  | nil => exact List.pairwise_singleton _ _
  | cons b list ih =>
    obtain ⟨hb, hlist⟩ := List.pairwise_cons.1 h
    rw [insertByPeriod, List.orderedInsert_cons]
    split_ifs with hl
    · have hle : timespecCompare (per new) (per b) ≤ 0 :=
        le_of_lt (timespecCompare_neg_symm.2 hl)
      refine List.pairwise_cons.2 ⟨fun c hc => ?_, h⟩
      rcases List.mem_cons.1 hc with rfl | hc
      · exact hle
      · exact timespecCompare_le_trans hle (hb c hc)
    · refine List.pairwise_cons.2 ⟨fun c hc => ?_, ih hlist⟩
      rcases mem_insertByPeriod.1 hc with rfl | hc
      · exact not_lt.1 hl
      · exact hb c hc

theorem ByPeriod.erase (h : ByPeriod per list) : ByPeriod per (list.erase t) :=
  List.Pairwise.sublist List.erase_sublist h

theorem ByPeriod.congr (h : ByPeriod per list) (hper : ∀ t ∈ list, per' t = per t) :
    ByPeriod per' list := by
  refine List.Pairwise.imp_of_mem (fun {a b} ha hb hab => ?_) h
  rw [hper a ha, hper b hb]
  exact hab

end Insert

/-! ### What the list means -/

/-- The periods of the tasks. -/
def KState.periods (s : KState) (t : Tid) : Timespec := (s.task t).timePeriod

/-- The tasks on `periodic_task_head`, which is null until the first reservation. -/
def OnList (s : KState) (list : List Tid) : Prop :=
  Traverses s.links .head (list.map .entry) ∨ list = [] ∧ (s.links .head).next = .null

instance (s : KState) (list : List Tid) : Decidable (OnList s list) := by
  unfold OnList
  infer_instance

/-- The global list is well formed and holds `list`. -/
structure Kept (s : KState) (list : List Tid) : Prop where
  ring : IsRing s.links .head (list.map .entry) ∨ list = [] ∧ (s.links .head).next = .null
  size : s.periodicTasksSize = list.length
  sorted : ByPeriod s.periods list

instance (s : KState) (list : List Tid) : Decidable (Kept s list) :=
  decidable_of_iff
    ((IsRing s.links .head (list.map .entry) ∨ list = [] ∧ (s.links .head).next = .null) ∧
      s.periodicTasksSize = list.length ∧
      list.Pairwise fun a b => timespecCompare (s.periods a) (s.periods b) ≤ 0)
    ⟨fun ⟨h1, h2, h3⟩ => ⟨h1, h2, h3⟩, fun ⟨h1, h2, h3⟩ => ⟨h1, h2, h3⟩⟩

section Kept

variable {s s' : KState} {list list' : List Tid} {t new : Tid}

theorem OnList.unique (h : OnList s list) (h' : OnList s list') : list = list' := by
  rcases h with h | ⟨rfl, hn⟩ <;> rcases h' with h' | ⟨rfl, hn'⟩
  · exact List.map_injective_iff.2 (fun a b hab => RtNode.entry.inj hab) (h.unique h')
  · exact absurd hn' h.next_ne_null
  · exact absurd hn h'.next_ne_null
  · rfl

theorem Kept.onList (h : Kept s list) : OnList s list := h.ring.imp IsRing.traverses id

theorem Kept.isRing (h : Kept s list) (hne : list ≠ []) :
    IsRing s.links .head (list.map .entry) := by
  rcases h.ring with hr | ⟨rfl, -⟩
  · exact hr
  · exact absurd rfl hne

theorem Kept.nodup (h : Kept s list) : list.Nodup := by
  rcases h.ring with hr | ⟨rfl, -⟩
  · exact List.Nodup.of_map _ hr.nodup
  · exact List.nodup_nil

/-- What is left on the list after a removal is not what was removed. -/
theorem Kept.ne_of_mem_erase {t u : Tid} (h : Kept s list) (hu : u ∈ list.erase t) : u ≠ t := by
  rintro rfl
  exact List.Nodup.not_mem_erase h.nodup hu

theorem Kept.congr (h : Kept s list) (hlinks : s'.links = s.links)
    (hsize : s'.periodicTasksSize = s.periodicTasksSize)
    (hper : ∀ t ∈ list, s'.periods t = s.periods t) : Kept s' list := by
  refine ⟨?_, hsize.trans h.size, h.sorted.congr hper⟩
  rw [hlinks]
  exact h.ring

theorem Kept.of_registry (h : Kept s list) (hr : s'.registry = s.registry) : Kept s' list :=
  h.congr (registry_links hr) (registry_size hr) fun t _ => (registry_task hr t).timePeriod

theorem kept_booted (h : Booted s) : Kept s [] :=
  ⟨Or.inr ⟨rfl, by rw [h.links]⟩, h.size, List.Pairwise.nil⟩

theorem Kept.eq_nil (h : Kept s list) (h0 : s.periodicTasksSize = 0) : list = [] := by
  rw [h.size] at h0
  exact List.eq_nil_of_length_eq_zero h0

/-- Reading the list yields its tasks, or does not come back; a null head is fatal. -/
theorem Kept.periodicTasks_sat (h : Kept s list) (fuel : ℕ) :
    Call.Sat (fun l => l = list) (fun s' => s' = s ∧ list = []) (s.periodicTasks fuel) := by
  rcases h.ring with hr | ⟨rfl, hn⟩
  · rw [s.periodicTasks_eq hr.traverses]
    exact Call.sat_ite (fun _ => rfl) (fun _ => trivial)
  · rw [KState.periodicTasks, walk, hn]
    cases fuel with
    | zero => trivial
    | succ fuel => exact ⟨rfl, rfl⟩

theorem Kept.periodicTasks_eq (h : Kept s list) (hne : list ≠ []) {fuel : ℕ}
    (hfuel : list.length < fuel) : s.periodicTasks fuel = .ok list := by
  have hr := h.ring.resolve_right fun hnil => hne hnil.1
  rw [s.periodicTasks_eq hr.traverses, if_pos hfuel]

/-- Insertion puts the task behind those of at most its period, and touches nothing else; it comes
back if there are turns for the whole list. -/
theorem addPeriodicTask_cases (h : Kept s list) (hnew : new ∉ list) (fuel : ℕ) :
    (∃ links', addPeriodicTask fuel new s =
        .ok { s with periodicTasksSize := s.periodicTasksSize + 1, links := links' } ∧
      Kept { s with periodicTasksSize := s.periodicTasksSize + 1, links := links' }
        (insertByPeriod s.periods new list)) ∨
    fuel ≤ list.length ∧ ∃ s', addPeriodicTask fuel new s = .error (.spins, s') := by
  -- the ring the task is inserted into: an empty list is initialised first
  set links₀ := if s.periodicTasksSize = 0 then initListHead s.links .head else s.links with hlinks₀
  have hring : IsRing links₀ .head (list.map .entry) := by
    by_cases h0 : s.periodicTasksSize = 0
    · rw [hlinks₀, if_pos h0, h.eq_nil h0]
      exact isRing_init _ _
    · rw [hlinks₀, if_neg h0]
      refine h.isRing ?_
      rintro rfl
      exact h0 h.size
  have hdef : addPeriodicTask fuel new s =
      (Call.lift { s with periodicTasksSize := s.periodicTasksSize + 1, links := links₀ }
        (seekAdd links₀ .head (fun n => decide (Longer s.periods new n.task)) (.entry new) fuel) >>=
      fun links => pure { s with periodicTasksSize := s.periodicTasksSize + 1, links := links }) := by
    rw [hlinks₀, addPeriodicTask]
    split_ifs <;> rfl
  have hentry : RtNode.entry new ∉ .head :: list.map RtNode.entry := by simpa using hnew
  rw [hdef]
  rcases seekAdd_ring hring hentry
    (fun n => decide (Longer s.periods new n.task)) fuel with ⟨links', hadd, hring', -⟩ | ⟨hf, hspin⟩
  · refine Or.inl ⟨links', ?_, Or.inl ?_, ?_, byPeriod_insert h.sorted⟩
    · rw [hadd]
      rfl
    · rw [insertByPeriod_eq, List.map_append, List.map_cons]
      rwa [List.takeWhile_map, List.dropWhile_map] at hring'
    · rw [length_insertByPeriod, ← h.size]
  · rw [List.length_map] at hf
    rw [hspin]
    exact Or.inr ⟨hf, _, rfl⟩

theorem addPeriodicTask_kept (h : Kept s list) (hnew : new ∉ list) (fuel : ℕ) :
    Call.Sat (fun s' => Kept s' (insertByPeriod s.periods new list) ∧
      ∃ links', s' = { s with periodicTasksSize := s.periodicTasksSize + 1, links := links' })
      (fun _ => False) (addPeriodicTask fuel new s) := by
  rcases addPeriodicTask_cases h hnew fuel with ⟨links', hadd, hk⟩ | ⟨-, _, hspin⟩
  · rw [hadd]
    exact ⟨hk, links', rfl⟩
  · rw [hspin]
    trivial

/-- Removal takes a listed task off.  Its own period may have been overwritten before. -/
theorem delPeriodicTask_kept (hring : IsRing s.links .head (list.map .entry))
    (hsize : s.periodicTasksSize = list.length) (hsorted : ByPeriod s.periods (list.erase t))
    (ht : t ∈ list) :
    ∃ links', delPeriodicTask t s =
        .ok { s with periodicTasksSize := s.periodicTasksSize - 1, links := links' } ∧
      Kept { s with periodicTasksSize := s.periodicTasksSize - 1, links := links' }
        (list.erase t) := by
  obtain ⟨l, r, -, hlist, herase⟩ := List.exists_erase_eq ht
  rw [hlist, List.map_append, List.map_cons] at hring
  obtain ⟨links', hdel, hring', -⟩ := listDel_ring hring
  have hpos : s.periodicTasksSize > 0 := by
    rw [hsize]
    exact List.length_pos_of_mem ht
  refine ⟨links', ?_, Or.inl ?_, ?_, hsorted⟩
  · simp only [delPeriodicTask, if_pos hpos, hdel]
    rfl
  · rwa [herase, List.map_append]
  · rw [List.length_erase_of_mem ht, ← hsize]

theorem delPeriodicTask_of_empty (h : s.periodicTasksSize = 0) : delPeriodicTask t s = .ok s := by
  rw [delPeriodicTask, h]
  rfl

end Kept

end RtSched
