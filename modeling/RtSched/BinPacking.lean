import RtSched.Registry

/-!
# Per-CPU lists and bin packing (`kernel/sched.c`)

`add_task_to_cpu`, `del_task_cpu`, `clear_cpu_lists`, the per-CPU admission test and the five
packing schemes of `bin_packing`.

* `CpuKept s cl`: CPU `c` has the tasks `cl c` on its list, and no task is on two of them;
* `addTaskToCpu_kept`, `delTaskCpu_kept`, `clearCpuLists_kept`;
* `binPacking_sat`: from a state where no listed task is on a per-CPU list, packing only adds tasks
  of the global list, each to one CPU.
-/

namespace RtSched

open LinkRing

/-- `MAX_CPU`. -/
def maxCpu : ℕ := 4

/-- `add_task_to_cpu`. -/
def addTaskToCpu (fuel : ℕ) (new : Tid) (cpu : ℕ) (s : KState) : Call KState KState := do
  let s := if s.perCpuListSize cpu = 0 then
    { s with cpuLinks := initListHead s.cpuLinks (.head cpu) } else s
  let s := { s with
    perCpuListSize := Function.update s.perCpuListSize cpu (s.perCpuListSize cpu + 1) }
  let links ← Call.lift s (seekAdd s.cpuLinks (.head cpu)
    (fun n => decide (timespecCompare (s.task n.task).timePeriod (s.task new).timePeriod > 0))
    (.entry new) fuel)
  pure { s with cpuLinks := links }

/-- `del_task_cpu`. -/
def delTaskCpu (entry : Tid) (cpu : ℕ) (s : KState) : Call KState KState :=
  if s.perCpuListSize cpu > 0 then do
    let s := { s with
      perCpuListSize := Function.update s.perCpuListSize cpu (s.perCpuListSize cpu - 1) }
    let links ← Call.lift s (listDel (.entry entry) s.cpuLinks)
    pure { s with cpuLinks := links }
  else pure s

/-- `clear_cpu_lists` for one CPU. -/
def clearCpuList (fuel : ℕ) (s : KState) (cpu : ℕ) : Call KState KState := do
  let links ← if s.perCpuListSize cpu > 0 then
      Call.lift s (clear s.cpuLinks (.head cpu) fuel)
    else pure s.cpuLinks
  pure { s with
    cpuLinks := links
    perCpuListSize := Function.update s.perCpuListSize cpu 0
    cpuUtil := Function.update s.cpuUtil cpu 1000 }

/-- `clear_cpu_lists`. -/
def clearCpuLists (fuel : ℕ) (s : KState) : Call KState KState :=
  (List.range maxCpu).foldlM (clearCpuList fuel) s

/-- The budget and the period of a task, as the per-CPU admission test reads them. -/
def cpuCtOf (s : KState) (t : Tid) : TaskCt where
  budget := convertToUsecs (s.task t).budgetTime
  period := convertToUsecs (s.task t).timePeriod

/-- `check_admission_per_cpu`. -/
def checkAdmissionPerCpu (fuel : ℕ) (budget period : ℤ) (cpu : ℕ) (s : KState) :
    Call KState Bool :=
  let size := s.perCpuListSize cpu
  if size = 0 then pure (decide ((budget * scaleUpFactor).tdiv period ≤ 1000))
  else do
    let tasks ← s.perCpuTasks fuel cpu
    let list ← ctArray s size (tasks.map (cpuCtOf s))
    Call.ofOption s (checkAdmissionList fuel (insertCt { budget := budget, period := period } list)
      (size + 1))

/-! ### Sorting -/

section Bubble

variable {α : Type}

/-- The first `k` comparisons of a pass of a bubble sort, and whether anything was swapped. -/
def bubblePass (swap : α → α → Bool) : ℕ → List α → List α × Bool
  | k + 1, a :: b :: l =>
      if swap a b then (b :: (bubblePass swap k (a :: l)).1, true)
      else (a :: (bubblePass swap k (b :: l)).1, (bubblePass swap k (b :: l)).2)
  | _, l => (l, false)

/-- At most `n` passes, the first with one comparison less than `k`; a pass without a swap is the
last. -/
def bubbleFrom (swap : α → α → Bool) : ℕ → ℕ → List α → List α
  | 0, _, l => l
  | n + 1, k, l =>
      if (bubblePass swap (k - 1) l).2 then bubbleFrom swap n (k - 1) (bubblePass swap (k - 1) l).1
      else (bubblePass swap (k - 1) l).1

/-- A bubble sort of the whole array; `swap a b` says that `a` may not stand before `b`. -/
def bubbleSort (swap : α → α → Bool) (l : List α) : List α := bubbleFrom swap l.length l.length l

theorem bubblePass_perm (swap : α → α → Bool) (k : ℕ) (l : List α) :
    (bubblePass swap k l).1.Perm l := by
  induction k generalizing l with
  | zero => simp [bubblePass]
  | succ k ih =>
    match l with
    | [] => simp [bubblePass]
    | [a] => simp [bubblePass]
    | a :: b :: l =>
      rw [bubblePass]
      split_ifs
      · exact ((ih (a :: l)).cons b).trans (List.Perm.swap a b l)
      · exact (ih (b :: l)).cons a

theorem bubbleSort_perm (swap : α → α → Bool) (l : List α) : (bubbleSort swap l).Perm l := by
  have hfrom : ∀ n k (l : List α), (bubbleFrom swap n k l).Perm l := by
    intro n
    induction n with
    | zero => exact fun k l => List.Perm.refl l
    | succ n ih =>
      intro k l
      rw [bubbleFrom]
      split_ifs
      · exact (ih _ _).trans (bubblePass_perm swap _ l)
      · exact bubblePass_perm swap _ l
  exact hfrom _ _ l

/-- A pass keeps the order within a class whose members are never swapped with each other. -/
theorem bubblePass_filter {swap : α → α → Bool} {p : α → Bool}
    (hp : ∀ a b, p a = true → p b = true → swap a b = false) (k : ℕ) (l : List α) :
    (bubblePass swap k l).1.filter p = l.filter p := by
  induction k generalizing l with
  | zero => simp [bubblePass]
  | succ k ih =>
    match l with
    | [] => simp [bubblePass]
    | [a] => simp [bubblePass]
    | a :: b :: l =>
      rw [bubblePass]
      split_ifs with hswap
      · -- at most one of the two is in the class
        have hnot : ¬ (p a = true ∧ p b = true) := by
          rintro ⟨ha, hb⟩
          rw [hp a b ha hb] at hswap
          exact Bool.false_ne_true hswap
        simp only [List.filter_cons, ih]
        split_ifs <;> simp_all
      · simp only [List.filter_cons, ih]

/-- The sort is stable. -/
theorem bubbleSort_filter {swap : α → α → Bool} {p : α → Bool}
    (hp : ∀ a b, p a = true → p b = true → swap a b = false) (l : List α) :
    (bubbleSort swap l).filter p = l.filter p := by
  have hfrom : ∀ n k (l : List α), (bubbleFrom swap n k l).filter p = l.filter p := by
    intro n
    induction n with
    | zero => exact fun k l => rfl
    | succ n ih =>
      intro k l
      rw [bubbleFrom]
      split_ifs
      · rw [ih, bubblePass_filter hp]
      · exact bubblePass_filter hp _ l
  exact hfrom _ _ l

section Sorted

variable {swap : α → α → Bool} {k : ℕ} {u v : List α}

/-- What stands behind the compared part stays where it is. -/
theorem bubblePass_append (hu : k + 1 ≤ u.length) (v : List α) :
    bubblePass swap k (u ++ v) = ((bubblePass swap k u).1 ++ v, (bubblePass swap k u).2) := by
  induction k generalizing u with
  | zero => cases u <;> rfl
  | succ k ih =>
    match u, hu with
    | a :: b :: u, hu =>
      have hlen : k + 1 ≤ (b :: u).length := by simpa using hu
      have hlen' : k + 1 ≤ (a :: u).length := hlen
      have ha := ih hlen'
      have hb := ih hlen
      rw [List.cons_append] at ha hb
      simp only [List.cons_append, bubblePass, ha, hb]
      split_ifs <;> rfl

/-- Without a swap the compared part was in order. -/
theorem bubblePass_unswapped (hu : u.length = k + 1) (h : (bubblePass swap k u).2 = false) :
    (bubblePass swap k u).1 = u ∧ u.IsChain fun a b => swap a b = false := by
  induction k generalizing u with
  | zero =>
    obtain ⟨a, rfl⟩ := List.length_eq_one_iff.1 hu
    exact ⟨rfl, List.isChain_singleton a⟩
  | succ k ih =>
    match u, hu with
    | a :: b :: u, hu =>
      rw [bubblePass] at h ⊢
      split_ifs at h ⊢ with hswap
      have hlen : (b :: u).length = k + 1 := by simpa using hu
      obtain ⟨heq, hchain⟩ := ih hlen h
      refine ⟨?_, List.isChain_cons_cons.2 ⟨by simpa using hswap, hchain⟩⟩
      show a :: (bubblePass swap k (b :: u)).1 = a :: b :: u
      rw [heq]

/-- A pass brings an element to the end of the compared part that may stand behind all others. -/
theorem bubblePass_last (htotal : ∀ a b, swap a b = true → swap b a = false)
    (htrans : ∀ a b c, swap a b = false → swap b c = false → swap a c = false)
    (hu : u.length = k + 1) :
    ∃ w a, (bubblePass swap k u).1 = w ++ [a] ∧ w.length = k ∧ ∀ b ∈ w, swap b a = false := by
  induction k generalizing u with
  | zero =>
    obtain ⟨a, rfl⟩ := List.length_eq_one_iff.1 hu
    exact ⟨[], a, rfl, rfl, by simp⟩
  | succ k ih =>
    match u, hu with
    | a :: b :: u, hu =>
      -- the smaller of the first two goes in front, and the pass goes on with the other
      obtain ⟨x, y, hxy, hpass⟩ : ∃ x y, swap x y = false ∧
          (bubblePass swap (k + 1) (a :: b :: u)).1 = x :: (bubblePass swap k (y :: u)).1 := by
        rw [bubblePass]
        split_ifs with hswap
        · exact ⟨b, a, htotal a b hswap, rfl⟩
        · exact ⟨a, b, by simpa using hswap, rfl⟩
      have hlen : (y :: u).length = k + 1 := by simpa using hu
      obtain ⟨w, z, hw, hwlen, hlast⟩ := ih hlen
      refine ⟨x :: w, z, by rw [hpass, hw, List.cons_append], by simp [hwlen], ?_⟩
      intro c hc
      rcases List.mem_cons.1 hc with rfl | hc
      · -- `y` is in what the pass went on with, so it may stand before the last
        have hy : y ∈ w ++ [z] := by
          rw [← hw, (bubblePass_perm swap k (y :: u)).mem_iff]
          exact List.mem_cons_self
        rcases List.mem_append.1 hy with hy | hy
        · exact htrans _ y z hxy (hlast y hy)
        · rwa [← List.mem_singleton.1 hy]
      · exact hlast c hc

theorem bubbleFrom_sorted (htotal : ∀ a b, swap a b = true → swap b a = false)
    (htrans : ∀ a b c, swap a b = false → swap b c = false → swap a c = false)
    (hu : u.length = k) (hv : v.Pairwise fun a b => swap a b = false)
    (huv : ∀ a ∈ u, ∀ b ∈ v, swap a b = false) :
    (bubbleFrom swap k k (u ++ v)).Pairwise fun a b => swap a b = false := by
  induction k generalizing u v with
  | zero =>
    rw [List.length_eq_zero_iff.1 hu]
    exact hv
  | succ k ih =>
    rw [bubbleFrom, Nat.add_sub_cancel, bubblePass_append hu.ge]
    split_ifs with hswapped
    · obtain ⟨w, a, hw, hwlen, hlast⟩ := bubblePass_last htotal htrans hu
      have hmem : ∀ c, c ∈ w ++ [a] → c ∈ u := by
        intro c hc
        rwa [← hw, (bubblePass_perm swap k u).mem_iff] at hc
      rw [hw, List.append_assoc]
      refine ih hwlen (List.pairwise_cons.2 ⟨huv a (hmem a (by simp)), hv⟩) fun b hb c hc => ?_
      rcases List.mem_cons.1 hc with rfl | hc
      · exact hlast b hb
      · exact huv b (hmem b (List.mem_append_left _ hb)) c hc
    · obtain ⟨heq, hchain⟩ := bubblePass_unswapped hu (by simpa using hswapped)
      rw [heq]
      have : Trans (fun a b => swap a b = false) (fun a b => swap a b = false)
          (fun a b => swap a b = false) := ⟨fun h h' => htrans _ _ _ h h'⟩
      exact List.pairwise_append.2 ⟨List.isChain_iff_pairwise.1 hchain, hv, huv⟩

/-- The sort sorts, if `swap` is the strict part of a total preorder. -/
theorem bubbleSort_sorted (htotal : ∀ a b, swap a b = true → swap b a = false)
    (htrans : ∀ a b c, swap a b = false → swap b c = false → swap a c = false) (l : List α) :
    (bubbleSort swap l).Pairwise fun a b => swap a b = false := by
  have h := bubbleFrom_sorted htotal htrans (rfl : l.length = l.length) List.Pairwise.nil (by simp)
  rwa [List.append_nil] at h

end Sorted

end Bubble

/-- `sort_periodic_tasklist`: the listed tasks by decreasing utilisation. -/
def sortPeriodicTasklist (fuel : ℕ) (s : KState) : Call KState (List TaskCt) := do
  let tasks ← s.periodicTasks fuel
  let list ← ctArray s s.periodicTasksSize (tasks.map fun t =>
    let c := ctOf s t
    { c with util := c.budget * scaleUpFactor / c.period, task := t })
  pure (bubbleSort (fun a b => decide (b.util > a.util)) list)

/-- `get_util_bin`: the first of the open bins whose free utilisation is the one at position
`nthHighest` of the ascending order.  There always is one; the code's `-1` would be used as an
index. -/
def getUtilBin (bins : ℕ → ℤ) (nthHighest currentBins : ℕ) : Option ℕ :=
  let sortedBins := bubbleSort (fun a b => decide (b < a)) ((List.range currentBins).map bins)
  (List.range currentBins).find? fun i => decide (bins i = sortedBins.getD nthHighest 0)

/-! ### Packing -/

/-- The variables of `bin_packing`. -/
structure Packing where
  st : KState
  currentBins : ℕ
  prevBin : ℕ
  mask : Finset ℕ

/-- `max_bins`. -/
def maxBins : ℕ := 4

/-- Put a task on a CPU: its mask, the CPU's list and what is left of the CPU.  The mask is never
cleared between tasks. -/
def place (fuel : ℕ) (c : TaskCt) (cpu : ℕ) (k : Packing) : Call KState Packing := do
  let mask := insert cpu k.mask
  let s := k.st.modifyTask c.task fun p => { p with onCpu := cpu, cpusAllowed := mask }
  let s ← addTaskToCpu fuel c.task cpu s
  let s := { s with cpuUtil := Function.update s.cpuUtil cpu (s.cpuUtil cpu - c.util) }
  pure { k with st := s, mask := mask }

/-- The first of the given CPUs that admits the task. -/
def firstFit (fuel : ℕ) (c : TaskCt) (s : KState) : List ℕ → Call KState (Option ℕ)
  | [] => pure none
  | j :: js => do
      if ← checkAdmissionPerCpu fuel c.budget c.period j s then pure (some j)
      else firstFit fuel c s js

/-- Scheme 0 for one task: the first open bin that admits it, else a new bin.  `false` is the
`return 0` when no bin is left. -/
def packFirstFit (fuel : ℕ) (c : TaskCt) : ℕ → Packing → Call KState (Packing × Bool)
  | 0, k => .error (.spins, k.st)
  | n + 1, k => do
      match ← firstFit fuel c k.st (List.range k.currentBins) with
      | some j => pure (← place fuel c j k, true)
      | none =>
          let k := { k with currentBins := k.currentBins + 1 }
          if k.currentBins > maxBins then pure (k, false) else packFirstFit fuel c n k

/-- The search of scheme 1: up to `n` bins, from the last one used. -/
def nextFitFrom (fuel : ℕ) (c : TaskCt) : ℕ → Packing → Call KState (Packing × Bool)
  | 0, k => pure (k, false)
  | n + 1, k => do
      if ← checkAdmissionPerCpu fuel c.budget c.period k.prevBin k.st then
        pure (← place fuel c k.prevBin k, true)
      else nextFitFrom fuel c n { k with prevBin := (k.prevBin + 1) % k.currentBins }

/-- Scheme 1 for one task.  A new bin is taken without a test; with all bins open the task is left
out. -/
def packNextFit (fuel : ℕ) (c : TaskCt) (k : Packing) : Call KState (Packing × Bool) := do
  let (k, binfound) ← nextFitFrom fuel c k.currentBins k
  if binfound then pure (k, true)
  else if k.currentBins < maxBins then do
    let k := { k with currentBins := k.currentBins + 1 }
    let k ← place fuel c (k.currentBins - 1) k
    pure ({ k with prevBin := k.currentBins - 1 }, true)
  else pure (k, decide (k.currentBins ≤ maxBins))

/-- Schemes 2, 3 and 4 for one task: the open bins in the order of what is left of them, `index`
giving the position of the `j`-th attempt. -/
def packByUtil (fuel : ℕ) (index : ℕ → ℕ → ℕ) (c : TaskCt) :
    ℕ → ℕ → Packing → Call KState (Packing × Bool)
  | 0, _, k => .error (.spins, k.st)
  | n + 1, j, k => do
      match getUtilBin k.st.cpuUtil (index k.currentBins j) k.currentBins with
      | none => .error (.oops, k.st)
      | some bin => do
          if ← checkAdmissionPerCpu fuel c.budget c.period bin k.st then
            pure (← place fuel c bin k, true)
          else
            let j := j + 1
            let k := if j = k.currentBins then { k with currentBins := k.currentBins + 1 } else k
            if k.currentBins > maxBins then pure (k, false) else packByUtil fuel index c n j k

/-- How one task is packed, for each scheme: first fit, next fit, best fit, and worst fit from one
bin (3) or from all four (4). -/
def packOne (fuel : ℕ) (scheme : ℕ) (c : TaskCt) (k : Packing) : Call KState (Packing × Bool) :=
  match scheme with
  | 0 => packFirstFit fuel c fuel k
  | 1 => packNextFit fuel c k
  | 2 => packByUtil fuel (fun _ j => j) c fuel 0 k
  | 3 | 4 => packByUtil fuel (fun currentBins j => currentBins - 1 - j) c fuel 0 k
  | _ => pure (k, true)

/-- The loop over the tasks, until one does not fit. -/
def packAll (fuel scheme : ℕ) : List TaskCt → Packing → Call KState (Packing × Bool)
  | [], k => pure (k, true)
  | c :: list, k => do
      let (k, fits) ← packOne fuel scheme c k
      if fits then packAll fuel scheme list k else pure (k, false)

/-- `bin_packing`: the number of bins, or 0. -/
def binPacking (fuel scheme : ℕ) (s : KState) : Call KState (KState × ℕ) :=
  if s.periodicTasksSize ≤ 0 then pure (s, 0)
  else do
    let list ← sortPeriodicTasklist fuel s
    let (k, fits) ← packAll fuel scheme list ⟨s, if scheme = 4 then 4 else 1, 0, ∅⟩
    pure (k.st, if fits then k.currentBins else 0)

/-! ### What the per-CPU lists mean -/

/-- The tasks on `per_cpu_list[cpu]`, which is null until the first packing. -/
def OnCpuList (s : KState) (cpu : ℕ) (list : List Tid) : Prop :=
  Traverses s.cpuLinks (.head cpu) (list.map .entry) ∨
    list = [] ∧ (s.cpuLinks (.head cpu)).next = .null

/-- The per-CPU lists are well formed and hold `cl`, and no task is on two of them. -/
structure CpuKept (s : KState) (cl : ℕ → List Tid) : Prop where
  ring : ∀ c, IsRing s.cpuLinks (.head c) ((cl c).map .entry) ∨
    cl c = [] ∧ (s.cpuLinks (.head c)).next = .null
  size : ∀ c, s.perCpuListSize c = (cl c).length
  disjoint : ∀ c d, c ≠ d → ∀ t ∈ cl c, t ∉ cl d

section CpuKept

variable {s s' : KState} {cl : ℕ → List Tid} {cpu : ℕ} {t new : Tid}

instance (s : KState) (cpu : ℕ) (list : List Tid) : Decidable (OnCpuList s cpu list) := by
  unfold OnCpuList
  infer_instance

theorem OnCpuList.unique {list list' : List Tid} (h : OnCpuList s cpu list)
    (h' : OnCpuList s cpu list') : list = list' := by
  rcases h with h | ⟨rfl, hn⟩ <;> rcases h' with h' | ⟨rfl, hn'⟩
  · exact List.map_injective_iff.2 (fun a b hab => CpuNode.entry.inj hab) (h.unique h')
  · exact absurd hn' h.next_ne_null
  · exact absurd hn h'.next_ne_null
  · rfl

theorem CpuKept.onCpuList (h : CpuKept s cl) (c : ℕ) : OnCpuList s c (cl c) :=
  (h.ring c).imp IsRing.traverses id

theorem CpuKept.nodup (h : CpuKept s cl) (c : ℕ) : (cl c).Nodup := by
  rcases h.ring c with hr | ⟨hnil, -⟩
  · exact hr.nodup.of_map _
  · rw [hnil]
    exact List.nodup_nil

theorem CpuKept.of_registry (h : CpuKept s cl) (hr : s'.cpuRegistry = s.cpuRegistry) :
    CpuKept s' cl := by
  have hlinks : s'.cpuLinks = s.cpuLinks := congrArg CpuRegistry.cpuLinks hr
  have hsize : s'.perCpuListSize = s.perCpuListSize := congrArg CpuRegistry.perCpuListSize hr
  refine ⟨fun c => ?_, fun c => ?_, h.disjoint⟩
  · rw [hlinks]
    exact h.ring c
  · rw [hsize]
    exact h.size c

theorem cpuKept_booted (h : Booted s) : CpuKept s fun _ => [] :=
  ⟨fun c => Or.inr ⟨rfl, by rw [h.cpuLinks]⟩, h.cpuSize, by simp⟩

theorem CpuKept.isRing (h : CpuKept s cl) (hne : cl cpu ≠ []) :
    IsRing s.cpuLinks (.head cpu) ((cl cpu).map .entry) := by
  rcases h.ring cpu with hr | ⟨hnil, -⟩
  · exact hr
  · exact absurd hnil hne

/-- A change that stays within the ring of one CPU. -/
theorem CpuKept.update (h : CpuKept s cl) {links' : Links CpuNode} {l : List Tid}
    (hring : IsRing links' (.head cpu) (l.map .entry))
    (hframe : ∀ n, n ≠ .head cpu → (∀ t, n = .entry t → t ∉ cl cpu ∧ t ∉ l) →
      links' n = s.cpuLinks n)
    (hfresh : ∀ t ∈ l, t ∉ cl cpu → ∀ c, t ∉ cl c)
    (hlinks : s'.cpuLinks = links')
    (hsize : s'.perCpuListSize = Function.update s.perCpuListSize cpu l.length) :
    CpuKept s' (Function.update cl cpu l) := by
  have hother : ∀ c, c ≠ cpu → ∀ t ∈ cl c, t ∉ cl cpu ∧ t ∉ l := by
    intro c hc t ht
    have hcpu := h.disjoint c cpu hc t ht
    exact ⟨hcpu, fun hl => hfresh t hl hcpu c ht⟩
  refine ⟨fun c => ?_, fun c => ?_, fun c d hcd t ht => ?_⟩
  · by_cases hc : c = cpu
    · subst hc
      rw [hlinks, Function.update_self]
      exact Or.inl hring
    · rw [hlinks, Function.update_of_ne hc]
      have hhead : links' (.head c) = s.cpuLinks (.head c) :=
        hframe _ (by simpa using hc) (by simp)
      refine (h.ring c).imp (fun hr => hr.congr fun n hn => ?_) fun hnull => ⟨hnull.1, by
        rw [hhead]; exact hnull.2⟩
      rcases List.mem_cons.1 hn with rfl | hn
      · exact hhead
      · obtain ⟨t, ht, rfl⟩ := List.mem_map.1 hn
        refine hframe _ (by simp) fun u hu => ?_
        cases hu
        exact hother c hc t ht
  · rw [hsize]
    by_cases hc : c = cpu
    · subst hc
      rw [Function.update_self, Function.update_self]
    · rw [Function.update_of_ne hc, Function.update_of_ne hc, h.size]
  · by_cases hc : c = cpu
    · have hd : d ≠ cpu := fun hd => hcd (hc.trans hd.symm)
      rw [Function.update_of_ne hd]
      rw [hc, Function.update_self] at ht
      exact fun htd => (hother d hd t htd).2 ht
    · rw [Function.update_of_ne hc] at ht
      by_cases hd : d = cpu
      · rw [hd, Function.update_self]
        exact (hother c hc t ht).2
      · rw [Function.update_of_ne hd]
        exact h.disjoint c d hcd t ht

/-- The links that `add_task_to_cpu` searches: the head of an empty list is set up first. -/
def openedLinks (s : KState) (cpu : ℕ) : Links CpuNode :=
  if s.perCpuListSize cpu = 0 then initListHead s.cpuLinks (.head cpu) else s.cpuLinks

theorem addTaskToCpu_eq (fuel : ℕ) (new : Tid) (cpu : ℕ) (s : KState) :
    addTaskToCpu fuel new cpu s =
      (Call.lift { s with
          perCpuListSize := Function.update s.perCpuListSize cpu (s.perCpuListSize cpu + 1)
          cpuLinks := openedLinks s cpu }
        (seekAdd (openedLinks s cpu) (.head cpu) (fun n => decide (Longer s.periods new n.task))
          (.entry new) fuel)
      >>= fun links => pure { s with
          perCpuListSize := Function.update s.perCpuListSize cpu (s.perCpuListSize cpu + 1)
          cpuLinks := links }) := by
  rw [openedLinks, addTaskToCpu]
  split_ifs <;> rfl

theorem CpuKept.openedLinks_ring (h : CpuKept s cl) (cpu : ℕ) :
    IsRing (openedLinks s cpu) (.head cpu) ((cl cpu).map .entry) := by
  by_cases h0 : s.perCpuListSize cpu = 0
  · have hnil : cl cpu = [] := List.eq_nil_of_length_eq_zero (by rw [← h.size, h0])
    rw [openedLinks, if_pos h0, hnil]
    exact isRing_init _ _
  · rw [openedLinks, if_neg h0]
    refine h.isRing fun hnil => h0 ?_
    rw [h.size, hnil]
    rfl

/-- A task that is on no per-CPU list is added to one, behind the tasks of at most its period. -/
theorem addTaskToCpu_inserts (h : CpuKept s cl) (hnew : ∀ c, new ∉ cl c) (fuel cpu : ℕ) :
    Call.Sat (fun s' =>
      CpuKept s' (Function.update cl cpu (insertByPeriod s.periods new (cl cpu))) ∧
      { s' with perCpuListSize := s.perCpuListSize, cpuLinks := s.cpuLinks } = s)
      (fun _ => False) (addTaskToCpu fuel new cpu s) := by
  have hinit : ∀ n, n ≠ CpuNode.head cpu → openedLinks s cpu n = s.cpuLinks n := by
    intro n hn
    rw [openedLinks]
    split_ifs
    · exact Function.update_of_ne hn _ _
    · rfl
  have hentry : CpuNode.entry new ∉ .head cpu :: (cl cpu).map CpuNode.entry := by
    simpa using hnew cpu
  rw [addTaskToCpu_eq]
  rcases seekAdd_ring (h.openedLinks_ring cpu) hentry
    (fun n => decide (Longer s.periods new n.task)) fuel with
    ⟨links', hadd, hring', hframe⟩ | ⟨-, hspin⟩
  · rw [hadd]
    refine ⟨?_, rfl⟩
    have hring'' : IsRing links' (.head cpu)
        ((insertByPeriod s.periods new (cl cpu)).map .entry) := by
      rw [insertByPeriod_eq, List.map_append, List.map_cons]
      rwa [List.takeWhile_map, List.dropWhile_map] at hring'
    refine h.update hring'' (fun n hn hout => ?_) (fun t ht hcpu => ?_) rfl ?_
    · rw [hframe n, hinit n hn]
      intro hmem
      rcases List.mem_cons.1 hmem with rfl | hmem
      · exact hn rfl
      rcases List.mem_cons.1 hmem with rfl | hmem
      · exact (hout new rfl).2 (by simp)
      · obtain ⟨t, ht, rfl⟩ := List.mem_map.1 hmem
        exact (hout t rfl).1 ht
    · rcases mem_insertByPeriod.1 ht with rfl | ht
      · exact hnew
      · exact absurd ht hcpu
    · rw [length_insertByPeriod, h.size]
  · rw [hspin]
    trivial

/-- The search for the place goes through the list once. -/
theorem addTaskToCpu_returns (h : CpuKept s cl) (hnew : ∀ c, new ∉ cl c) {fuel cpu : ℕ}
    (hfuel : (cl cpu).length < fuel) : ∃ s', addTaskToCpu fuel new cpu s = .ok s' := by
  have hentry : CpuNode.entry new ∉ .head cpu :: (cl cpu).map CpuNode.entry := by
    simpa using hnew cpu
  rw [addTaskToCpu_eq]
  rcases seekAdd_ring (h.openedLinks_ring cpu) hentry
    (fun n => decide (Longer s.periods new n.task)) fuel with ⟨links, hadd, -⟩ | ⟨hle, -⟩
  · rw [hadd]
    exact ⟨_, rfl⟩
  · rw [List.length_map] at hle
    omega

/-- A task that is on no per-CPU list is added to one. -/
theorem addTaskToCpu_kept (h : CpuKept s cl) (hnew : ∀ c, new ∉ cl c) (fuel cpu : ℕ) :
    Call.Sat (fun s' => (∃ l, l.Perm (new :: cl cpu) ∧ CpuKept s' (Function.update cl cpu l)) ∧
      s'.registry = s.registry) (fun _ => False) (addTaskToCpu fuel new cpu s) := by
  refine (addTaskToCpu_inserts h hnew fuel cpu).mono (fun s' hs' => ⟨⟨_, insertByPeriod_perm, hs'.1⟩,
    ?_⟩) fun _ h => h
  rw [← hs'.2]
  rfl

/-- A task is taken off the list of its CPU. -/
theorem delTaskCpu_kept (h : CpuKept s cl) (ht : t ∈ cl cpu) :
    ∃ s', delTaskCpu t cpu s = .ok s' ∧ CpuKept s' (Function.update cl cpu ((cl cpu).erase t)) ∧
      ∃ size' links', s' = { s with perCpuListSize := size', cpuLinks := links' } := by
  obtain ⟨l, r, -, hlist, herase⟩ := List.exists_erase_eq ht
  have hring := h.isRing (List.ne_nil_of_mem ht)
  rw [hlist, List.map_append, List.map_cons] at hring
  obtain ⟨links', hdel, hring', hframe⟩ := listDel_ring hring
  have hpos : s.perCpuListSize cpu > 0 := by
    rw [h.size]
    exact List.length_pos_of_mem ht
  refine ⟨{ s with
    perCpuListSize := Function.update s.perCpuListSize cpu (s.perCpuListSize cpu - 1)
    cpuLinks := links' }, ?_, ?_, _, _, rfl⟩
  · simp only [delTaskCpu, if_pos hpos, hdel]
    rfl
  · refine h.update (by rwa [herase, List.map_append]) (fun n hn hout => hframe n fun hmem => ?_)
      (fun u hu hcpu => absurd (List.mem_of_mem_erase hu) hcpu) rfl ?_
    · rcases List.mem_cons.1 hmem with rfl | hmem
      · exact hn rfl
      · rw [← List.map_cons, ← List.map_append, ← hlist] at hmem
        obtain ⟨u, hu, rfl⟩ := List.mem_map.1 hmem
        exact (hout u rfl).1 hu
    · rw [List.length_erase_of_mem ht, h.size]

theorem delTaskCpu_of_empty (h : s.perCpuListSize cpu = 0) : delTaskCpu t cpu s = .ok s := by
  rw [delTaskCpu, h]
  rfl

theorem clearCpuList_kept (h : CpuKept s cl) (fuel cpu : ℕ) :
    Call.Sat (fun s' => CpuKept s' (Function.update cl cpu []) ∧ s'.registry = s.registry)
      (fun _ => False) (clearCpuList fuel s cpu) := by
  by_cases h0 : s.perCpuListSize cpu > 0
  · have hne : cl cpu ≠ [] := by
      intro hnil
      rw [h.size, hnil] at h0
      exact absurd h0 (lt_irrefl _)
    rw [clearCpuList, if_pos h0, clear]
    rcases clearFrom_ring (h.isRing hne) fuel with ⟨links', hok, hring, hframe⟩ | hspin
    · rw [hok]
      refine ⟨h.update hring (fun n hn hout => hframe n fun hmem => ?_) (by simp) rfl rfl, rfl⟩
      rcases List.mem_cons.1 hmem with rfl | hmem
      · exact hn rfl
      · obtain ⟨u, hu, rfl⟩ := List.mem_map.1 hmem
        exact (hout u rfl).1 hu
    · rw [hspin]
      trivial
  · have hnil : cl cpu = [] := List.eq_nil_of_length_eq_zero (by rw [← h.size]; omega)
    have hcl : Function.update cl cpu [] = cl := by rw [← hnil, Function.update_eq_self]
    have hsz : Function.update s.perCpuListSize cpu 0 = s.perCpuListSize := by
      rw [Function.update_eq_self_iff]
      omega
    rw [clearCpuList, if_neg h0, hcl]
    refine ⟨⟨h.ring, fun c => ?_, h.disjoint⟩, rfl⟩
    rw [← h.size c]
    exact congrFun hsz c

theorem addTaskToCpu_registry (fuel : ℕ) (t : Tid) (cpu : ℕ) (s : KState) :
    Call.Sat (fun s' => s'.registry = s.registry) (fun s' => s'.registry = s.registry)
      (addTaskToCpu fuel t cpu s) := by
  unfold addTaskToCpu
  refine Call.Sat.bind (Q := fun _ => True) (Call.sat_lift (fun _ _ => trivial) ?_) fun _ _ => ?_
  · split_ifs <;> rfl
  · rw [Call.sat_pure]
    split_ifs <;> rfl

theorem addTaskToCpu_task (fuel : ℕ) (t : Tid) (cpu : ℕ) (s : KState) :
    Call.Sat (fun s' => s'.task = s.task) (fun s' => s'.task = s.task)
      (addTaskToCpu fuel t cpu s) := by
  refine Call.Sat.bind (Q := fun _ => True) (Call.sat_lift (fun _ _ => trivial) ?_) fun _ _ => ?_
  · split_ifs <;> rfl
  · rw [Call.sat_pure]
    split_ifs <;> rfl

theorem delTaskCpu_registry (t : Tid) (cpu : ℕ) (s : KState) :
    Call.Sat (fun s' => s'.registry = s.registry) (fun s' => s'.registry = s.registry)
      (delTaskCpu t cpu s) := by
  refine Call.sat_ite (fun _ => ?_) fun _ => rfl
  refine Call.Sat.bind (Q := fun _ => True) (Call.sat_lift (fun _ _ => trivial) rfl) fun _ _ => ?_
  rfl

theorem clearCpuLists_registry (fuel : ℕ) (s : KState) :
    Call.Sat (fun s' => s'.registry = s.registry) (fun s' => s'.registry = s.registry)
      (clearCpuLists fuel s) := by
  refine Call.sat_foldlM (fun s₁ c _ h => ?_) rfl
  refine Call.sat_ite (fun _ => ?_) fun _ => h
  exact Call.Sat.bind (Q := fun _ => True) (Call.sat_lift (fun _ _ => trivial) h) fun _ _ => h

/-- Clearing the lists takes tasks off, and touches nothing but the lists. -/
theorem clearCpuLists_kept (h : CpuKept s cl) (fuel : ℕ) :
    Call.Sat (fun s' => (∃ cl', CpuKept s' cl' ∧ ∀ c, ∀ t ∈ cl' c, t ∈ cl c) ∧
      s'.registry = s.registry) (fun _ => False) (clearCpuLists fuel s) := by
  refine Call.sat_foldlM (fun s₁ c _ ⟨⟨cl', hk, hsub⟩, hreg⟩ => ?_) ⟨⟨cl, h, fun _ _ ht => ht⟩, rfl⟩
  refine (clearCpuList_kept hk fuel c).mono (fun s₂ ⟨hk₂, hreg₂⟩ => ⟨⟨_, hk₂, fun d t ht => ?_⟩,
    hreg₂.trans hreg⟩) fun _ h => h
  by_cases hd : d = c
  · rw [hd, Function.update_self] at ht
    cases ht
  · rw [Function.update_of_ne hd] at ht
    exact hsub d t ht

end CpuKept

/-! ### What packing does -/

section Packing

variable {s : KState} {fuel : ℕ}

theorem perCpuTasks_sat (fuel cpu : ℕ) (s : KState) :
    Call.Sat (fun _ => True) (fun s' => s' = s) (s.perCpuTasks fuel cpu) :=
  Call.Sat.bind (Call.sat_lift (Q := fun _ => True) (fun _ _ => trivial) rfl) fun _ _ => trivial

theorem checkAdmissionPerCpu_sat (fuel : ℕ) (budget period : ℤ) (cpu : ℕ) (s : KState) :
    Call.Sat (fun _ => True) (fun s' => s' = s)
      (checkAdmissionPerCpu fuel budget period cpu s) := by
  refine Call.sat_ite (fun _ => trivial) fun _ => ?_
  refine (perCpuTasks_sat fuel cpu s).bind fun tasks _ => ?_
  have harr : Call.Sat (fun _ => True) (fun s' => s' = s)
      (ctArray s (s.perCpuListSize cpu) (tasks.map (cpuCtOf s))) :=
    Call.sat_ite (fun _ => trivial) (fun _ => rfl)
  exact harr.bind fun _ _ => Call.sat_ofOption fun _ _ => trivial

theorem firstFit_sat (fuel : ℕ) (c : TaskCt) (s : KState) (js : List ℕ) :
    Call.Sat (fun _ => True) (fun s' => s' = s) (firstFit fuel c s js) := by
  induction js with
  | nil => trivial
  | cons j js ih =>
    refine (checkAdmissionPerCpu_sat fuel c.budget c.period j s).bind fun b _ => ?_
    cases b
    · exact ih
    · trivial

section One

variable {J J' : KState → Prop} {c : TaskCt} {k : Packing}
  (hplace : ∀ cpu (k : Packing), J k.st → Call.Sat (fun k' => J' k'.st) J' (place fuel c cpu k))
  (hskip : ∀ s, J s → J' s)

include hskip in
theorem check_sat (cpu : ℕ) (hk : J k.st) : Call.Sat (fun _ => True) J'
    (checkAdmissionPerCpu fuel c.budget c.period cpu k.st) :=
  (checkAdmissionPerCpu_sat fuel _ _ cpu k.st).mono (fun _ h => h) fun s hs => hskip s (hs ▸ hk)

include hplace hskip

theorem packFirstFit_sat (n : ℕ) (hk : J k.st) :
    Call.Sat (fun x => J' x.1.st) J' (packFirstFit fuel c n k) := by
  induction n generalizing k with
  | zero => trivial
  | succ n ih =>
    have hfit : Call.Sat (fun _ => True) J' (firstFit fuel c k.st (List.range k.currentBins)) :=
      (firstFit_sat fuel c k.st _).mono (fun _ h => h) fun s hs => hskip s (hs ▸ hk)
    refine hfit.bind fun r _ => ?_
    cases r with
    | some j => exact (hplace j k hk).bind fun _ h => h
    | none => exact Call.sat_ite (fun _ => hskip _ hk) fun _ => ih hk

theorem nextFitFrom_sat (n : ℕ) (hk : J k.st) :
    Call.Sat (fun x => if x.2 then J' x.1.st else J x.1.st) J' (nextFitFrom fuel c n k) := by
  induction n generalizing k with
  | zero => exact hk
  | succ n ih =>
    refine (check_sat hskip k.prevBin hk).bind fun b _ => ?_
    cases b
    · exact ih hk
    · exact (hplace k.prevBin k hk).bind fun k' h => h

theorem packNextFit_sat (hk : J k.st) :
    Call.Sat (fun x => J' x.1.st) J' (packNextFit fuel c k) := by
  refine (nextFitFrom_sat hplace hskip _ hk).bind fun x hx => ?_
  obtain ⟨k', binfound⟩ := x
  cases binfound
  · refine Call.sat_ite (fun h => Bool.noConfusion h) fun _ => ?_
    refine Call.sat_ite (fun _ => ?_) fun _ => hskip _ hx
    exact (hplace _ { k' with currentBins := k'.currentBins + 1 } hx).bind fun _ h => h
  · exact hx

theorem packByUtil_sat (index : ℕ → ℕ → ℕ) (n j : ℕ) (hk : J k.st) :
    Call.Sat (fun x => J' x.1.st) J' (packByUtil fuel index c n j k) := by
  induction n generalizing j k with
  | zero => trivial
  | succ n ih =>
    rw [packByUtil]
    cases getUtilBin k.st.cpuUtil (index k.currentBins j) k.currentBins with
    | none => exact hskip _ hk
    | some bin =>
      refine (check_sat hskip bin hk).bind fun b _ => ?_
      cases b
      · have hk' : J (if j + 1 = k.currentBins then
            { k with currentBins := k.currentBins + 1 } else k).st := by
          split_ifs <;> exact hk
        refine Call.sat_ite (fun h => Bool.noConfusion h) fun _ => ?_
        exact Call.sat_ite (fun _ => hskip _ hk') fun _ => ih _ hk'
      · exact (hplace bin k hk).bind fun _ h => h

/-- Whatever the scheme, a task is placed on some CPU, or nothing happens. -/
theorem packOne_sat (scheme : ℕ) (hk : J k.st) :
    Call.Sat (fun x => J' x.1.st) J' (packOne fuel scheme c k) := by
  unfold packOne
  split
  · exact packFirstFit_sat hplace hskip _ hk
  · exact packNextFit_sat hplace hskip hk
  · exact packByUtil_sat hplace hskip _ _ _ hk
  · exact packByUtil_sat hplace hskip _ _ _ hk
  · exact packByUtil_sat hplace hskip _ _ _ hk
  · exact hskip _ hk

end One

section All

variable {J : List TaskCt → KState → Prop}
  (hplace : ∀ c rem cpu (k : Packing), J (c :: rem) k.st →
    Call.Sat (fun k' => J rem k'.st) (J rem) (place fuel c cpu k))
  (hskip : ∀ c rem s, J (c :: rem) s → J rem s)

include hskip in
theorem pack_rest {rem : List TaskCt} (h : J rem s) : J [] s := by
  induction rem with
  | nil => exact h
  | cons c rem ih => exact ih (hskip c rem s h)

include hplace hskip

/-- The rule for packing: an invariant of the tasks still to be packed. -/
theorem packAll_sat (scheme : ℕ) {list : List TaskCt} {k : Packing} (hk : J list k.st) :
    Call.Sat (fun x => J [] x.1.st) (J []) (packAll fuel scheme list k) := by
  induction list generalizing k with
  | nil => exact hk
  | cons c rem ih =>
    have hone := packOne_sat (hplace c rem) (hskip c rem) scheme hk
    refine (hone.mono (fun _ h => h) fun s hs => pack_rest hskip hs).bind fun x hx => ?_
    obtain ⟨k', fits⟩ := x
    cases fits
    · exact pack_rest hskip hx
    · exact ih hx

theorem binPacking_sat {list : List Tid} (hkept : Kept s list) (scheme : ℕ)
    (hs : ∀ l : List TaskCt, (l.map TaskCt.task).Perm list → J l s) :
    Call.Sat (fun x => J [] x.1) (J []) (binPacking fuel scheme s) := by
  have h0 : J [] s := by
    refine pack_rest hskip (hs (list.map fun t => ⟨0, 0, 0, t⟩) ?_)
    rw [List.map_map]
    exact List.Perm.of_eq (List.map_id list)
  have hsort : Call.Sat (fun l => (l.map TaskCt.task).Perm list) (J [])
      (sortPeriodicTasklist fuel s) := by
    refine Call.Sat.bind ((hkept.periodicTasks_sat fuel).mono (fun _ h => h) ?_) ?_
    · rintro s' ⟨rfl, -⟩
      exact h0
    · rintro l rfl
      rw [ctArray, List.length_map, if_pos hkept.size.symm]
      refine ((bubbleSort_perm _ _).map TaskCt.task).trans ?_
      rw [List.map_map]
      exact List.Perm.of_eq (List.map_id l)
  refine Call.sat_ite (fun _ => h0) fun _ => hsort.bind fun l hl => ?_
  exact (packAll_sat hplace hskip scheme (k := ⟨s, if scheme = 4 then 4 else 1, 0, ∅⟩) (hs l hl)).bind
    fun _ h => h

end All

/-! ### The per-CPU lists after packing -/

/-- What packing keeps: the CPUs have gained tasks of the global list only, and those still to be
packed are on no CPU. -/
structure PackInv (s₀ : KState) (cl : ℕ → List Tid) (list : List Tid) (rem : List TaskCt)
    (s : KState) : Prop where
  kept : ∃ cl', CpuKept s cl' ∧ (∀ c, ∀ t ∈ cl' c, t ∈ cl c ∨ t ∈ list) ∧
    ∀ d ∈ rem, ∀ c, d.task ∉ cl' c
  listed : ∀ d ∈ rem, d.task ∈ list
  nodup : (rem.map TaskCt.task).Nodup
  registry : s.registry = s₀.registry

/-- The mask and the CPU number belong to no registry. -/
theorem placeMask_quiet (c : TaskCt) (cpu : ℕ) (k : Packing) :
    Quiet k.st (k.st.modifyTask c.task fun p =>
      { p with onCpu := cpu, cpusAllowed := insert cpu k.mask }) := by
  refine TaskUpdate.quiet (taskUpdate_modifyTask RegSame.refl ?_)
  rfl

theorem packInv_place {s₀ : KState} {cl : ℕ → List Tid} {list : List Tid} {rem : List TaskCt}
    {c : TaskCt} {cpu : ℕ} {k : Packing} (h : PackInv s₀ cl list (c :: rem) k.st) :
    Call.Sat (fun k' => PackInv s₀ cl list rem k'.st) (PackInv s₀ cl list rem)
      (place fuel c cpu k) := by
  obtain ⟨⟨cl', hk, hsub, hrem⟩, hlisted, hnodup, hreg⟩ := h
  rw [List.map_cons, List.nodup_cons] at hnodup
  have hmask := placeMask_quiet c cpu k
  have hadd := addTaskToCpu_kept (hk.of_registry hmask.cpuRegistry) (hrem c List.mem_cons_self)
    fuel cpu
  refine Call.Sat.bind (hadd.mono (fun _ h => h) fun _ h => h.elim) ?_
  rintro s' ⟨⟨l, hperm, hk'⟩, hreg'⟩
  have hmem : ∀ d, ∀ t ∈ Function.update cl' cpu l d, t = c.task ∨ t ∈ cl' d := by
    intro d t ht
    by_cases hd : d = cpu
    · rw [hd, Function.update_self, hperm.mem_iff] at ht
      rw [hd]
      exact List.mem_cons.1 ht
    · rw [Function.update_of_ne hd] at ht
      exact Or.inr ht
  refine ⟨⟨_, ⟨hk'.ring, hk'.size, hk'.disjoint⟩, fun d t ht => ?_, fun d hd e hde => ?_⟩,
    fun d hd => hlisted d (List.mem_cons_of_mem _ hd), hnodup.2,
    (hreg'.trans hmask.registry).trans hreg⟩
  · rcases hmem d t ht with rfl | ht
    · exact Or.inr (hlisted c List.mem_cons_self)
    · exact hsub d t ht
  · rcases hmem e d.task hde with heq | hde
    · exact hnodup.1 (heq ▸ List.mem_map_of_mem hd)
    · exact hrem d (List.mem_cons_of_mem _ hd) e hde

theorem packInv_skip {s₀ : KState} {cl : ℕ → List Tid} {list : List Tid} (c : TaskCt)
    (rem : List TaskCt) (s : KState) (h : PackInv s₀ cl list (c :: rem) s) :
    PackInv s₀ cl list rem s := by
  obtain ⟨⟨cl', hk, hsub, hrem⟩, hlisted, hnodup, hreg⟩ := h
  rw [List.map_cons, List.nodup_cons] at hnodup
  exact ⟨⟨cl', hk, hsub, fun d hd => hrem d (List.mem_cons_of_mem _ hd)⟩,
    fun d hd => hlisted d (List.mem_cons_of_mem _ hd), hnodup.2, hreg⟩

/-- When no listed task is on a CPU yet, packing gives the CPUs listed tasks only. -/
theorem binPacking_kept {cl : ℕ → List Tid} {list : List Tid} (hk : Kept s list)
    (hc : CpuKept s cl) (hout : ∀ t ∈ list, ∀ c, t ∉ cl c) (scheme : ℕ) :
    Call.Sat (fun x => PackInv s cl list [] x.1) (PackInv s cl list [])
      (binPacking fuel scheme s) := by
  refine binPacking_sat (J := PackInv s cl list) (fun c rem cpu k h => packInv_place h) packInv_skip
    hk scheme fun l hl => ?_
  have hmem : ∀ d ∈ l, d.task ∈ list := fun d hd => hl.mem_iff.1 (List.mem_map_of_mem hd)
  exact ⟨⟨cl, hc, fun _ _ ht => Or.inl ht, fun d hd c => hout _ (hmem d hd) c⟩, hmem,
    hl.nodup_iff.2 hk.nodup, rfl⟩

/-- Packing leaves the global list alone, whatever state the per-CPU lists are in. -/
theorem binPacking_registry {list : List Tid} (hk : Kept s list) (scheme : ℕ) :
    Call.Sat (fun x => x.1.registry = s.registry) (fun s' => s'.registry = s.registry)
      (binPacking fuel scheme s) := by
  refine binPacking_sat (J := fun _ s' => s'.registry = s.registry) (fun c rem cpu k h => ?_)
    (fun _ _ _ h => h) hk scheme fun _ _ => rfl
  have hmask := (placeMask_quiet c cpu k).registry.trans h
  have hadd := (addTaskToCpu_registry fuel c.task cpu _).mono (fun _ hs' => Eq.trans hs' hmask)
    fun _ hs' => Eq.trans hs' hmask
  exact hadd.bind fun _ hs' => hs'

end Packing

end RtSched
