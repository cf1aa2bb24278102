import Mathlib.Tactic
import RtSched.Base.Call

/-!
# Circular doubly linked lists

Intrusive lists over a set of nodes `N`: each node holds a `next` and a `prev` pointer, a list is
entered at its head node, and the pointers of its last entry come back to the head.  The store of
all nodes is a function `Links N`; a pointer is null, one of the two poison values an unlinked
entry is left with, or a node.

* `initListHead`, `listAdd`, `listAddTail`, `listDel`, the traversals `walk` and `seek`, and the
  loops `seekAdd` and `clear` that insert and remove along the way;
* `Traverses h head xs`: following `next` from `head` visits exactly `xs`;
* `IsRing h head xs`: in addition `prev` is the inverse of `next` and no node repeats;
* what these do to a ring (`listAddTail_ring`, `listDel_ring`, `seekAdd_ring`, `clearFrom_ring`),
  and that they leave every other node alone.
-/

namespace LinkRing

/-- A pointer to a list node. -/
inductive Ptr (N : Type)
  | null
  | poison1
  | poison2
  | node (n : N)
  deriving DecidableEq, Repr

/-- The two pointers of a node. -/
structure ListHead (N : Type) where
  next : Ptr N
  prev : Ptr N
  deriving DecidableEq, Repr

/-- The pointers of all nodes. -/
abbrev Links (N : Type) := N → ListHead N

variable {N : Type}

/-! ### Rings -/

/-- Following `next` from `head` visits exactly `xs` and comes back. -/
def Traverses (h : Links N) (head : N) (xs : List N) : Prop :=
  List.IsChain (fun a b => (h a).next = .node b) (head :: (xs ++ [head])) ∧ head ∉ xs

instance [DecidableEq N] (h : Links N) (head : N) (xs : List N) :
    Decidable (Traverses h head xs) := by
  unfold Traverses
  infer_instance

/-- `b` follows `a`, in both directions. -/
def Linked (h : Links N) (a b : N) : Prop := (h a).next = .node b ∧ (h b).prev = .node a

/-- A well-formed circular list with head `head` and entries `xs`. -/
def IsRing (h : Links N) (head : N) (xs : List N) : Prop :=
  List.IsChain (Linked h) (head :: (xs ++ [head])) ∧ (head :: xs).Nodup

instance [DecidableEq N] (h : Links N) (a b : N) : Decidable (Linked h a b) :=
  inferInstanceAs (Decidable (_ ∧ _))

instance [DecidableEq N] (h : Links N) (head : N) (xs : List N) : Decidable (IsRing h head xs) :=
  inferInstanceAs (Decidable (_ ∧ _))

variable {h h' : Links N} {head : N} {xs l r : List N}

theorem IsRing.traverses (hr : IsRing h head xs) : Traverses h head xs := by
  refine ⟨hr.1.imp fun a b hab => hab.1, ?_⟩
  exact (List.nodup_cons.1 hr.2).1

theorem IsRing.nodup (hr : IsRing h head xs) : xs.Nodup := (List.nodup_cons.1 hr.2).2

/-- Only the sources' `next` and the targets' `prev` pointers matter to a chain. -/
theorem IsChain.congr {a : N} (hc : List.IsChain (Linked h) (a :: l))
    (hn : ∀ n ∈ (a :: l).dropLast, (h' n).next = (h n).next)
    (hp : ∀ n ∈ l, (h' n).prev = (h n).prev) : List.IsChain (Linked h') (a :: l) := by
  induction l generalizing a with
  | nil => exact List.isChain_singleton a
  | cons b l ih =>
    rw [List.isChain_cons_cons] at hc ⊢
    rw [List.dropLast_cons_of_ne_nil (by simp)] at hn
    refine ⟨⟨?_, ?_⟩, ih hc.2 (fun n hmem => hn n (List.mem_cons_of_mem _ hmem))
      (fun n hmem => hp n (List.mem_cons_of_mem _ hmem))⟩
    · rw [hn a List.mem_cons_self]; exact hc.1.1
    · rw [hp b List.mem_cons_self]; exact hc.1.2

/-- A ring is not touched by writes to other nodes. -/
theorem IsRing.congr (hr : IsRing h head xs) (hag : ∀ n ∈ head :: xs, h' n = h n) :
    IsRing h' head xs := by
  refine ⟨IsChain.congr hr.1 (fun n hn => ?_) (fun n hn => ?_), hr.2⟩
  · rw [← List.cons_append, List.dropLast_concat] at hn
    rw [hag n hn]
  · rw [hag n (by simpa [or_comm] using hn)]

/-- A chain up to `p` survives a new successor of `p`. -/
theorem chain_left {a p : N} (hc : List.IsChain (Linked h) (a :: l)) (hnd : (a :: l).Nodup)
    (hp : (a :: l).getLast? = some p) (hn : ∀ n ∈ a :: l, n ≠ p → (h' n).next = (h n).next)
    (hpv : ∀ n ∈ l, (h' n).prev = (h n).prev) : List.IsChain (Linked h') (a :: l) := by
  have hsplit := List.dropLast_append_getLast? p hp
  refine IsChain.congr hc (fun n hmem => hn n (List.dropLast_subset _ hmem) ?_) hpv
  rintro rfl
  rw [← hsplit] at hnd
  exact List.disjoint_of_nodup_append hnd hmem (List.mem_singleton_self _)

/-- A chain from `q` on survives a new predecessor of `q`. -/
theorem chain_right {b q : N} (hc : List.IsChain (Linked h) (r ++ [b])) (hnd : (r ++ [b]).Nodup)
    (hq : (r ++ [b]).head? = some q) (hn : ∀ n ∈ r, (h' n).next = (h n).next)
    (hpv : ∀ n ∈ r ++ [b], n ≠ q → (h' n).prev = (h n).prev) :
    List.IsChain (Linked h') (r ++ [b]) := by
  obtain ⟨t, ht⟩ : ∃ t, r ++ [b] = q :: t := by
    cases hrb : r ++ [b] with
    | nil => simp at hrb
    | cons c t => rw [hrb] at hq; cases hq; exact ⟨t, rfl⟩
  have hdrop : (q :: t).dropLast = r := by rw [← ht, List.dropLast_concat]
  rw [ht] at hc hnd hpv ⊢
  refine IsChain.congr hc (fun n hmem => hn n (hdrop ▸ hmem)) (fun n hmem => ?_)
  refine hpv n (List.mem_cons_of_mem _ hmem) ?_
  rintro rfl
  exact (List.nodup_cons.1 hnd).1 hmem

/-- The two ends that meet at a cut of a ring. -/
theorem IsRing.cut (hr : IsRing h head (l ++ r)) :
    ∃ p q, (head :: l).getLast? = some p ∧ (r ++ [head]).head? = some q ∧ Linked h p q ∧
      List.IsChain (Linked h) (head :: l) ∧ List.IsChain (Linked h) (r ++ [head]) := by
  have hc := hr.1
  rw [List.append_assoc, ← List.cons_append, List.isChain_append] at hc
  obtain ⟨hl, hrr, hj⟩ := hc
  obtain ⟨q, hq⟩ : ∃ q, (r ++ [head]).head? = some q := by
    cases r <;> simp
  refine ⟨(head :: l).getLast (by simp), q, List.getLast?_eq_getLast_of_ne_nil (by simp), hq, ?_,
    hl, hrr⟩
  exact hj _ (List.getLast?_eq_getLast_of_ne_nil (by simp)) _ hq

/-- Two chains whose ends meet make a ring. -/
theorem isRing_of_cut {p q : N} (hl : List.IsChain (Linked h) (head :: l))
    (hr : List.IsChain (Linked h) (r ++ [head])) (hp : (head :: l).getLast? = some p)
    (hq : (r ++ [head]).head? = some q) (hpq : Linked h p q) (hnd : (head :: (l ++ r)).Nodup) :
    IsRing h head (l ++ r) := by
  refine ⟨?_, hnd⟩
  rw [List.append_assoc, ← List.cons_append, List.isChain_append]
  refine ⟨hl, hr, fun a ha b hb => ?_⟩
  rw [hp] at ha
  rw [hq] at hb
  cases ha
  cases hb
  exact hpq

/-- The ends of a cut do not occur on the other side of it. -/
theorem ne_of_cut {p q : N} (hnd : (head :: (l ++ r)).Nodup) (hp : (head :: l).getLast? = some p)
    (hq : (r ++ [head]).head? = some q) : (∀ n ∈ l, n ≠ q) ∧ (∀ n ∈ r, n ≠ p) ∧
      (head :: l).Nodup ∧ (r ++ [head]).Nodup := by
  have hpmem : p ∈ head :: l := List.mem_of_getLast? hp
  have hqmem : q ∈ r ++ [head] := List.mem_of_head? hq
  rw [List.nodup_cons, List.nodup_append] at hnd
  obtain ⟨hh, hl, hr, hlr⟩ := hnd
  rw [List.mem_append, not_or] at hh
  refine ⟨?_, ?_, List.nodup_cons.2 ⟨hh.1, hl⟩, ?_⟩
  · rintro n hn rfl
    rcases List.mem_append.1 hqmem with h | h
    · exact hlr n hn n h rfl
    · exact hh.1 (List.mem_singleton.1 h ▸ hn)
  · rintro n hn rfl
    rcases List.mem_cons.1 hpmem with h | h
    · exact hh.2 (h ▸ hn)
    · exact hlr n h n hn rfl
  · rw [List.nodup_append]
    refine ⟨hr, List.nodup_singleton _, fun a ha b hb => ?_⟩
    rintro rfl
    exact hh.2 (List.mem_singleton.1 hb ▸ ha)

variable [DecidableEq N]

/-! ### The operations -/

/-- Write the `next` pointer of `n`. -/
def setNext (h : Links N) (n : N) (p : Ptr N) : Links N :=
  Function.update h n { h n with next := p }

/-- Write the `prev` pointer of `n`. -/
def setPrev (h : Links N) (n : N) (p : Ptr N) : Links N :=
  Function.update h n { h n with prev := p }

theorem setNext_next (h : Links N) (n m : N) (p : Ptr N) :
    (setNext h n p m).next = if m = n then p else (h m).next := by
  by_cases hmn : m = n
  · subst hmn; simp [setNext]
  · simp [setNext, hmn]

@[simp] theorem setNext_prev (h : Links N) (n m : N) (p : Ptr N) :
    (setNext h n p m).prev = (h m).prev := by
  by_cases hmn : m = n
  · subst hmn; simp [setNext]
  · simp [setNext, hmn]

theorem setPrev_prev (h : Links N) (n m : N) (p : Ptr N) :
    (setPrev h n p m).prev = if m = n then p else (h m).prev := by
  by_cases hmn : m = n
  · subst hmn; simp [setPrev]
  · simp [setPrev, hmn]

@[simp] theorem setPrev_next (h : Links N) (n m : N) (p : Ptr N) :
    (setPrev h n p m).next = (h m).next := by
  by_cases hmn : m = n
  · subst hmn; simp [setPrev]
  · simp [setPrev, hmn]

theorem setNext_of_ne {h : Links N} {n m : N} {p : Ptr N} (hmn : m ≠ n) :
    setNext h n p m = h m := by simp [setNext, hmn]

theorem setPrev_of_ne {h : Links N} {n m : N} {p : Ptr N} (hmn : m ≠ n) :
    setPrev h n p m = h m := by simp [setPrev, hmn]

/-- `INIT_LIST_HEAD`: an empty list. -/
def initListHead (h : Links N) (n : N) : Links N := Function.update h n ⟨.node n, .node n⟩

/-- `__list_add`: put `new` between two consecutive nodes. -/
def listAdd (new prev next : N) (h : Links N) : Links N :=
  let h := setPrev h next (.node new)
  let h := setNext h new (.node next)
  let h := setPrev h new (.node prev)
  setNext h prev (.node new)

/-- `list_add_tail`: put `new` before `pos`; a bad `prev` pointer of `pos` is written through. -/
def listAddTail (new pos : N) (h : Links N) : Except Trap (Links N) :=
  match (h pos).prev with
  | .node prev => .ok (listAdd new prev pos h)
  | _ => .error .oops

/-- `list_del`: join the neighbours of `entry` and poison its pointers. -/
def listDel (entry : N) (h : Links N) : Except Trap (Links N) :=
  match (h entry).prev, (h entry).next with
  | .node prev, .node next =>
      let h := setPrev h next (.node prev)
      let h := setNext h prev (.node next)
      let h := setNext h entry .poison1
      .ok (setPrev h entry .poison2)
  | _, _ => .error .oops

/-- The entries met from pointer `p` on, until the traversal is back at `head`. -/
def walkFrom (h : Links N) (head : N) : ℕ → Ptr N → Except Trap (List N)
  | 0, _ => .error .spins
  | fuel + 1, .node n =>
      if n = head then .ok []
      else match walkFrom h head fuel (h n).next with
        | .ok ns => .ok (n :: ns)
        | .error t => .error t
  | _ + 1, _ => .error .oops

/-- `list_for_each`: the entries of the list in order. -/
def walk (h : Links N) (head : N) (fuel : ℕ) : Except Trap (List N) :=
  walkFrom h head fuel (h head).next

/-- The first node from pointer `p` on that satisfies `stop`, else the head. -/
def seekFrom (h : Links N) (head : N) (stop : N → Bool) : ℕ → Ptr N → Except Trap N
  | 0, _ => .error .spins
  | fuel + 1, .node n =>
      if n = head then .ok head
      else if stop n then .ok n
      else seekFrom h head stop fuel (h n).next
  | _ + 1, _ => .error .oops

/-- `list_for_each` with a `break`: where the traversal stops. -/
def seek (h : Links N) (head : N) (stop : N → Bool) (fuel : ℕ) : Except Trap N :=
  seekFrom h head stop fuel (h head).next

/-- Insertion before the first entry that satisfies `stop`. -/
def seekAdd (h : Links N) (head : N) (stop : N → Bool) (new : N) (fuel : ℕ) :
    Except Trap (Links N) := do
  let pos ← seek h head stop fuel
  listAddTail new pos h

/-- Remove every entry from pointer `p` on; the next pointer is read before an entry goes. -/
def clearFrom (head : N) : ℕ → Ptr N → Links N → Except Trap (Links N)
  | 0, _, _ => .error .spins
  | fuel + 1, .node n, h =>
      if n = head then .ok h
      else do
        let next := (h n).next
        let h ← listDel n h
        clearFrom head fuel next h
  | _ + 1, _, _ => .error .oops

/-- `list_for_each_safe` with a `list_del` in its body. -/
def clear (h : Links N) (head : N) (fuel : ℕ) : Except Trap (Links N) :=
  clearFrom head fuel (h head).next h

/-! ### Insertion and removal -/

theorem isRing_init (h : Links N) (head : N) : IsRing (initListHead h head) head [] := by
  refine ⟨?_, by simp⟩
  simp [Linked, initListHead]

theorem listDel_ring {x : N} (hr : IsRing h head (l ++ x :: r)) :
    ∃ h', listDel x h = .ok h' ∧ IsRing h' head (l ++ r) ∧
      ∀ n, n ∉ head :: (l ++ x :: r) → h' n = h n := by
  obtain ⟨p, q', hp, hq', hpx, hl, hxr⟩ := hr.cut
  obtain rfl : x = q' := by simpa using hq'
  rw [List.cons_append, List.isChain_cons] at hxr
  obtain ⟨hxq, hrr⟩ := hxr
  obtain ⟨q, hq⟩ : ∃ q, (r ++ [head]).head? = some q := by cases r <;> simp
  have hpmem : p ∈ head :: l := List.mem_of_getLast? hp
  have hqmem : q ∈ r ++ [head] := List.mem_of_head? hq
  have hperm : (head :: (l ++ x :: r)).Perm (x :: (head :: (l ++ r))) :=
    @List.perm_middle N x (head :: l) r
  have hnd := hperm.nodup_iff.1 hr.2
  rw [List.nodup_cons] at hnd
  obtain ⟨hxn, hnd⟩ := hnd
  have hmeml : ∀ n ∈ head :: l, n ≠ x := by rintro n hn rfl; simp at hn hxn; tauto
  have hmemr : ∀ n ∈ r ++ [head], n ≠ x := by rintro n hn rfl; simp at hn hxn; tauto
  have hdel : listDel x h = .ok (setPrev (setNext (setNext (setPrev h q (.node p)) p (.node q)) x
      .poison1) x .poison2) := by
    simp only [listDel, hpx.2, (hxq q hq).1]
  obtain ⟨hlq, hrp, hndl, hndr⟩ := ne_of_cut hnd hp hq
  refine ⟨_, hdel, isRing_of_cut (chain_left hl hndl hp ?_ ?_) (chain_right hrr hndr hq ?_ ?_) hp hq
    ⟨?_, ?_⟩ hnd, ?_⟩
  · intro n hn hnp
    simp [setNext_next, hmeml n hn, hnp]
  · intro n hn
    simp [setPrev_prev, hmeml n (List.mem_cons_of_mem _ hn), hlq n hn]
  · intro n hn
    simp [setNext_next, hmemr n (List.mem_append_left _ hn), hrp n hn]
  · intro n hn hnq
    simp [setPrev_prev, hmemr n hn, hnq]
  · simp [setNext_next, hmeml p hpmem]
  · simp [setPrev_prev, hmemr q hqmem]
  · intro n hn
    have hnx : n ≠ x := by rintro rfl; simp at hn
    have hnp : n ≠ p := by rintro rfl; simp at hn hpmem; tauto
    have hnq : n ≠ q := by rintro rfl; simp at hn hqmem; tauto
    rw [setPrev_of_ne hnx, setNext_of_ne hnx, setNext_of_ne hnp, setPrev_of_ne hnq]

theorem listAddTail_ring {new pos : N} (hr : IsRing h head (l ++ r))
    (hnew : new ∉ head :: (l ++ r)) (hpos : (r ++ [head]).head? = some pos) :
    ∃ h', listAddTail new pos h = .ok h' ∧ IsRing h' head (l ++ new :: r) ∧
      ∀ n, n ∉ head :: (l ++ new :: r) → h' n = h n := by
  obtain ⟨p, q, hp, hq, hpq, hl, hrr⟩ := hr.cut
  obtain rfl : pos = q := by rw [hpos] at hq; exact Option.some.inj hq
  have hpmem : p ∈ head :: l := List.mem_of_getLast? hp
  have hqmem : pos ∈ r ++ [head] := List.mem_of_head? hq
  have hmeml : ∀ n ∈ head :: l, n ≠ new := by rintro n hn rfl; simp at hn hnew; tauto
  have hmemr : ∀ n ∈ r ++ [head], n ≠ new := by rintro n hn rfl; simp at hn hnew; tauto
  have hadd : listAddTail new pos h = .ok (listAdd new p pos h) := by
    simp only [listAddTail, hpq.2]
  obtain ⟨hlq, hrp, hndl, hndr⟩ := ne_of_cut hr.2 hp hq
  have hperm : (head :: (l ++ new :: r)).Perm (new :: (head :: (l ++ r))) :=
    @List.perm_middle N new (head :: l) r
  have hnd := hperm.nodup_iff.2 (List.nodup_cons.2 ⟨hnew, hr.2⟩)
  have hright : List.IsChain (Linked (listAdd new p pos h)) (r ++ [head]) := by
    refine chain_right hrr hndr hq ?_ ?_
    · intro n hn
      simp [listAdd, setNext_next, hmemr n (List.mem_append_left _ hn), hrp n hn]
    · intro n hn hnq
      simp [listAdd, setPrev_prev, hmemr n hn, hnq]
  refine ⟨_, hadd, isRing_of_cut (chain_left hl hndl hp ?_ ?_) (hright.cons ?_) hp
    (q := new) (by simp) ⟨?_, ?_⟩ hnd, ?_⟩
  · intro n hn hnp
    simp [listAdd, setNext_next, hmeml n hn, hnp]
  · intro n hn
    simp [listAdd, setPrev_prev, hmeml n (List.mem_cons_of_mem _ hn), hlq n hn]
  · -- the new entry points at `pos`, and `pos` back at it
    intro y hy
    rw [hq] at hy
    cases hy
    exact ⟨by simp [listAdd, setNext_next, (hmeml p hpmem).symm],
      by simp [listAdd, setPrev_prev, hmemr pos hqmem]⟩
  · simp [listAdd, setNext_next]
  · simp [listAdd, setPrev_prev]
  · intro n hn
    have hnx : n ≠ new := by rintro rfl; simp at hn
    have hnp : n ≠ p := by rintro rfl; simp at hn hpmem; tauto
    have hnq : n ≠ pos := by rintro rfl; simp at hn hqmem; tauto
    rw [listAdd, setNext_of_ne hnp, setPrev_of_ne hnx, setNext_of_ne hnx, setPrev_of_ne hnq]

/-! ### Traversals -/

theorem walkFrom_of_chain {a : N} {p : Ptr N} (hp : p = .node a) {fuel : ℕ}
    (hc : List.IsChain (fun a b => (h a).next = .node b) (xs ++ [head])) (hh : head ∉ xs)
    (ha : (xs ++ [head]).head? = some a) :
    walkFrom h head fuel p = if xs.length < fuel then .ok xs else .error .spins := by
  induction fuel generalizing xs a p with
  | zero => simp [walkFrom]
  | succ fuel ih =>
    subst hp
    cases xs with
    | nil =>
      obtain rfl : head = a := by simpa using ha
      simp [walkFrom]
    | cons b xs =>
      obtain rfl : b = a := by simpa using ha
      have hb : b ≠ head := by rintro rfl; simp at hh
      rw [List.cons_append, List.isChain_cons] at hc
      obtain ⟨c, hcc⟩ : ∃ c, (xs ++ [head]).head? = some c := by cases xs <;> simp
      rw [walkFrom, if_neg hb, ih (hc.1 c hcc) hc.2 (by simp at hh; exact hh.2) hcc]
      by_cases hlt : xs.length < fuel <;> simp [hlt]

/-- Walking a list visits its entries, given enough turns. -/
theorem walk_eq (ht : Traverses h head xs) (fuel : ℕ) :
    walk h head fuel = if xs.length < fuel then .ok xs else .error .spins := by
  obtain ⟨hc, hh⟩ := ht
  rw [List.isChain_cons] at hc
  obtain ⟨c, hcc⟩ : ∃ c, (xs ++ [head]).head? = some c := by cases xs <;> simp
  exact walkFrom_of_chain (hc.1 c hcc) hc.2 hh hcc

theorem walk_ok {ys : List N} {fuel : ℕ} (ht : Traverses h head xs)
    (hw : walk h head fuel = .ok ys) : ys = xs := by
  rw [walk_eq ht] at hw
  split_ifs at hw
  exact (Except.ok.inj hw).symm

theorem seekFrom_of_chain {stop : N → Bool} {a : N} {p : Ptr N} (hp : p = .node a) {fuel : ℕ}
    (hc : List.IsChain (fun a b => (h a).next = .node b) (xs ++ [head])) (hh : head ∉ xs)
    (ha : (xs ++ [head]).head? = some a) :
    seekFrom h head stop fuel p =
      if (xs.takeWhile (!stop ·)).length < fuel then .ok ((xs.dropWhile (!stop ·)).headD head)
      else .error .spins := by
  induction fuel generalizing xs a p with
  | zero => simp [seekFrom]
  | succ fuel ih =>
    subst hp
    cases xs with
    | nil =>
      obtain rfl : head = a := by simpa using ha
      simp [seekFrom]
    | cons b xs =>
      obtain rfl : b = a := by simpa using ha
      have hb : b ≠ head := by rintro rfl; simp at hh
      rw [List.cons_append, List.isChain_cons] at hc
      obtain ⟨c, hcc⟩ : ∃ c, (xs ++ [head]).head? = some c := by cases xs <;> simp
      cases hs : stop b with
      | true => simp [seekFrom, hb, hs]
      | false =>
        rw [seekFrom, if_neg hb, if_neg (by simp [hs]),
          ih (hc.1 c hcc) hc.2 (by simp at hh; exact hh.2) hcc]
        simp [hs]

/-- Seeking stops at the first entry that satisfies `stop`, or at the head. -/
theorem seek_eq (ht : Traverses h head xs) (stop : N → Bool) (fuel : ℕ) :
    seek h head stop fuel =
      if (xs.takeWhile (!stop ·)).length < fuel then .ok ((xs.dropWhile (!stop ·)).headD head)
      else .error .spins := by
  obtain ⟨hc, hh⟩ := ht
  rw [List.isChain_cons] at hc
  obtain ⟨c, hcc⟩ : ∃ c, (xs ++ [head]).head? = some c := by cases xs <;> simp
  exact seekFrom_of_chain (hc.1 c hcc) hc.2 hh hcc

/-- Insertion into a ring puts the entry before the first one that satisfies `stop`. -/
theorem seekAdd_ring {new : N} (hr : IsRing h head xs) (hnew : new ∉ head :: xs) (stop : N → Bool)
    (fuel : ℕ) :
    (∃ h', seekAdd h head stop new fuel = .ok h' ∧
      IsRing h' head (xs.takeWhile (!stop ·) ++ new :: xs.dropWhile (!stop ·)) ∧
      ∀ n, n ∉ head :: new :: xs → h' n = h n) ∨
    fuel ≤ xs.length ∧ seekAdd h head stop new fuel = .error .spins := by
  have hlen : (xs.takeWhile (!stop ·)).length ≤ xs.length :=
    (List.takeWhile_prefix _).length_le
  rw [seekAdd, seek_eq hr.traverses]
  split_ifs with hfuel
  · left
    have hxs : xs.takeWhile (!stop ·) ++ xs.dropWhile (!stop ·) = xs :=
      List.takeWhile_append_dropWhile
    rw [← hxs] at hr hnew
    have hpos : (xs.dropWhile (!stop ·) ++ [head]).head? =
        some ((xs.dropWhile (!stop ·)).headD head) := by
      cases xs.dropWhile (!stop ·) <;> rfl
    obtain ⟨h', hadd, hr', hframe⟩ := listAddTail_ring hr hnew hpos
    refine ⟨h', hadd, hr', fun n hn => hframe n fun hmem => hn ?_⟩
    rw [← hxs]
    simp only [List.mem_cons, List.mem_append] at hmem ⊢
    tauto
  · exact Or.inr ⟨by omega, rfl⟩

/-- Clearing a ring empties it. -/
theorem clearFrom_ring (hr : IsRing h head xs) (fuel : ℕ) :
    (∃ h', clearFrom head fuel (h head).next h = .ok h' ∧ IsRing h' head [] ∧
      ∀ n, n ∉ head :: xs → h' n = h n) ∨
    clearFrom head fuel (h head).next h = .error .spins := by
  induction fuel generalizing h xs with
  | zero => exact Or.inr rfl
  | succ fuel ih =>
    cases xs with
    | nil =>
      have hnext : (h head).next = .node head := by simpa [Linked] using (hr.1.rel).1
      rw [hnext, clearFrom, if_pos rfl]
      exact Or.inl ⟨h, rfl, hr, fun _ _ => rfl⟩
    | cons x xs =>
      have hx : x ≠ head := by
        rintro rfl
        exact (List.nodup_cons.1 hr.2).1 List.mem_cons_self
      obtain ⟨h', hdel, hr', hframe⟩ := listDel_ring (l := []) hr
      -- the pointer read before the removal is where the list now starts
      have hnext : (h x).next = (h' head).next := by
        have h1 := hr.1.tail
        have h2 := hr'.1
        cases xs with
        | nil => exact (h1.rel).1.trans (h2.rel).1.symm
        | cons y ys => exact (h1.rel).1.trans (h2.rel).1.symm
      have hstep : clearFrom head (fuel + 1) (h head).next h =
          clearFrom head fuel (h' head).next h' := by
        rw [show (h head).next = .node x from (hr.1.rel).1, clearFrom, if_neg hx, hnext, hdel]
        rfl
      rw [hstep]
      rcases ih hr' with ⟨h'', hok, hr'', hframe'⟩ | hspin
      · refine Or.inl ⟨h'', hok, hr'', fun n hn => ?_⟩
        have hn' : n ∉ head :: xs := by simp at hn ⊢; tauto
        rw [hframe' n hn', hframe n hn]
      · exact Or.inr hspin

/-- An entry that points at itself keeps the traversal from coming back. -/
theorem not_traverses_of_loop {a : N} (ha : a ≠ head) (hhead : (h head).next = .node a)
    (hloop : (h a).next = .node a) : ¬ Traverses h head xs := by
  have hspin : ∀ fuel, walkFrom h head fuel (.node a) = .error .spins := by
    intro fuel
    induction fuel with
    | zero => rfl
    | succ fuel ih => rw [walkFrom, if_neg ha, hloop, ih]
  intro ht
  have hw := walk_eq ht (xs.length + 1)
  rw [walk, hhead, hspin, if_pos (Nat.lt_succ_self _)] at hw
  cases hw

omit [DecidableEq N] in
/-- A list that can be traversed has been initialised. -/
theorem Traverses.next_ne_null (ht : Traverses h head xs) : (h head).next ≠ .null := by
  obtain ⟨hc, -⟩ := ht
  rw [List.isChain_cons] at hc
  obtain ⟨c, hcc⟩ : ∃ c, (xs ++ [head]).head? = some c := by cases xs <;> simp
  rw [hc.1 c hcc]
  rintro ⟨⟩

/-- A list has one sequence of entries. -/
theorem Traverses.unique {ys : List N} (ht : Traverses h head xs) (ht' : Traverses h head ys) :
    xs = ys := by
  have hw := walk_eq ht (xs.length + 1)
  rw [if_pos (by omega)] at hw
  exact walk_ok ht' hw

end LinkRing
