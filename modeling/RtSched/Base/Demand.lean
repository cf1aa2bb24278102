import Mathlib.Tactic
import Mathlib.Data.Rat.Floor
import Mathlib.Algebra.Order.BigOperators.Group.Multiset

/-!
# Time-demand analysis

Tasks of an arbitrary type `α` with a cost and a period, all released together at time zero.  Under
fixed priorities a task meets its first deadline exactly when, at some instant within its period,
the work released by the tasks of at least its priority fits.

* `demand xs t`: the work the tasks `xs` have released before time `t`; it stays from one release
  to the next (`demand_const`, `next_release`);
* `utilisation xs`: what they ask for per unit of time; demand that is covered once never exceeds
  the time by more than one job of each task (`utilisation_le_one`, `demand_le_add`);
* `Feasible xs`: every task of `xs` has such an instant, with priority by period;
* `PrefixFeasible l`: the same for a list in priority order;
* on a list sorted by period the two agree (`prefixFeasible_iff`), so the test does not depend on
  the order of equal periods, and it survives removing tasks (`Feasible.mono`) and lowering costs
  (`Feasible.mono_cost`, `Feasible.replace`).
-/

namespace TimeDemand

variable {α : Type*} {cost cost' period : α → ℤ}

/-! ### Releases -/

theorem one_le_ceil {t p : ℤ} (ht : 0 < t) (hp : 0 < p) : 1 ≤ ⌈(t : ℚ) / p⌉ := by
  have h : (0 : ℚ) < (t : ℚ) / p := div_pos (by exact_mod_cast ht) (by exact_mod_cast hp)
  exact Int.one_le_ceil_iff.2 h

theorem ceil_eq_one {t p : ℤ} (ht : 0 < t) (htp : t ≤ p) : ⌈(t : ℚ) / p⌉ = 1 := by
  have hp : (0 : ℚ) < p := by exact_mod_cast lt_of_lt_of_le ht htp
  refine le_antisymm ?_ (one_le_ceil ht (by omega))
  rw [Int.ceil_le, div_le_iff₀ hp]
  simpa using (by exact_mod_cast htp : (t : ℚ) ≤ p)

theorem ceil_mono {s t p : ℤ} (hp : 0 < p) (hst : s ≤ t) : ⌈(s : ℚ) / p⌉ ≤ ⌈(t : ℚ) / p⌉ := by
  have hp' : (0 : ℚ) < p := by exact_mod_cast hp
  exact Int.ceil_mono (div_le_div_of_nonneg_right (by exact_mod_cast hst) hp'.le)

/-- Releases are at integer instants: a real instant has seen those before the next integer. -/
theorem ceil_div_eq_ceil_ceil {K : Type*} [Field K] [LinearOrder K] [IsStrictOrderedRing K]
    [FloorRing K] (t : K) {p : ℤ} (hp : 0 < p) : ⌈t / p⌉ = ⌈(⌈t⌉ : ℚ) / p⌉ := by
  refine eq_of_forall_ge_iff fun n => ?_
  rw [Int.ceil_le, Int.ceil_le, div_le_iff₀ (by exact_mod_cast hp),
    div_le_iff₀ (by exact_mod_cast hp)]
  norm_cast
  rw [Int.ceil_le]

theorem floor_div_eq_floor_ediv {K : Type*} [Field K] [LinearOrder K] [IsStrictOrderedRing K]
    [FloorRing K] (t : K) {p : ℤ} (hp : 0 < p) : ⌊t / p⌋ = ⌊t⌋ / p := by
  refine eq_of_forall_le_iff fun n => ?_
  rw [Int.le_floor, Int.le_ediv_iff_mul_le hp, le_div_iff₀ (by exact_mod_cast hp), Int.le_floor]
  norm_cast

/-! ### Demand -/

/-- The work released before `t`. -/
def demand (cost period : α → ℤ) (xs : Multiset α) (t : ℤ) : ℤ :=
  (xs.map fun a => ⌈(t : ℚ) / period a⌉ * cost a).sum

@[simp] theorem demand_zero (t : ℤ) : demand cost period 0 t = 0 := by simp [demand]

@[simp] theorem demand_cons (a : α) (xs : Multiset α) (t : ℤ) :
    demand cost period (a ::ₘ xs) t = ⌈(t : ℚ) / period a⌉ * cost a + demand cost period xs t := by
  simp [demand]

@[simp] theorem demand_add (xs ys : Multiset α) (t : ℤ) :
    demand cost period (xs + ys) t = demand cost period xs t + demand cost period ys t := by
  simp [demand]

theorem demand_nonneg {xs : Multiset α} {t : ℤ} (hc : ∀ a ∈ xs, 0 ≤ cost a)
    (hp : ∀ a ∈ xs, 0 < period a) (ht : 0 < t) : 0 ≤ demand cost period xs t := by
  refine Multiset.sum_nonneg fun x hx => ?_
  obtain ⟨a, ha, rfl⟩ := Multiset.mem_map.1 hx
  exact mul_nonneg (by have := one_le_ceil ht (hp a ha); omega) (hc a ha)

/-- Fewer tasks release less. -/
theorem demand_mono {xs ys : Multiset α} {t : ℤ} (hle : ys ≤ xs) (hc : ∀ a ∈ xs, 0 ≤ cost a)
    (hp : ∀ a ∈ xs, 0 < period a) (ht : 0 < t) :
    demand cost period ys t ≤ demand cost period xs t := by
  obtain ⟨zs, rfl⟩ := Multiset.le_iff_exists_add.1 hle
  have hz : 0 ≤ demand cost period zs t :=
    demand_nonneg (fun a ha => hc a (Multiset.mem_add.2 (Or.inr ha)))
      (fun a ha => hp a (Multiset.mem_add.2 (Or.inr ha))) ht
  rw [demand_add]
  omega

/-- Cheaper tasks release less. -/
theorem demand_mono_cost {xs : Multiset α} {t : ℤ} (hc : ∀ a ∈ xs, cost' a ≤ cost a)
    (hp : ∀ a ∈ xs, 0 < period a) (ht : 0 < t) :
    demand cost' period xs t ≤ demand cost period xs t := by
  refine Multiset.sum_map_le_sum_map _ _ fun a ha => ?_
  exact mul_le_mul_of_nonneg_left (hc a ha) (by have := one_le_ceil ht (hp a ha); omega)

/-- More is released later. -/
theorem demand_mono_time {xs : Multiset α} {s t : ℤ} (hc : ∀ a ∈ xs, 0 ≤ cost a)
    (hp : ∀ a ∈ xs, 0 < period a) (hst : s ≤ t) :
    demand cost period xs s ≤ demand cost period xs t := by
  refine Multiset.sum_map_le_sum_map _ _ fun a ha => ?_
  exact mul_le_mul_of_nonneg_right (ceil_mono (hp a ha) hst) (hc a ha)

/-- Every task has released its cost at least once. -/
theorem sum_cost_le_demand {xs : Multiset α} {t : ℤ} (hc : ∀ a ∈ xs, 0 ≤ cost a)
    (hp : ∀ a ∈ xs, 0 < period a) (ht : 0 < t) : (xs.map cost).sum ≤ demand cost period xs t := by
  refine Multiset.sum_map_le_sum_map _ _ fun a ha => ?_
  exact le_mul_of_one_le_left (hc a ha) (one_le_ceil ht (hp a ha))

theorem cost_le_demand {xs : Multiset α} {t : ℤ} (hc : ∀ a ∈ xs, 0 ≤ cost a)
    (hp : ∀ a ∈ xs, 0 < period a) (ht : 0 < t) {a : α} (ha : a ∈ xs) :
    cost a ≤ demand cost period xs t := by
  refine le_trans ?_ (sum_cost_le_demand hc hp ht)
  refine Multiset.single_le_sum (fun x hx => ?_) _ (Multiset.mem_map_of_mem cost ha)
  obtain ⟨b, hb, rfl⟩ := Multiset.mem_map.1 hx
  exact hc b hb

/-! ### Utilisation -/

/-- The share of the processor that the tasks ask for. -/
def utilisation (cost period : α → ℤ) (xs : Multiset α) : ℚ :=
  (xs.map fun a => (cost a : ℚ) / period a).sum

/-- By `t` at least the share of `t` has been released. -/
theorem mul_utilisation_le_demand {xs : Multiset α} (t : ℤ) (hc : ∀ a ∈ xs, 0 ≤ cost a) :
    (t : ℚ) * utilisation cost period xs ≤ (demand cost period xs t : ℚ) := by
  rw [utilisation, demand, ← Multiset.sum_map_mul_left, Int.cast_multiset_sum, Multiset.map_map]
  refine Multiset.sum_map_le_sum_map _ _ fun a ha => ?_
  have hcost : (0 : ℚ) ≤ cost a := by exact_mod_cast hc a ha
  have hceil := mul_le_mul_of_nonneg_right (Int.le_ceil ((t : ℚ) / period a)) hcost
  simp only [Function.comp_apply, Int.cast_mul]
  calc (t : ℚ) * (cost a / period a) = t / period a * cost a := by ring
    _ ≤ _ := hceil

/-- Tasks whose demand some instant covers do not ask for more than the processor. -/
theorem utilisation_le_one {xs : Multiset α} {t : ℤ} (hc : ∀ a ∈ xs, 0 ≤ cost a) (ht : 0 < t)
    (h : demand cost period xs t ≤ t) : utilisation cost period xs ≤ 1 := by
  have hle : t * utilisation cost period xs ≤ _ := mul_utilisation_le_demand t hc
  have ht' : (0 : ℚ) < t := by exact_mod_cast ht
  have h' : (demand cost period xs t : ℚ) ≤ t := by exact_mod_cast h
  nlinarith

/-- With another task beside it, a task cannot have the processor to itself. -/
theorem cost_lt_period {a b : α} {xs : Multiset α} (hc : ∀ d ∈ a ::ₘ b ::ₘ xs, 0 < cost d)
    (hp : ∀ d ∈ a ::ₘ b ::ₘ xs, 0 < period d)
    (h : utilisation cost period (a ::ₘ b ::ₘ xs) ≤ 1) : cost a < period a := by
  have hshare : ∀ d ∈ a ::ₘ b ::ₘ xs, (0 : ℚ) < cost d / period d := fun d hd =>
    div_pos (by exact_mod_cast hc d hd) (by exact_mod_cast hp d hd)
  have hrest : 0 ≤ utilisation cost period xs := by
    refine Multiset.sum_nonneg fun x hx => ?_
    obtain ⟨d, hd, rfl⟩ := Multiset.mem_map.1 hx
    exact (hshare d (by simp [hd])).le
  have hb := hshare b (by simp)
  have hpa : (0 : ℚ) < period a := by exact_mod_cast hp a (by simp)
  simp only [utilisation, Multiset.map_cons, Multiset.sum_cons] at h hrest
  have hlt : (cost a : ℚ) / period a < 1 := by linarith
  rw [div_lt_one hpa] at hlt
  exact_mod_cast hlt

/-- Shares cut down to `m`-ths fit into `m`. -/
theorem sum_ediv_le {xs : Multiset α} {m : ℤ} (hp : ∀ a ∈ xs, 0 < period a) (hm : 0 ≤ m)
    (h : utilisation cost period xs ≤ 1) : (xs.map fun a => cost a * m / period a).sum ≤ m := by
  have hcut : (((xs.map fun a => cost a * m / period a).sum : ℤ) : ℚ) ≤
      m * utilisation cost period xs := by
    rw [utilisation, ← Multiset.sum_map_mul_left, Int.cast_multiset_sum, Multiset.map_map]
    refine Multiset.sum_map_le_sum_map _ _ fun a ha => ?_
    have hpa : (0 : ℚ) < period a := by exact_mod_cast hp a ha
    have hle : cost a * m / period a * period a ≤ cost a * m := Int.ediv_mul_le _ (hp a ha).ne'
    rw [Function.comp_apply, ← mul_div_assoc, le_div_iff₀ hpa, mul_comm (m : ℚ)]
    exact_mod_cast hle
  have hm' : (0 : ℚ) ≤ m := by exact_mod_cast hm
  have hsum : (((xs.map fun a => cost a * m / period a).sum : ℤ) : ℚ) ≤ m := by nlinarith
  exact_mod_cast hsum

/-- By `t` at most the share of `t` and one job of each task have been released. -/
theorem demand_le_mul_utilisation_add {xs : Multiset α} (t : ℤ) (hc : ∀ a ∈ xs, 0 ≤ cost a) :
    (demand cost period xs t : ℚ) ≤
      t * utilisation cost period xs + ((xs.map cost).sum : ℤ) := by
  rw [utilisation, demand, ← Multiset.sum_map_mul_left, Int.cast_multiset_sum,
    Int.cast_multiset_sum, Multiset.map_map, Multiset.map_map, ← Multiset.sum_map_add]
  refine Multiset.sum_map_le_sum_map _ _ fun a ha => ?_
  have hcost : (0 : ℚ) ≤ cost a := by exact_mod_cast hc a ha
  have hceil := mul_le_mul_of_nonneg_right (Int.ceil_lt_add_one ((t : ℚ) / period a)).le hcost
  simp only [Function.comp_apply, Int.cast_mul]
  calc _ ≤ _ := hceil
    _ = (t : ℚ) * (cost a / period a) + cost a := by ring

/-- Tasks that do not ask for more than the processor are behind by at most one job each. -/
theorem demand_le_add {xs : Multiset α} {t : ℤ} (hc : ∀ a ∈ xs, 0 ≤ cost a) (ht : 0 ≤ t)
    (h : utilisation cost period xs ≤ 1) :
    demand cost period xs t ≤ t + (xs.map cost).sum := by
  have hle : (demand cost period xs t : ℚ) ≤ _ := demand_le_mul_utilisation_add t hc
  have ht' : (0 : ℚ) ≤ t := by exact_mod_cast ht
  have hsum : (demand cost period xs t : ℚ) ≤ ((t + (xs.map cost).sum : ℤ) : ℚ) := by
    push_cast
    push_cast at hle
    nlinarith
  exact_mod_cast hsum

/-! ### Between two releases -/

/-- What is released up to and including an instant is released before the next one. -/
theorem ceil_succ (c : ℤ) {p : ℤ} (hp : 0 < p) : ⌈((c + 1 : ℤ) : ℚ) / p⌉ = c / p + 1 := by
  have hp' : (0 : ℚ) < p := by exact_mod_cast hp
  have hdiv := Int.emod_add_mul_ediv c p
  have hmod := Int.emod_nonneg c hp.ne'
  have hlt := Int.emod_lt_of_pos c hp
  rw [Int.ceil_eq_iff, lt_div_iff₀ hp', div_le_iff₀ hp']
  constructor <;> norm_cast <;> nlinarith

/-- Up to the next release the count of releases stays. -/
theorem ceil_const {c t p : ℤ} (hp : 0 < p) (hct : c ≤ t) (ht : t ≤ ⌈(c : ℚ) / p⌉ * p) :
    ⌈(t : ℚ) / p⌉ = ⌈(c : ℚ) / p⌉ := by
  refine le_antisymm ?_ (ceil_mono hp hct)
  rw [Int.ceil_le, div_le_iff₀ (by exact_mod_cast hp)]
  exact_mod_cast ht

theorem le_ceil_mul {t p : ℤ} (hp : 0 < p) : t ≤ ⌈(t : ℚ) / p⌉ * p := by
  have h := Int.le_ceil ((t : ℚ) / p)
  rw [div_le_iff₀ (by exact_mod_cast hp)] at h
  exact_mod_cast h

/-- Up to the next release of any task the demand stays. -/
theorem demand_const {xs : Multiset α} {c t : ℤ} (hp : ∀ a ∈ xs, 0 < period a) (hct : c ≤ t)
    (ht : ∀ a ∈ xs, t ≤ ⌈(c : ℚ) / period a⌉ * period a) :
    demand cost period xs t = demand cost period xs c := by
  unfold demand
  congr 1
  refine Multiset.map_congr rfl fun a ha => ?_
  rw [ceil_const (hp a ha) hct (ht a ha)]

/-- If the demand stays over an instant, no task is released at it. -/
theorem next_release {xs : Multiset α} {c : ℤ} (hc : ∀ a ∈ xs, 0 < cost a)
    (hp : ∀ a ∈ xs, 0 < period a)
    (h : demand cost period xs (c + 1) ≤ demand cost period xs c) {a : α} (ha : a ∈ xs) :
    c + 1 ≤ ⌈(c : ℚ) / period a⌉ * period a := by
  obtain ⟨ys, rfl⟩ := Multiset.exists_cons_of_mem ha
  have hrest : demand cost period ys c ≤ demand cost period ys (c + 1) :=
    demand_mono_time (fun b hb => (hc b (Multiset.mem_cons_of_mem hb)).le)
      (fun b hb => hp b (Multiset.mem_cons_of_mem hb)) (by omega)
  rw [demand_cons, demand_cons] at h
  have hle : ⌈((c + 1 : ℤ) : ℚ) / period a⌉ * cost a ≤ ⌈(c : ℚ) / period a⌉ * cost a := by omega
  have hceil := le_of_mul_le_mul_right hle (hc a ha)
  calc c + 1 ≤ ⌈((c + 1 : ℤ) : ℚ) / period a⌉ * period a := le_ceil_mul (hp a ha)
    _ ≤ ⌈(c : ℚ) / period a⌉ * period a := mul_le_mul_of_nonneg_right hceil (hp a ha).le

/-! ### Feasibility -/

/-- Every task has an instant within its period at which all work of at least its priority is
done; priority is by period. -/
def Feasible (cost period : α → ℤ) (xs : Multiset α) : Prop :=
  ∀ a ∈ xs, ∃ t : ℤ, 0 < t ∧ t ≤ period a ∧
    demand cost period (xs.filter fun b => period b ≤ period a) t ≤ t

/-- Removing tasks keeps a set feasible. -/
theorem Feasible.mono {xs ys : Multiset α} (h : Feasible cost period xs) (hle : ys ≤ xs)
    (hc : ∀ a ∈ xs, 0 ≤ cost a) (hp : ∀ a ∈ xs, 0 < period a) : Feasible cost period ys := by
  intro a ha
  obtain ⟨t, ht, htp, hd⟩ := h a (Multiset.mem_of_le hle ha)
  refine ⟨t, ht, htp, le_trans ?_ hd⟩
  exact demand_mono (Multiset.filter_le_filter _ hle)
    (fun b hb => hc b (Multiset.mem_of_mem_filter hb))
    (fun b hb => hp b (Multiset.mem_of_mem_filter hb)) ht

/-- Lowering costs keeps a set feasible. -/
theorem Feasible.mono_cost {xs : Multiset α} (h : Feasible cost period xs)
    (hc : ∀ a ∈ xs, cost' a ≤ cost a) (hp : ∀ a ∈ xs, 0 < period a) :
    Feasible cost' period xs := by
  intro a ha
  obtain ⟨t, ht, htp, hd⟩ := h a ha
  refine ⟨t, ht, htp, le_trans ?_ hd⟩
  exact demand_mono_cost (fun b hb => hc b (Multiset.mem_of_mem_filter hb))
    (fun b hb => hp b (Multiset.mem_of_mem_filter hb)) ht

/-- Lowering the cost of one task keeps a set feasible. -/
theorem Feasible.replace {a b : α} {xs : Multiset α} (h : Feasible cost period (a ::ₘ xs))
    (hc : cost b ≤ cost a) (hp : period b = period a) (hpos : 0 < period a) :
    Feasible cost period (b ::ₘ xs) := by
  have hdemand : ∀ p t : ℤ, 0 < t →
      demand cost period ((b ::ₘ xs).filter fun d => period d ≤ p) t ≤
        demand cost period ((a ::ₘ xs).filter fun d => period d ≤ p) t := by
    intro p t ht
    rw [Multiset.filter_cons, Multiset.filter_cons, hp]
    split_ifs
    · have hceil := one_le_ceil ht hpos
      rw [Multiset.singleton_add, Multiset.singleton_add, demand_cons, demand_cons, hp]
      exact add_le_add_left (mul_le_mul_of_nonneg_left hc (by omega)) _
    · exact le_rfl
  intro d hd
  rcases Multiset.mem_cons.1 hd with rfl | hd
  · obtain ⟨t, ht, htp, hle⟩ := h a (Multiset.mem_cons_self a xs)
    exact ⟨t, ht, hp ▸ htp, hp ▸ (hdemand (period a) t ht).trans hle⟩
  · obtain ⟨t, ht, htp, hle⟩ := h d (Multiset.mem_cons_of_mem hd)
    exact ⟨t, ht, htp, (hdemand (period d) t ht).trans hle⟩

theorem feasible_map {β : Type*} (g : β → α) (xs : Multiset β) :
    Feasible cost period (xs.map g) ↔
      Feasible (fun b => cost (g b)) (fun b => period (g b)) xs := by
  simp [Feasible, demand, Multiset.filter_map]

/-- The same test along a list in priority order. -/
def PrefixFeasible (cost period : α → ℤ) (l : List α) : Prop :=
  ∀ u a v, l = u ++ a :: v → ∃ t : ℤ, 0 < t ∧ t ≤ period a ∧
    demand cost period (↑(u ++ [a]) : Multiset α) t ≤ t

/-- In a list sorted by period, the tasks up to a given period are a prefix. -/
theorem filter_eq_takeWhile {l : List α} (hs : l.Pairwise fun a b => period a ≤ period b) (p : ℤ) :
    l.filter (fun b => period b ≤ p) = l.takeWhile fun b => period b ≤ p := by
  induction l with
  | nil => rfl
  | cons a l ih =>
    rw [List.pairwise_cons] at hs
    by_cases ha : period a ≤ p
    · simp [ha, ih hs.2]
    · have hnil : l.filter (fun b => period b ≤ p) = [] := by
        rw [List.filter_eq_nil_iff]
        intro b hb
        have := hs.1 b hb
        simp only [decide_eq_true_eq]
        omega
      simp [ha, hnil]

theorem prefixFeasible_iff {l : List α} (hs : l.Pairwise fun a b => period a ≤ period b)
    (hc : ∀ a ∈ l, 0 ≤ cost a) (hp : ∀ a ∈ l, 0 < period a) :
    PrefixFeasible cost period l ↔ Feasible cost period (↑l : Multiset α) := by
  constructor
  · -- a task is judged at the last one of its period
    intro h a ha
    have hamem : a ∈ l.takeWhile fun b => period b ≤ period a := by
      rw [← filter_eq_takeWhile hs, List.mem_filter]
      exact ⟨ha, by simp⟩
    obtain ⟨u, b, hub⟩ := (List.eq_nil_or_concat _).resolve_left (List.ne_nil_of_mem hamem)
    rw [List.concat_eq_append] at hub
    have hl : l = u ++ b :: l.dropWhile fun b => period b ≤ period a := by
      rw [List.append_cons, ← hub, List.takeWhile_append_dropWhile]
    have hbp : period b ≤ period a := by
      have hb : b ∈ l.filter fun b => period b ≤ period a := by
        rw [filter_eq_takeWhile hs, hub]
        simp
      simpa using (List.mem_filter.1 hb).2
    obtain ⟨t, ht, htp, hd⟩ := h u b _ hl
    refine ⟨t, ht, by omega, ?_⟩
    rw [Multiset.filter_coe, filter_eq_takeWhile hs, hub]
    exact hd
  · intro h u a v huv
    obtain ⟨t, ht, htp, hd⟩ := h a (by simp [huv])
    refine ⟨t, ht, htp, le_trans ?_ hd⟩
    have hsub : (↑(u ++ [a]) : Multiset α) ≤
        (↑l : Multiset α).filter fun b => period b ≤ period a := by
      rw [Multiset.filter_coe, Multiset.coe_le]
      have hall : (u ++ [a]).filter (fun b => period b ≤ period a) = u ++ [a] := by
        rw [List.filter_eq_self]
        intro b hb
        rw [huv, List.pairwise_append] at hs
        rcases List.mem_append.1 hb with hb | hb
        · simpa using hs.2.2 b hb a (by simp)
        · simp [List.mem_singleton.1 hb]
      rw [← hall, show l = u ++ [a] ++ v by rw [huv, List.append_assoc, List.singleton_append]]
      exact ((List.sublist_append_left (u ++ [a]) v).filter _).subperm
    exact demand_mono hsub (fun b hb => hc b (Multiset.mem_of_mem_filter hb))
      (fun b hb => hp b (Multiset.mem_of_mem_filter hb)) ht

end TimeDemand
