import RtSched.Base.Word
import RtSched.Timespec

/-!
# Periods in 32-bit arithmetic (`sys_setProcessBudget`)

On the 32-bit target both fields of a `struct timespec` are signed 32-bit numbers.
`sys_setProcessBudget` accepts a period as soon as one of them is positive and the budget compares as
less; it does not ask for normalised nanoseconds.  `check_admission` then works with the period in
microseconds, `convert_to_usecs`, and `add_periodic_task` with `timespec_compare`.

`periods_convert_iff` is the exact condition under which the microseconds are those of the period,
at least one, and in the order of `timespec_compare`; by `periods_convert_ordinary` it covers all
normalised periods from one microsecond to 2147 seconds.
-/

namespace RtSched

open Word

/-- `struct timespec`; both fields are signed. -/
structure Timespec32 where
  tvSec : BitVec 32
  tvNsec : BitVec 32
  deriving DecidableEq, Repr

/-- `convert_to_usecs`. -/
def convertToUsecs32 (time : Timespec32) : BitVec 32 :=
  time.tvSec * 1000000 + time.tvNsec.sdiv 1000

/-- `timespec_compare`. -/
def timespecCompare32 (lhs rhs : Timespec32) : BitVec 32 :=
  if lhs.tvSec.toInt < rhs.tvSec.toInt then -1
  else if lhs.tvSec.toInt > rhs.tvSec.toInt then 1
  else lhs.tvNsec - rhs.tvNsec

/-- The budget in time at the maximum frequency (in MHz), from cycles.  `temp_time` is an
`unsigned long`; `ns_to_timespec` takes it as a 64-bit number. -/
def taskBudgetOf32 (maxFrequency budget : BitVec 32) : Timespec32 :=
  let tempTime := budget / maxFrequency * 1000
  let taskBudget := nsToTimespec tempTime.toNat
  ⟨BitVec.ofInt 32 taskBudget.tvSec, BitVec.ofInt 32 taskBudget.tvNsec⟩

/-- The checks of `sys_setProcessBudget` before `check_admission`. -/
def passesChecks32 (maxFrequency budget : BitVec 32) (period : Timespec32) : Bool :=
  (decide (period.tvSec.toInt > 0) || decide (period.tvNsec.toInt > 0)) &&
    decide ((timespecCompare32 (taskBudgetOf32 maxFrequency budget) period).toInt < 0)

/-- The period in nanoseconds. -/
def Timespec32.ns (ts : Timespec32) : ℤ := ts.tvSec.toInt * 1000000000 + ts.tvNsec.toInt

/-- The microseconds are those of the period, and at least one. -/
structure Faithful (p : Timespec32) : Prop where
  exact : (convertToUsecs32 p).toInt = p.ns / 1000
  pos : 1 ≤ (convertToUsecs32 p).toInt

/-- A period that `timespec_compare` does not put after another has no more microseconds. -/
def SameOrder (p q : Timespec32) : Prop :=
  ((timespecCompare32 p q).toInt ≤ 0 → (convertToUsecs32 p).toInt ≤ (convertToUsecs32 q).toInt) ∧
    ((timespecCompare32 q p).toInt ≤ 0 → (convertToUsecs32 q).toInt ≤ (convertToUsecs32 p).toInt)

/-- At least a microsecond, less than `2 ^ 31` of them, and no fraction of a microsecond below zero
nanoseconds. -/
structure Convertible (p : Timespec32) : Prop where
  pos : 1 ≤ p.ns / 1000
  lt : p.ns / 1000 < 2 ^ 31
  whole : 0 ≤ p.tvNsec.toInt ∨ 1000 ∣ p.tvNsec.toInt

/-- The seconds decide: the period with fewer of them is not longer.  With equally many, the
difference of the nanoseconds does not wrap. -/
structure SecondsDecide (p q : Timespec32) : Prop where
  lt : p.tvSec.toInt < q.tvSec.toInt → p.ns / 1000 ≤ q.ns / 1000
  gt : q.tvSec.toInt < p.tvSec.toInt → q.ns / 1000 ≤ p.ns / 1000
  eq : p.tvSec.toInt = q.tvSec.toInt → |p.tvNsec.toInt - q.tvNsec.toInt| < 2 ^ 31

/-- Normalised, and from one microsecond to 2147 seconds long. -/
structure Timespec32.Ordinary (p : Timespec32) : Prop where
  nonneg : 0 ≤ p.tvNsec.toInt
  lt : p.tvNsec.toInt < 1000000000
  least : 1000 ≤ p.ns
  most : p.ns ≤ 2147 * 1000000000

section Convert

variable {p q : Timespec32}

theorem convertToUsecs32_eq (p : Timespec32) : convertToUsecs32 p =
    BitVec.ofInt 32 (p.tvSec.toInt * 1000000 + p.tvNsec.toInt.tdiv 1000) := by
  rw [convertToUsecs32, sdiv_eq_ofInt, BitVec.ofInt_add, BitVec.ofInt_mul, BitVec.ofInt_toInt]
  rfl

/-- Rounding toward zero is rounding down, except for a fraction below zero. -/
theorem tdiv_thousand (n : ℤ) : n.tdiv 1000 = n / 1000 ∧ (0 ≤ n ∨ 1000 ∣ n) ∨
    n.tdiv 1000 = n / 1000 + 1 ∧ ¬ (0 ≤ n ∨ 1000 ∣ n) := by
  rw [Int.tdiv_eq_ediv]
  split_ifs with h
  · exact Or.inl ⟨add_zero _, h⟩
  · exact Or.inr ⟨rfl, h⟩

theorem faithful_iff : Faithful p ↔ Convertible p := by
  obtain ⟨k, hk, hlo, hhi⟩ := toInt_ofInt_32 (p.tvSec.toInt * 1000000 + p.tvNsec.toInt.tdiv 1000)
  rw [← convertToUsecs32_eq] at hk hlo hhi
  have hns : p.ns / 1000 = p.tvSec.toInt * 1000000 + p.tvNsec.toInt / 1000 := by
    unfold Timespec32.ns
    omega
  have hround := tdiv_thousand p.tvNsec.toInt
  constructor
  · rintro ⟨hexact, hpos⟩
    exact ⟨by omega, by omega, by omega⟩
  · rintro ⟨hpos, hlt, hwhole⟩
    exact ⟨by omega, by omega⟩

/-- What `timespec_compare` says about periods with as many seconds. -/
theorem timespecCompare32_le_iff (h : p.tvSec.toInt = q.tvSec.toInt) :
    (timespecCompare32 p q).toInt ≤ 0 ↔
      -2147483648 ≤ p.tvNsec.toInt - q.tvNsec.toInt ∧ p.tvNsec.toInt ≤ q.tvNsec.toInt ∨
        2147483648 ≤ p.tvNsec.toInt - q.tvNsec.toInt := by
  have hsub : p.tvNsec - q.tvNsec = BitVec.ofInt 32 (p.tvNsec.toInt - q.tvNsec.toInt) := by
    rw [ofInt_sub, BitVec.ofInt_toInt, BitVec.ofInt_toInt]
  obtain ⟨k, hk, hlo, hhi⟩ := toInt_ofInt_32 (p.tvNsec.toInt - q.tvNsec.toInt)
  have hp := toInt_bounds_32 p.tvNsec
  have hq := toInt_bounds_32 q.tvNsec
  rw [timespecCompare32, if_neg (by omega), if_neg (by omega), hsub]
  omega

/-- For faithful periods the order is right exactly if the seconds decide. -/
theorem sameOrder_iff (hp : Convertible p) (hq : Convertible q) :
    SameOrder p q ↔ SecondsDecide p q := by
  have hp' := (faithful_iff.2 hp).exact
  have hq' := (faithful_iff.2 hq).exact
  rw [SameOrder, hp', hq']
  rcases lt_trichotomy p.tvSec.toInt q.tvSec.toInt with hlt | heq | hgt
  · have h1 : timespecCompare32 p q = -1 := if_pos hlt
    have h2 : timespecCompare32 q p = 1 := by
      rw [timespecCompare32, if_neg (by omega), if_pos hlt]
    rw [h1, h2]
    constructor
    · exact fun h => ⟨fun _ => h.1 (by decide), fun hgt => absurd hgt (by omega), fun heq => by omega⟩
    · exact fun h => ⟨fun _ => h.lt hlt, fun hno => absurd hno (by decide)⟩
  · rw [timespecCompare32_le_iff heq, timespecCompare32_le_iff heq.symm]
    have hnp : p.ns = p.tvSec.toInt * 1000000000 + p.tvNsec.toInt := rfl
    have hnq : q.ns = q.tvSec.toInt * 1000000000 + q.tvNsec.toInt := rfl
    constructor
    · intro h
      refine ⟨fun hlt => absurd hlt (by omega), fun hgt => absurd hgt (by omega), fun _ => ?_⟩
      rw [abs_lt]
      omega
    · intro h
      have habs := abs_lt.1 (h.eq heq)
      omega
  · have h1 : timespecCompare32 p q = 1 := by
      rw [timespecCompare32, if_neg (by omega), if_pos hgt]
    have h2 : timespecCompare32 q p = -1 := if_pos hgt
    rw [h1, h2]
    constructor
    · exact fun h => ⟨fun hlt => absurd hlt (by omega), fun _ => h.2 (by decide), fun heq => by omega⟩
    · exact fun h => ⟨fun hno => absurd hno (by decide), fun _ => h.gt hgt⟩

theorem Timespec32.Ordinary.convertible (h : p.Ordinary) : Convertible p := by
  have hleast := h.least
  have hmost := h.most
  exact ⟨by omega, by omega, Or.inl h.nonneg⟩

theorem Timespec32.Ordinary.secondsDecide (hp : p.Ordinary) (hq : q.Ordinary) :
    SecondsDecide p q := by
  obtain ⟨hp0, hp1, -, -⟩ := hp
  obtain ⟨hq0, hq1, -, -⟩ := hq
  refine ⟨fun hlt => ?_, fun hgt => ?_, fun _ => abs_lt.2 ⟨by omega, by omega⟩⟩
  · unfold Timespec32.ns
    omega
  · unfold Timespec32.ns
    omega

/-- Ordinary periods convert faithfully. -/
theorem periods_convert_ordinary (hp : p.Ordinary) (hq : q.Ordinary) :
    Faithful p ∧ Faithful q ∧ SameOrder p q :=
  ⟨faithful_iff.2 hp.convertible, faithful_iff.2 hq.convertible,
    (sameOrder_iff hp.convertible hq.convertible).2 (hp.secondsDecide hq)⟩

end Convert

/-- **When periods convert faithfully.**  Two periods have the right number of microseconds, at least
one, and stand in the same order for `timespec_compare` and for `check_admission`, exactly if both
are convertible and the seconds decide. -/
theorem periods_convert_iff (p q : Timespec32) :
    Faithful p ∧ Faithful q ∧ SameOrder p q ↔
      Convertible p ∧ Convertible q ∧ SecondsDecide p q := by
  rw [faithful_iff, faithful_iff]
  exact and_congr_right fun hp => and_congr_right fun hq => sameOrder_iff hp hq

/-- A period of 500 ns passes the checks and has no microsecond. -/
theorem periods_convert_short :
    ¬ ∀ maxFrequency budget budget' : BitVec 32, maxFrequency ≠ 0 → ∀ p q : Timespec32,
      passesChecks32 maxFrequency budget p = true → passesChecks32 maxFrequency budget' q = true →
        Faithful p ∧ Faithful q ∧ SameOrder p q := by
  intro hall
  have h := (hall 1000 0 0 (by decide) ⟨0, 500⟩ ⟨0, 500⟩ (by decide) (by decide)).1.pos
  revert h
  decide

end RtSched
