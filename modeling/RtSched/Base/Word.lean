import Mathlib.Data.BitVec
import Mathlib.Tactic

/-!
# Integers in registers

A register of `w` bits holds an integer modulo `2 ^ w`: `BitVec.ofInt w` is a ring homomorphism, so a
value computed by additions and multiplications alone is the register of the exact value, whatever
wrapped on the way (`ofInt_sum`).  Reading it back gives the exact value if that fits: unsigned
(`toNat_ofInt_of_lt`) or signed (`toInt_ofInt_of_lt`).  Divisions have to be made on values that fit
(`udiv_ofInt`, `sdiv_ofInt`, `srem_ofInt`).
-/

namespace Word

variable {w : ℕ} {a b : ℤ}

/-- Sums are taken in the registers. -/
theorem ofInt_sum {α : Type*} (f : α → ℤ) (l : List α) :
    (l.map fun x => BitVec.ofInt w (f x)).sum = BitVec.ofInt w (l.map f).sum := by
  induction l with
  | nil => rfl
  | cons x l ih =>
    rw [List.map_cons, List.sum_cons, ih, ← BitVec.ofInt_add, List.map_cons, List.sum_cons]

theorem ofInt_sub (a b : ℤ) : BitVec.ofInt w (a - b) = BitVec.ofInt w a - BitVec.ofInt w b := by
  rw [sub_eq_add_neg, BitVec.ofInt_add, BitVec.ofInt_neg, BitVec.sub_eq_add_neg]

/-- A register is the register of what it reads as. -/
theorem ofInt_toNat (x : BitVec w) : BitVec.ofInt w x.toNat = x := by
  apply BitVec.eq_of_toNat_eq
  rw [BitVec.toNat_ofInt, ← Int.natCast_emod, Int.toNat_natCast, Nat.mod_eq_of_lt x.isLt]

/-- An unsigned value that fits is read back. -/
theorem toNat_ofInt_of_lt (h0 : 0 ≤ a) (h : a < 2 ^ w) : ((BitVec.ofInt w a).toNat : ℤ) = a := by
  have hmod : a % ((2 ^ w : ℕ) : ℤ) = a := Int.emod_eq_of_lt h0 (by exact_mod_cast h)
  rw [BitVec.toNat_ofInt, hmod, Int.toNat_of_nonneg h0]

/-- Unsigned values that fit compare as the integers do. -/
theorem ofInt_le_iff (ha : 0 ≤ a) (ha' : a < 2 ^ w) (hb : 0 ≤ b) (hb' : b < 2 ^ w) :
    BitVec.ofInt w a ≤ BitVec.ofInt w b ↔ a ≤ b := by
  have h1 := toNat_ofInt_of_lt ha ha'
  have h2 := toNat_ofInt_of_lt hb hb'
  rw [BitVec.le_def]
  omega

theorem ofInt_lt_iff (ha : 0 ≤ a) (ha' : a < 2 ^ w) (hb : 0 ≤ b) (hb' : b < 2 ^ w) :
    BitVec.ofInt w a < BitVec.ofInt w b ↔ a < b := by
  have h1 := toNat_ofInt_of_lt ha ha'
  have h2 := toNat_ofInt_of_lt hb hb'
  rw [BitVec.lt_def]
  omega

/-- Unsigned division of values that fit. -/
theorem udiv_ofInt (ha : 0 ≤ a) (ha' : a < 2 ^ w) (hb : 0 ≤ b) (hb' : b < 2 ^ w) :
    BitVec.ofInt w a / BitVec.ofInt w b = BitVec.ofInt w (a / b) := by
  apply BitVec.eq_of_toNat_eq
  have hdiv : a / b < 2 ^ w := (Int.ediv_le_self b ha).trans_lt ha'
  have hread : ((BitVec.ofInt w a / BitVec.ofInt w b).toNat : ℤ) =
      (BitVec.ofInt w (a / b)).toNat := by
    rw [BitVec.toNat_udiv, Int.natCast_ediv, toNat_ofInt_of_lt ha ha', toNat_ofInt_of_lt hb hb',
      toNat_ofInt_of_lt (Int.ediv_nonneg ha hb) hdiv]
  exact_mod_cast hread

/-- Only the remainder counts. -/
theorem ofInt_emod (a : ℤ) : BitVec.ofInt w (a % 2 ^ w) = BitVec.ofInt w a := by
  apply BitVec.eq_of_toNat_eq
  rw [BitVec.toNat_ofInt, BitVec.toNat_ofInt]
  push_cast
  rw [Int.emod_emod_of_dvd _ dvd_rfl]

/-- A signed reading differs from the integer by a multiple of `2 ^ 32`, and fits. -/
theorem toInt_ofInt_32 (a : ℤ) : ∃ k : ℤ, (BitVec.ofInt 32 a).toInt = a + 4294967296 * k ∧
    -2147483648 ≤ (BitVec.ofInt 32 a).toInt ∧ (BitVec.ofInt 32 a).toInt < 2147483648 := by
  rw [BitVec.toInt_ofInt]
  refine ⟨-(Int.bdiv a (2 ^ 32)), ?_, ?_, ?_⟩
  · have := Int.bmod_add_bdiv a (2 ^ 32)
    omega
  · have := Int.le_bmod (x := a) (m := 2 ^ 32) (by decide)
    omega
  · have := Int.bmod_lt (x := a) (m := 2 ^ 32) (by decide)
    omega

theorem toInt_bounds_32 (x : BitVec 32) : -2147483648 ≤ x.toInt ∧ x.toInt < 2147483648 := by
  have h := toInt_ofInt_32 x.toInt
  rw [BitVec.ofInt_toInt] at h
  obtain ⟨-, -, h⟩ := h
  exact h

theorem ofInt_inj (ha : 0 ≤ a) (ha' : a < 2 ^ w) (hb : 0 ≤ b) (hb' : b < 2 ^ w) :
    BitVec.ofInt w a = BitVec.ofInt w b ↔ a = b := by
  constructor
  · intro h
    rw [← toNat_ofInt_of_lt ha ha', h, toNat_ofInt_of_lt hb hb']
  · rintro rfl
    rfl

/-- A value that is not negative and fits is read back signed as well. -/
theorem toInt_ofInt_of_lt (h0 : 0 ≤ a) (h : a < 2 ^ w) : (BitVec.ofInt (w + 1) a).toInt = a :=
  BitVec.toInt_ofInt_eq_self w.succ_pos (le_trans (neg_nonpos.2 (by positivity)) h0) h

/-- Signed division rounds toward zero. -/
theorem sdiv_eq_ofInt (x y : BitVec w) : x.sdiv y = BitVec.ofInt w (x.toInt.tdiv y.toInt) := by
  apply BitVec.eq_of_toInt_eq
  rw [BitVec.toInt_sdiv, BitVec.toInt_ofInt]

/-- Signed division of values that fit. -/
theorem sdiv_ofInt (ha : 0 ≤ a) (ha' : a < 2 ^ w) (hb : 0 < b) (hb' : b < 2 ^ w) :
    (BitVec.ofInt (w + 1) a).sdiv (BitVec.ofInt (w + 1) b) = BitVec.ofInt (w + 1) (a.tdiv b) := by
  rw [sdiv_eq_ofInt, toInt_ofInt_of_lt ha ha', toInt_ofInt_of_lt hb.le hb']

/-- Signed remainder of values that fit. -/
theorem srem_ofInt (ha : 0 ≤ a) (ha' : a < 2 ^ w) (hb : 0 < b) (hb' : b < 2 ^ w) :
    ((BitVec.ofInt (w + 1) a).srem (BitVec.ofInt (w + 1) b)).toInt = a.tmod b := by
  rw [BitVec.toInt_srem, toInt_ofInt_of_lt ha ha', toInt_ofInt_of_lt hb.le hb']

end Word
