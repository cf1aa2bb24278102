import Mathlib.Tactic

/-!
# Time values (`include/linux/time.h`, `kernel/time.c`)

`struct timespec` and the functions on it that the real-time extension uses.  The two fields are
unbounded integers; a value is normalised when the nanoseconds are in `[0, 10⁹)`, and on normalised
values every function is the plain one on the number of nanoseconds `timespecToNs`.
-/

namespace RtSched

/-- `struct timespec`. -/
@[ext] structure Timespec where
  tvSec : ℤ
  tvNsec : ℤ
  deriving DecidableEq, Repr

/-- `timespec_compare`: negative, zero or positive as `lhs` is before, at or after `rhs`. -/
def timespecCompare (lhs rhs : Timespec) : ℤ :=
  if lhs.tvSec < rhs.tvSec then -1
  else if lhs.tvSec > rhs.tvSec then 1
  else lhs.tvNsec - rhs.tvNsec

/-- `timespec_to_ns`. -/
def timespecToNs (ts : Timespec) : ℤ := ts.tvSec * 1000000000 + ts.tvNsec

/-- `ns_to_timespec`. -/
def nsToTimespec (nsec : ℤ) : Timespec :=
  if nsec = 0 then ⟨0, 0⟩
  else
    let sec := nsec.tdiv 1000000000
    let rem := nsec.tmod 1000000000
    if rem < 0 then ⟨sec - 1, rem + 1000000000⟩ else ⟨sec, rem⟩

/-- `set_normalized_timespec`: its two loops carry whole seconds over until the nanoseconds are in
range. -/
def setNormalizedTimespec (sec nsec : ℤ) : Timespec :=
  ⟨sec + nsec / 1000000000, nsec % 1000000000⟩

/-- `timespec_add`. -/
def timespecAdd (lhs rhs : Timespec) : Timespec :=
  setNormalizedTimespec (lhs.tvSec + rhs.tvSec) (lhs.tvNsec + rhs.tvNsec)

/-- `timespec_sub`. -/
def timespecSub (lhs rhs : Timespec) : Timespec :=
  setNormalizedTimespec (lhs.tvSec - rhs.tvSec) (lhs.tvNsec - rhs.tvNsec)

/-- `convert_to_usecs` (`kernel/sched.c`). -/
def convertToUsecs (time : Timespec) : ℤ := time.tvSec * 1000000 + time.tvNsec.tdiv 1000

/-! ### Normalised values -/

/-- The nanoseconds are in range. -/
def Timespec.Normalised (ts : Timespec) : Prop := 0 ≤ ts.tvNsec ∧ ts.tvNsec < 1000000000

instance (ts : Timespec) : Decidable ts.Normalised := by
  unfold Timespec.Normalised; infer_instance

theorem setNormalizedTimespec_normalised (sec nsec : ℤ) :
    (setNormalizedTimespec sec nsec).Normalised :=
  ⟨Int.emod_nonneg _ (by norm_num), Int.emod_lt_of_pos _ (by norm_num)⟩

@[simp] theorem timespecToNs_setNormalizedTimespec (sec nsec : ℤ) :
    timespecToNs (setNormalizedTimespec sec nsec) = sec * 1000000000 + nsec := by
  have := Int.emod_add_mul_ediv nsec 1000000000
  simp only [timespecToNs, setNormalizedTimespec]
  linarith

@[simp] theorem timespecToNs_add (a b : Timespec) :
    timespecToNs (timespecAdd a b) = timespecToNs a + timespecToNs b := by
  rw [timespecAdd, timespecToNs_setNormalizedTimespec]
  unfold timespecToNs
  ring

@[simp] theorem timespecToNs_sub (a b : Timespec) :
    timespecToNs (timespecSub a b) = timespecToNs a - timespecToNs b := by
  rw [timespecSub, timespecToNs_setNormalizedTimespec]
  unfold timespecToNs
  ring

theorem nsToTimespec_of_nonneg {ns : ℤ} (h : 0 ≤ ns) :
    nsToTimespec ns = ⟨ns / 1000000000, ns % 1000000000⟩ := by
  have hr := Int.emod_nonneg ns (by norm_num : (1000000000 : ℤ) ≠ 0)
  unfold nsToTimespec
  rw [Int.tdiv_eq_ediv_of_nonneg h, Int.tmod_eq_emod_of_nonneg h]
  by_cases h0 : ns = 0
  · subst h0; rfl
  · simp only [if_neg h0, if_neg (not_lt.2 hr)]

theorem nsToTimespec_normalised {ns : ℤ} (h : 0 ≤ ns) : (nsToTimespec ns).Normalised := by
  rw [nsToTimespec_of_nonneg h]
  exact ⟨Int.emod_nonneg _ (by norm_num), Int.emod_lt_of_pos _ (by norm_num)⟩

/-- The conversion to a timespec and back loses nothing. -/
@[simp] theorem timespecToNs_nsToTimespec (ns : ℤ) : timespecToNs (nsToTimespec ns) = ns := by
  have := Int.mul_tdiv_add_tmod ns 1000000000
  simp only [nsToTimespec]
  split_ifs with h0 h1
  · subst h0; rfl
  · simp only [timespecToNs]; linarith
  · simp only [timespecToNs]; linarith

/-- On normalised values, microseconds are nanoseconds divided by a thousand. -/
theorem convertToUsecs_eq {ts : Timespec} (h : ts.Normalised) :
    convertToUsecs ts = timespecToNs ts / 1000 := by
  obtain ⟨h0, -⟩ := h
  rw [convertToUsecs, Int.tdiv_eq_ediv_of_nonneg h0, timespecToNs]
  omega

/-! ### The order -/

theorem timespecCompare_pos_iff {a b : Timespec} : 0 < timespecCompare a b ↔
    b.tvSec < a.tvSec ∨ a.tvSec = b.tvSec ∧ b.tvNsec < a.tvNsec := by
  unfold timespecCompare; split_ifs <;> omega

theorem timespecCompare_neg_iff {a b : Timespec} : timespecCompare a b < 0 ↔
    a.tvSec < b.tvSec ∨ a.tvSec = b.tvSec ∧ a.tvNsec < b.tvNsec := by
  unfold timespecCompare; split_ifs <;> omega

theorem timespecCompare_le_iff {a b : Timespec} : timespecCompare a b ≤ 0 ↔
    a.tvSec < b.tvSec ∨ a.tvSec = b.tvSec ∧ a.tvNsec ≤ b.tvNsec := by
  unfold timespecCompare; split_ifs <;> omega

theorem timespecCompare_eq_zero_iff {a b : Timespec} : timespecCompare a b = 0 ↔ a = b := by
  rw [Timespec.ext_iff]
  constructor
  · unfold timespecCompare
    split_ifs
    · exact False.elim
    · exact fun h => by omega
    · exact fun h => by omega
  · rintro ⟨h1, h2⟩
    simp [timespecCompare, h1, h2]

theorem timespecCompare_le_trans {a b c : Timespec} (hab : timespecCompare a b ≤ 0)
    (hbc : timespecCompare b c ≤ 0) : timespecCompare a c ≤ 0 := by
  rw [timespecCompare_le_iff] at *
  omega

theorem timespecCompare_neg_symm {a b : Timespec} :
    timespecCompare a b < 0 ↔ 0 < timespecCompare b a := by
  rw [timespecCompare_neg_iff, timespecCompare_pos_iff]
  omega

/-- On normalised values the comparison is that of the nanoseconds. -/
theorem timespecCompare_pos_iff_ns {a b : Timespec} (ha : a.Normalised) (hb : b.Normalised) :
    0 < timespecCompare a b ↔ timespecToNs b < timespecToNs a := by
  obtain ⟨ha0, ha1⟩ := ha
  obtain ⟨hb0, hb1⟩ := hb
  rw [timespecCompare_pos_iff]
  unfold timespecToNs
  omega

theorem timespecCompare_le_iff_ns {a b : Timespec} (ha : a.Normalised) (hb : b.Normalised) :
    timespecCompare a b ≤ 0 ↔ timespecToNs a ≤ timespecToNs b := by
  rw [← not_lt, timespecCompare_pos_iff_ns ha hb, not_lt]

/-- Microseconds follow the order of normalised periods. -/
theorem convertToUsecs_mono {a b : Timespec} (ha : a.Normalised) (hb : b.Normalised)
    (hab : timespecCompare a b ≤ 0) : convertToUsecs a ≤ convertToUsecs b := by
  rw [convertToUsecs_eq ha, convertToUsecs_eq hb]
  rw [timespecCompare_le_iff_ns ha hb] at hab
  omega

end RtSched
