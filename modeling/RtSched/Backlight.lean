import RtSched.Base.Call
import RtSched.Task

/-!
# The brightness of all backlights (`drivers/video/backlight/backlight.c`)

`set_brightness` runs `__set_brightness` on every registered device, until one returns an error.  A
device refuses a value above its maximum, and its error exit leaves the function with `ops_lock`
held: the devices behind it are not reached, and the next call waits for the lock for ever.

* `setBrightnessDevice`, `classForEachDevice`, `setBrightness`: the functions;
* `Settled`: what a call is meant to leave;
* `setBrightness_accepted`, `setBrightness_refused`: a call that all devices accept, and one that
  some device refuses;
* `setBrightness_settled_iff`: every call of a sequence leaves the devices settled exactly if no
  device refuses a value.
-/

namespace RtSched

/-- `struct backlight_device`.  The two numbers are `int`s; `ops` is whether there are any, and
`opsLock` whether the lock is held. -/
structure BacklightDevice where
  maxBrightness : BitVec 32
  brightness : BitVec 32
  ops : Bool
  opsLock : Bool
  deriving DecidableEq, Repr

/-- `__set_brightness`: the device after it and the return value.  The value is an `unsigned long`,
so the comparison is unsigned.  A held lock is never released, and `mutex_lock` waits for it. -/
def setBrightnessDevice (brightness : BitVec 32) (bd : BacklightDevice) :
    Call BacklightDevice (BacklightDevice × ℤ) :=
  if bd.opsLock then .error (.spins, bd)
  else
    let bd := { bd with opsLock := true }
    if bd.ops then
      -- the lock is not released on this path
      if brightness > bd.maxBrightness then pure (bd, -einval)
      else pure ({ bd with brightness := brightness, opsLock := false }, 0)
    else pure ({ bd with opsLock := false }, 0)

/-- `class_for_each_device`: the devices in turn, up to the first error. -/
def classForEachDevice {δ : Type} (fn : δ → Call δ (δ × ℤ)) : List δ → Call (List δ) (List δ × ℤ)
  | [] => pure ([], 0)
  | dev :: devs =>
      match fn dev with
      | .error (trap, dev) => .error (trap, dev :: devs)
      | .ok (dev, error) =>
          if error ≠ 0 then pure (dev :: devs, error)
          else match classForEachDevice fn devs with
            | .error (trap, devs) => .error (trap, dev :: devs)
            | .ok (devs, error) => pure (dev :: devs, error)

/-- `set_brightness`; the class is there since the kernel booted. -/
def setBrightness (brightness : BitVec 32) (devs : List BacklightDevice) :
    Call (List BacklightDevice) (List BacklightDevice) := do
  let (devs, _) ← classForEachDevice (setBrightnessDevice brightness) devs
  pure devs

/-- What a call is meant to leave: free locks, no brightness above the maximum, and the value
wherever it is allowed. -/
structure Settled (value : BitVec 32) (devs : List BacklightDevice) : Prop where
  free : ∀ bd ∈ devs, bd.opsLock = false
  le_max : ∀ bd ∈ devs, bd.brightness.toInt ≤ bd.maxBrightness.toInt
  value_set : ∀ bd ∈ devs, bd.ops = true → value.toInt ≤ bd.maxBrightness.toInt →
    bd.brightness = value

/-- Every call of the sequence returns and leaves the devices settled. -/
def SettledThroughout : List (BitVec 32) → List BacklightDevice → Prop
  | [], _ => True
  | value :: values, devs => ∃ devs', setBrightness value devs = .ok devs' ∧ Settled value devs' ∧
      SettledThroughout values devs'

/-! ### One device -/

section Device

variable {δ : Type} {fn : δ → Call δ (δ × ℤ)} {g : δ → δ} {value : BitVec 32} {bd : BacklightDevice}
  {devs : List BacklightDevice}

/-- The value is not refused. -/
def BacklightDevice.Accepts (value : BitVec 32) (bd : BacklightDevice) : Prop :=
  bd.ops = true → value ≤ bd.maxBrightness

instance (value : BitVec 32) (bd : BacklightDevice) : Decidable (bd.Accepts value) :=
  inferInstanceAs (Decidable (bd.ops = true → value ≤ bd.maxBrightness))

/-- The device with a new value, if it has operations. -/
def BacklightDevice.put (value : BitVec 32) (bd : BacklightDevice) : BacklightDevice :=
  if bd.ops then { bd with brightness := value } else bd

@[simp] theorem BacklightDevice.put_maxBrightness :
    (bd.put value).maxBrightness = bd.maxBrightness := by
  unfold BacklightDevice.put
  split_ifs <;> rfl

@[simp] theorem BacklightDevice.put_ops : (bd.put value).ops = bd.ops := by
  unfold BacklightDevice.put
  split_ifs <;> rfl

@[simp] theorem BacklightDevice.put_opsLock : (bd.put value).opsLock = bd.opsLock := by
  unfold BacklightDevice.put
  split_ifs <;> rfl

theorem setBrightnessDevice_accepted (hfree : bd.opsLock = false) (h : bd.Accepts value) :
    setBrightnessDevice value bd = .ok (bd.put value, 0) := by
  obtain ⟨maxBrightness, brightness, ops, opsLock⟩ := bd
  obtain rfl : opsLock = false := hfree
  cases ops with
  | false => rfl
  | true =>
    have hle : ¬ value > maxBrightness := BitVec.not_lt.2 (h rfl)
    simp only [setBrightnessDevice, BacklightDevice.put, hle, Bool.false_eq_true, if_false, if_true]
    rfl

/-- A device that refuses the value keeps its lock. -/
theorem setBrightnessDevice_refused (hfree : bd.opsLock = false) (h : ¬ bd.Accepts value) :
    setBrightnessDevice value bd = .ok ({ bd with opsLock := true }, -einval) := by
  obtain ⟨hops, hgt⟩ := Classical.not_imp.1 h
  rw [setBrightnessDevice, hfree]
  simp only [Bool.false_eq_true, if_false]
  rw [if_pos hops, if_pos (BitVec.not_le.1 hgt)]
  rfl

/-! ### All devices -/

theorem classForEachDevice_ok {devs : List δ} (h : ∀ d ∈ devs, fn d = .ok (g d, 0)) :
    classForEachDevice fn devs = .ok (devs.map g, 0) := by
  induction devs with
  | nil => rfl
  | cons d devs ih =>
    obtain ⟨hd, hdevs⟩ := List.forall_mem_cons.1 h
    simp only [classForEachDevice, hd, ih hdevs, ne_eq, not_true_eq_false, if_false]
    rfl

/-- The devices behind the first error are not reached. -/
theorem classForEachDevice_error {pre devs : List δ} {d d' : δ} {error : ℤ}
    (hpre : ∀ d ∈ pre, fn d = .ok (g d, 0)) (hd : fn d = .ok (d', error)) (herror : error ≠ 0) :
    classForEachDevice fn (pre ++ d :: devs) = .ok (pre.map g ++ d' :: devs, error) := by
  induction pre with
  | nil =>
    simp only [List.nil_append, classForEachDevice, hd, if_pos herror]
    rfl
  | cons b pre ih =>
    obtain ⟨hb, hpre⟩ := List.forall_mem_cons.1 hpre
    simp only [List.cons_append, classForEachDevice, hb, ih hpre, ne_eq, not_true_eq_false, if_false]
    rfl

/-- A value that every device accepts is set everywhere. -/
theorem setBrightness_accepted (hfree : ∀ bd ∈ devs, bd.opsLock = false)
    (h : ∀ bd ∈ devs, bd.Accepts value) :
    setBrightness value devs = .ok (devs.map (BacklightDevice.put value)) := by
  rw [setBrightness, classForEachDevice_ok fun bd hbd =>
    setBrightnessDevice_accepted (hfree bd hbd) (h bd hbd)]
  rfl

/-- A value that some device refuses leaves a lock held. -/
theorem setBrightness_refused (hfree : ∀ bd ∈ devs, bd.opsLock = false)
    (h : ¬ ∀ bd ∈ devs, bd.Accepts value) :
    ∃ devs', setBrightness value devs = .ok devs' ∧ ∃ bd ∈ devs', bd.opsLock = true := by
  -- the first device that refuses
  obtain ⟨pre, bd, post, rfl, hpre, hbd⟩ : ∃ pre bd post, devs = pre ++ bd :: post ∧
      (∀ b ∈ pre, b.Accepts value) ∧ ¬ bd.Accepts value := by
    induction devs with
    | nil => exact absurd (fun _ hb => absurd hb List.not_mem_nil) h
    | cons b devs ih =>
      by_cases hb : b.Accepts value
      · obtain ⟨pre, bd, post, rfl, hpre, hbd⟩ := ih (fun d hd => hfree d (List.mem_cons_of_mem _ hd))
          fun hall => h (List.forall_mem_cons.2 ⟨hb, hall⟩)
        exact ⟨b :: pre, bd, post, rfl, List.forall_mem_cons.2 ⟨hb, hpre⟩, hbd⟩
      · exact ⟨[], b, devs, rfl, fun _ hd => absurd hd List.not_mem_nil, hb⟩
  have herror : -einval ≠ 0 := by decide
  refine ⟨pre.map (BacklightDevice.put value) ++ { bd with opsLock := true } :: post, ?_,
    { bd with opsLock := true }, by simp, rfl⟩
  rw [setBrightness, classForEachDevice_error (fun b hb => setBrightnessDevice_accepted
    (hfree b (by simp [hb])) (hpre b hb)) (setBrightnessDevice_refused (hfree bd (by simp)) hbd)
    herror]
  rfl

/-- Accepted values leave the devices settled exactly if they and the brightness of the devices
without operations are within the maximum. -/
theorem settled_map_put_iff (hfree : ∀ bd ∈ devs, bd.opsLock = false) :
    Settled value (devs.map (BacklightDevice.put value)) ↔
      ∀ bd ∈ devs, (if bd.ops then value else bd.brightness).toInt ≤ bd.maxBrightness.toInt := by
  have hput : ∀ bd : BacklightDevice,
      (bd.put value).brightness = if bd.ops then value else bd.brightness := by
    intro bd
    unfold BacklightDevice.put
    split_ifs <;> rfl
  constructor
  · intro h bd hbd
    have hle := h.le_max _ (List.mem_map_of_mem hbd)
    rwa [hput, BacklightDevice.put_maxBrightness] at hle
  · intro h
    refine ⟨?_, ?_, ?_⟩ <;> rw [List.forall_mem_map] <;> intro bd hbd
    · rw [BacklightDevice.put_opsLock]
      exact hfree bd hbd
    · rw [hput, BacklightDevice.put_maxBrightness]
      exact h bd hbd
    · intro hops _
      rw [BacklightDevice.put_ops] at hops
      rw [hput, if_pos hops]

/-- The first call of a sequence. -/
theorem settledThroughout_cons (hfree : ∀ bd ∈ devs, bd.opsLock = false)
    (values : List (BitVec 32)) :
    SettledThroughout (value :: values) devs ↔
      ((∀ bd ∈ devs, bd.ops = true →
          value ≤ bd.maxBrightness ∧ value.toInt ≤ bd.maxBrightness.toInt) ∧
        ∀ bd ∈ devs, bd.ops = false → bd.brightness.toInt ≤ bd.maxBrightness.toInt) ∧
      SettledThroughout values (devs.map (BacklightDevice.put value)) := by
  by_cases haccept : ∀ bd ∈ devs, bd.Accepts value
  · have hcall := setBrightness_accepted hfree haccept
    constructor
    · rintro ⟨devs', hdevs', hsettled, hrest⟩
      obtain rfl := Except.ok.inj (hcall.symm.trans hdevs')
      have hle := (settled_map_put_iff hfree).1 hsettled
      refine ⟨⟨fun bd hbd hops => ⟨haccept bd hbd hops, ?_⟩, fun bd hbd hops => ?_⟩, hrest⟩
      · simpa only [hops, if_true] using hle bd hbd
      · simpa only [hops, Bool.false_eq_true, if_false] using hle bd hbd
    · rintro ⟨⟨hops, hnoops⟩, hrest⟩
      refine ⟨_, hcall, (settled_map_put_iff hfree).2 fun bd hbd => ?_, hrest⟩
      split_ifs with h
      · exact (hops bd hbd h).2
      · exact hnoops bd hbd (Bool.eq_false_of_not_eq_true h)
  · refine iff_of_false ?_ fun h => haccept fun bd hbd hops => (h.1.1 bd hbd hops).1
    rintro ⟨devs', hdevs', hsettled, -⟩
    obtain ⟨devs'', hcall, bd, hbd, hheld⟩ := setBrightness_refused hfree haccept
    obtain rfl := Except.ok.inj (hcall.symm.trans hdevs')
    exact Bool.noConfusion (hheld.symm.trans (hsettled.free bd hbd))

end Device

/-- **When brightness calls keep the devices settled.**  From free locks, every call of a sequence
returns and leaves the locks free, the brightness within the maximum and the value set where it is
allowed, exactly if no device with operations has a maximum below one of the values, unsigned as the
code compares or signed, and the devices without operations are within their maximum. -/
theorem setBrightness_settled_iff (devs : List BacklightDevice)
    (hfree : ∀ bd ∈ devs, bd.opsLock = false) (values : List (BitVec 32)) :
    SettledThroughout values devs ↔ values = [] ∨
      (∀ value ∈ values, ∀ bd ∈ devs, bd.ops = true →
        value ≤ bd.maxBrightness ∧ value.toInt ≤ bd.maxBrightness.toInt) ∧
      ∀ bd ∈ devs, bd.ops = false → bd.brightness.toInt ≤ bd.maxBrightness.toInt := by
  induction values generalizing devs with
  | nil => exact iff_of_true trivial (Or.inl rfl)
  | cons value values ih =>
    have hfree' : ∀ bd ∈ devs.map (BacklightDevice.put value), bd.opsLock = false := by
      rw [List.forall_mem_map]
      intro bd hbd
      rw [BacklightDevice.put_opsLock]
      exact hfree bd hbd
    -- what the later calls ask of the devices does not depend on this one
    have hlater : ∀ bd ∈ devs, bd.ops = false → (bd.put value).brightness = bd.brightness := by
      intro bd _ hops
      simp only [BacklightDevice.put, hops, Bool.false_eq_true, if_false]
    rw [settledThroughout_cons hfree, ih _ hfree']
    simp only [List.forall_mem_map, BacklightDevice.put_ops, BacklightDevice.put_maxBrightness,
      reduceCtorEq, false_or, List.forall_mem_cons]
    constructor
    · rintro ⟨⟨hvalue, hnoops⟩, rfl | ⟨hvalues, -⟩⟩
      · exact ⟨⟨hvalue, fun _ h => absurd h List.not_mem_nil⟩, hnoops⟩
      · exact ⟨⟨hvalue, hvalues⟩, hnoops⟩
    · rintro ⟨⟨hvalue, hvalues⟩, hnoops⟩
      refine ⟨⟨hvalue, hnoops⟩, Or.inr ⟨hvalues, fun bd hbd hops => ?_⟩⟩
      rw [hlater bd hbd hops]
      exact hnoops bd hbd hops

/-- Two devices, one of them without operations, and two values. -/
theorem setBrightness_settled_iff_two :
    SettledThroughout [10, 255] [⟨255, 0, true, false⟩, ⟨100, 50, false, false⟩] := by
  refine (setBrightness_settled_iff [⟨255, 0, true, false⟩, ⟨100, 50, false, false⟩] (by decide)
    [10, 255]).2 (Or.inr ⟨?_, by decide⟩)
  rw [List.forall_mem_cons, List.forall_mem_singleton]
  decide

/-- The second device refuses 200; it keeps its lock, and the next call does not return. -/
theorem setBrightness_stuck :
    ¬ ∀ devs : List BacklightDevice, (∀ bd ∈ devs, bd.opsLock = false) →
      (∀ bd ∈ devs, bd.brightness.toInt ≤ bd.maxBrightness.toInt) →
      ∀ values, SettledThroughout values devs := by
  intro hall
  obtain ⟨devs', hcall, hsettled, -⟩ :=
    hall [⟨255, 0, true, false⟩, ⟨100, 0, true, false⟩] (by decide) (by decide) [200, 50]
  obtain rfl : [⟨255, 200, true, false⟩, ⟨100, 0, true, true⟩] = devs' := Except.ok.inj hcall
  exact Bool.noConfusion (hsettled.free ⟨100, 0, true, true⟩ (by simp))

end RtSched
