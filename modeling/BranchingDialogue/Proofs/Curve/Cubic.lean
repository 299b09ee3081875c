import BranchingDialogue.Curve.Basic
import BranchingDialogue.Proofs.Exact
import Mathlib.Tactic.FieldSimp
import Mathlib.Tactic.Ring

/-!
# The cubic between two keys

In exact arithmetic the curve between two keys is the cubic that has their values and slopes
(`Joins.between`), there is one (`exists_joins`), and no other. So whatever has the value and the
slope of a segment at some time may stand there: a segment that is split with its own value and
slope stays the same cubic on either side.
-/

namespace BranchingDialogue

/-- A polynomial of degree three, by its coefficients around a time. -/
structure Cubic where
  center : ℚ
  c₀ : ℚ
  c₁ : ℚ
  c₂ : ℚ
  c₃ : ℚ

namespace Cubic

/-- The value at a time. -/
def value (p : Cubic) (x : ℚ) : ℚ :=
  p.c₀ + p.c₁ * (x - p.center) + p.c₂ * (x - p.center) ^ 2 + p.c₃ * (x - p.center) ^ 3

/-- The slope at a time. -/
def slope (p : Cubic) (x : ℚ) : ℚ :=
  p.c₁ + 2 * p.c₂ * (x - p.center) + 3 * p.c₃ * (x - p.center) ^ 2

/-- The same curve later. -/
def delay (p : Cubic) (length : ℚ) : Cubic := { p with center := p.center + length }

/-- The same value at all times. -/
def constant (value : ℚ) : Cubic := ⟨0, value, 0, 0, 0⟩

theorem value_delay (p : Cubic) (length x : ℚ) :
    (p.delay length).value x = p.value (x - length) := by
  simp only [value, delay]
  ring

theorem slope_delay (p : Cubic) (length x : ℚ) :
    (p.delay length).slope x = p.slope (x - length) := by
  simp only [slope, delay]
  ring

theorem value_constant (value x : ℚ) : (constant value).value x = value := by
  simp [Cubic.value, constant]

theorem slope_constant (value x : ℚ) : (constant value).slope x = 0 := by
  simp [slope, constant]

/-- Whether a cubic leaves one key and arrives at another. -/
structure Joins (p : Cubic) (a b : Keyframe ℚ) : Prop where
  leaves : p.value a.time = a.value
  leavesAt : p.slope a.time = a.outTangent
  arrives : p.value b.time = b.value
  arrivesAt : p.slope b.time = b.inTangent

variable {p : Cubic} {a b : Keyframe ℚ}

theorem exists_joins (h : a.time < b.time) : ∃ p : Cubic, p.Joins a b := by
  have hd : b.time - a.time ≠ 0 := sub_ne_zero.2 h.ne'
  -- Around the first key two coefficients are given there, and the last key settles the others.
  refine ⟨⟨a.time, a.value, a.outTangent,
    (3 * (b.value - a.value) / (b.time - a.time) - 2 * a.outTangent - b.inTangent)
      / (b.time - a.time),
    (a.outTangent + b.inTangent - 2 * (b.value - a.value) / (b.time - a.time))
      / (b.time - a.time) ^ 2⟩, ?_, ?_, ?_, ?_⟩
  · simp [value]
  · simp [slope]
  · simp only [value]
    field_simp
    ring
  · simp only [slope]
    field_simp
    ring

/-- The rise over a segment at the slopes of its ends is always an ordinary number. -/
theorem rises?_exact (a b : Keyframe ℚ) :
    a.rises? b = some (a.outTangent * (b.time - a.time), b.inTangent * (b.time - a.time)) := rfl

theorem length_pos_exact (h : a.time < b.time) : ¬b.time - a.time ≤ (Scalar.zero : ℚ) := by
  rw [zero_exact]
  exact not_le.2 (sub_pos.2 h)

theorem Joins.between (hp : p.Joins a b) (h : a.time < b.time) (x : ℚ) :
    a.between b x = p.value x := by
  have hd : b.time - a.time ≠ 0 := sub_ne_zero.2 h.ne'
  rw [Keyframe.between, if_neg (length_pos_exact h)]
  -- With the ends read off the cubic, what is left is an identity in its coefficients.
  simp only [rises?_exact, ofNat_exact, ← hp.leaves, ← hp.leavesAt, ← hp.arrives, ← hp.arrivesAt,
    value, slope, Nat.cast_ofNat]
  field_simp
  ring

theorem Joins.slopeBetween (hp : p.Joins a b) (h : a.time < b.time) (x : ℚ) :
    a.slopeBetween b x = p.slope x := by
  have hd : b.time - a.time ≠ 0 := sub_ne_zero.2 h.ne'
  rw [Keyframe.slopeBetween, if_neg (length_pos_exact h)]
  simp only [rises?_exact, ofNat_exact, ← hp.leaves, ← hp.leavesAt, ← hp.arrives, ← hp.arrivesAt,
    value, slope, Nat.cast_ofNat]
  field_simp
  ring

end Cubic

namespace Keyframe

variable {a b : Keyframe ℚ}

theorem between_left (h : a.time < b.time) : a.between b a.time = a.value := by
  obtain ⟨p, hp⟩ := Cubic.exists_joins h
  rw [hp.between h, hp.leaves]

theorem between_right (h : a.time < b.time) : a.between b b.time = b.value := by
  obtain ⟨p, hp⟩ := Cubic.exists_joins h
  rw [hp.between h, hp.arrives]

/-- A key at which the curve stops. -/
def stop (k : Keyframe ℚ) : Keyframe ℚ := { k with outTangent := 0 }

/-- The key that ends a hold at a key: from there the curve goes on as it would have. -/
def resume (k : Keyframe ℚ) (length : ℚ) : Keyframe ℚ :=
  ⟨k.time + length, k.value, 0, k.outTangent⟩

/-- From where the curve stops to where it goes on it keeps its value. -/
theorem stop_between_resume (k : Keyframe ℚ) {length : ℚ} (hlength : 0 < length) (x : ℚ) :
    k.stop.between (k.resume length) x = k.value := by
  have hp : (Cubic.constant k.value).Joins k.stop (k.resume length) :=
    ⟨Cubic.value_constant _ _, Cubic.slope_constant _ _, Cubic.value_constant _ _,
      Cubic.slope_constant _ _⟩
  have hlater : k.stop.time < (k.resume length).time := lt_add_of_pos_right k.time hlength
  rw [hp.between hlater, Cubic.value_constant]

/-- A segment that is moved to a later time is the same cubic there. -/
theorem between_delay (h : a.time < b.time) (k : Keyframe ℚ) {length : ℚ}
    (htime : k.time = a.time + length) (hvalue : k.value = a.value)
    (hslope : k.outTangent = a.outTangent) (x : ℚ) :
    k.between (b.delay length) x = a.between b (x - length) := by
  obtain ⟨p, hp⟩ := Cubic.exists_joins h
  have hp' : (p.delay length).Joins k (b.delay length) := by
    constructor
    · rw [Cubic.value_delay, htime, add_sub_cancel_right, hp.leaves, hvalue]
    · rw [Cubic.slope_delay, htime, add_sub_cancel_right, hp.leavesAt, hslope]
    · rw [Cubic.value_delay, delay, add_sub_cancel_right, hp.arrives]
    · rw [Cubic.slope_delay, delay, add_sub_cancel_right, hp.arrivesAt]
  have hlater : k.time < (b.delay length).time := by
    rw [htime]
    exact add_lt_add_left h length
  rw [hp'.between hlater, Cubic.value_delay, hp.between h]

/-! ### Scaling a segment -/

section Scale

variable {x : ℚ} (y : ℚ) (a b : Keyframe ℚ)

theorem length_scale (x : ℚ) : (b.scale x y (y / x)).time - (a.scale x y (y / x)).time
    = (b.time - a.time) * x :=
  (sub_mul b.time a.time x).symm

variable (hx : 0 < x)
include hx

theorem length_scale_nonpos_iff : (b.time - a.time) * x ≤ 0 ↔ b.time - a.time ≤ 0 :=
  ⟨fun h => nonpos_of_mul_nonpos_left h hx, fun h => mul_nonpos_of_nonpos_of_nonneg h hx.le⟩

/-- The slopes at the ends of a scaled segment make up for its length, so the rises over it are scaled
as the values are. -/
theorem rises?_scale : (a.scale x y (y / x)).rises? (b.scale x y (y / x))
    = some (a.outTangent * (b.time - a.time) * y, b.inTangent * (b.time - a.time) * y) := by
  have hrise : ∀ slope length : ℚ, slope * (y / x) * (length * x) = slope * length * y := by
    intro slope length
    have hne := hx.ne'
    field_simp
  rw [Cubic.rises?_exact, length_scale, ← hrise, ← hrise]
  rfl

/-- A scaled time is as far into the scaled segment as the time is into the segment. -/
theorem part_scale (t : ℚ) : (t * x - (a.scale x y (y / x)).time) / ((b.time - a.time) * x)
    = (t - a.time) / (b.time - a.time) := by
  rw [show t * x - (a.scale x y (y / x)).time = (t - a.time) * x from (sub_mul t a.time x).symm,
    mul_div_mul_right _ _ hx.ne']

/-- A segment whose times and values are scaled is the image of the segment. -/
theorem between_scale (t : ℚ) :
    (a.scale x y (y / x)).between (b.scale x y (y / x)) (t * x) = a.between b t * y := by
  unfold between
  simp only [length_scale, rises?_scale y a b hx, part_scale y a b hx, zero_exact,
    length_scale_nonpos_iff a b hx, Cubic.rises?_exact]
  split
  · rfl
  · generalize (t - a.time) / (b.time - a.time) = part
    simp only [scale]
    ring

/-- Its slope is that of the segment, scaled with the values and against the times. -/
theorem slopeBetween_scale (t : ℚ) :
    (a.scale x y (y / x)).slopeBetween (b.scale x y (y / x)) (t * x)
      = a.slopeBetween b t * (y / x) := by
  unfold slopeBetween
  simp only [length_scale, rises?_scale y a b hx, part_scale y a b hx, zero_exact,
    length_scale_nonpos_iff a b hx, Cubic.rises?_exact]
  split
  · rw [zero_mul]
  · generalize (t - a.time) / (b.time - a.time) = part
    generalize b.time - a.time = length
    rw [div_mul_div_comm]
    simp only [scale]
    congr 1
    ring

end Scale

/-! ### Splitting a segment -/

section Split

variable {t : ℚ} (hat : a.time < t) (htb : t < b.time) {k : Keyframe ℚ}
  (hvalue : k.value = a.between b t)
include hat htb hvalue

/-- Before a key with the value and the slope of a segment, the segment stays as it was. -/
theorem between_split_left (htime : k.time = t) (hslope : k.inTangent = a.slopeBetween b t)
    (x : ℚ) : a.between k x = a.between b x := by
  have h := hat.trans htb
  obtain ⟨p, hp⟩ := Cubic.exists_joins h
  have hp' : p.Joins a k := by
    refine ⟨hp.leaves, hp.leavesAt, ?_, ?_⟩
    · rw [hvalue, htime, hp.between h]
    · rw [hslope, htime, hp.slopeBetween h]
  rw [hp'.between (htime ▸ hat), hp.between h]

/-- After such a key, too. -/
theorem between_split_right (htime : k.time = t) (hslope : k.outTangent = a.slopeBetween b t)
    (x : ℚ) : k.between b x = a.between b x := by
  have h := hat.trans htb
  obtain ⟨p, hp⟩ := Cubic.exists_joins h
  have hp' : p.Joins k b := by
    refine ⟨?_, ?_, hp.arrives, hp.arrivesAt⟩
    · rw [hvalue, htime, hp.between h]
    · rw [hslope, htime, hp.slopeBetween h]
  rw [hp'.between (htime ▸ htb), hp.between h]

end Split

end Keyframe

end BranchingDialogue
