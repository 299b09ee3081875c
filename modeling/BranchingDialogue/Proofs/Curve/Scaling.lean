import BranchingDialogue.Proofs.Curve.Cubic
import BranchingDialogue.Proofs.Curve.Sound

/-!
# Scaled curves are images of curves

In exact arithmetic a curve that is scaled is the affine image of the curve, whatever its keys are. A
comparison of two times comes out the same when both are scaled, and so do all those that look for a
place among the keys: the keys around a scaled time are the scaled keys around the time
(`segment?_image`). Between two keys the image is that of their cubic (`Keyframe.between_scale`), and
before the first key and after the last one that of their values.

Scalings that follow each other are one scaling by the products of their factors
(`Keyframe.scale_scale`). In any arithmetic, those are refused that would put times elsewhere than on a
line in the same order, or nowhere (`scaled_eq_error_iff`).

Main result: `scaled_affine`.
-/

namespace BranchingDialogue

/-- A key that is scaled twice is scaled by the products of the factors. -/
theorem Keyframe.scale_scale (k : Keyframe ℚ) (x y x' y' : ℚ) :
    (k.scale x y (y / x)).scale x' y' (y' / x') = k.scale (x * x') (y * y') (y * y' / (x * x')) := by
  simp only [scale, mul_assoc, div_mul_div_comm]

namespace Curve

/-- The curve through the scaled keys of a curve. -/
def image (x y : ℚ) (c : Curve ℚ) : Curve ℚ := ⟨c.keys.map (.scale x y (y / x))⟩

section Image

variable {x : ℚ} (y : ℚ) (c : Curve ℚ)

theorem startTime?_image (x : ℚ) : (c.image x y).startTime? = c.startTime?.map (· * x) := by
  simp only [startTime?, image, List.head?_map, Option.map_map]
  rfl

theorem endTime?_image (x : ℚ) : (c.image x y).endTime? = c.endTime?.map (· * x) := by
  simp only [endTime?, image, List.getLast?_map, Option.map_map]
  rfl

variable (hx : 0 < x)
include hx

/-- **The keys around a scaled time are those around the time**, scaled. -/
theorem segment?_image (t : ℚ) : (c.image x y).segment? (t * x)
    = (c.segment? t).map fun (a, b) => (a.scale x y (y / x), b.scale x y (y / x)) := by
  have hplace : bisect (fun k : Keyframe ℚ => k.time ≤ t * x) (c.image x y).keys
      = bisect (fun k : Keyframe ℚ => k.time ≤ t) c.keys := by
    rw [image, bisect_map]
    simp only [Keyframe.scale, mul_le_mul_iff_left₀ hx]
  unfold segment?
  rw [startTime?_image, endTime?_image]
  simp only [hplace]
  cases c.startTime? with
  | none => rfl
  | some first =>
    cases c.endTime? with
    | none => rfl
    | some last =>
      simp only [Option.map_some, mul_le_mul_iff_left₀ hx, image, List.getElem?_map]
      split
      · rfl
      · cases c.keys[bisect (fun k : Keyframe ℚ => k.time ≤ t) c.keys - 1]? with
        | none => rfl
        | some a => cases c.keys[bisect (fun k : Keyframe ℚ => k.time ≤ t) c.keys]? <;> rfl

theorem evaluate_image (t : ℚ) : (c.image x y).evaluate (t * x) = c.evaluate t * y := by
  unfold evaluate
  rw [segment?_image y c hx]
  simp only [image, List.head?_map, List.getLast?_map]
  cases c.keys.head? with
  | none => simp only [Option.map_none, zero_exact, zero_mul]
  | some first =>
    cases c.keys.getLast? with
    | none => simp only [Option.map_some, Option.map_none, zero_exact, zero_mul]
    | some last =>
      simp only [Option.map_some, Keyframe.scale, mul_le_mul_iff_left₀ hx]
      split
      · rfl
      · split
        · rfl
        · cases c.segment? t with
          | none => rfl
          | some ends => exact Keyframe.between_scale y ends.1 ends.2 hx t

theorem derivative_image (t : ℚ) : (c.image x y).derivative (t * x) = c.derivative t * (y / x) := by
  unfold derivative
  rw [segment?_image y c hx]
  cases c.segment? t with
  | none => rw [Option.map_none, zero_exact, zero_mul]
  | some ends => exact Keyframe.slopeBetween_scale y ends.1 ends.2 hx t

/-- A positive factor is one that times can be scaled by. -/
theorem scaled_eq_image : c.scaled x y = .ok (c.image x y) := by
  rw [scaled, if_pos ⟨zero_exact ▸ hx, isFinite_exact x⟩]
  rfl

end Image

/-! ## Scalings that are refused -/

section Refused

variable {α : Type} [Scalar α] (c : Curve α) (x y : α)

/-- Scaling is refused exactly where the factor of the times is not positive, or not an ordinary number,
and it is the factor that is reported. -/
theorem scaled_eq_error_iff (e : CurveError α) : c.scaled x y = .error e
    ↔ ¬(Scalar.zero < x ∧ Scalar.isFinite x = true) ∧ e = .invalidScale x := by
  unfold scaled
  split
  · next hx => exact ⟨nofun, fun h => absurd hx h.1⟩
  · next hx =>
    constructor
    · intro h
      cases h
      exact ⟨hx, rfl⟩
    · rintro ⟨-, rfl⟩
      rfl

/-- What is refused leaves the curve as it was. -/
theorem apply_of_refused {e : CurveError α} (h : c.scaled x y = .error e) :
    (Reshaping.scale x y).apply c = c := by
  rw [Reshaping.apply, h]

end Refused

/-- **Scaling gives the affine image of a curve.** Times are scaled by a positive factor, and values by
any factor. At each scaled time, between the keys or outside of them, the scaled curve has the scaled
value, and its slope is scaled with the values and against the times. A scaling after another one is the
scaling by the products of the factors. Scaling is refused, in any arithmetic, exactly for factors of the
times that are not positive ordinary numbers, and then the curve is left as it was. -/
theorem scaled_affine (c : Curve ℚ) (x y : ℚ) :
    (0 < x → ∃ c', c.scaled x y = .ok c'
        ∧ (∀ t, c'.evaluate (x * t) = y * c.evaluate t)
        ∧ (∀ t, c'.derivative (x * t) = y / x * c.derivative t)
        ∧ ∀ x' y', 0 < x' → c'.scaled x' y' = c.scaled (x * x') (y * y'))
      ∧ ∀ (α : Type) [Scalar α] (c : Curve α) (x y : α) (e : CurveError α),
          (c.scaled x y = .error e
              ↔ ¬(Scalar.zero < x ∧ Scalar.isFinite x = true) ∧ e = .invalidScale x)
            ∧ (c.scaled x y = .error e → (Reshaping.scale x y).apply c = c) := by
  refine ⟨fun hx => ⟨c.image x y, scaled_eq_image y c hx, fun t => ?_, fun t => ?_,
    fun x' y' hx' => ?_⟩, fun α _ c x y e => ⟨scaled_eq_error_iff c x y e, apply_of_refused c x y⟩⟩
  · rw [mul_comm x t, mul_comm y, evaluate_image y c hx]
  · rw [mul_comm x t, mul_comm (y / x), derivative_image y c hx]
  · rw [scaled_eq_image y' _ hx', scaled_eq_image _ c (mul_pos hx hx'), image, image, image,
      List.map_map]
    simp only [Function.comp_def, Keyframe.scale_scale]

end Curve

end BranchingDialogue
