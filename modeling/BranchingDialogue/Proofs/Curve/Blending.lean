import BranchingDialogue.Curve.Basic
import BranchingDialogue.Proofs.Rounding.Error

/-!
# The cubic between two keys, with rounding

With rounding a segment is no cubic. Two things remain. At its start it has the value of its first key
(`blend_start`), whatever its slopes are: all terms but one vanish. And between two equal values, without
slopes, it stays close to them (`blend_flat`): the weights of the two values are the same number, rounded
apart, once with one added to it and once taken away.
-/

namespace BranchingDialogue

open Binary32 Rounding

/-- The sum of the values and the rises at the ends of a segment, weighted by where in it a time is. -/
def blend (v₀ m₀ v₁ m₁ t : Float32) : Float32 :=
  let two : Float32 := Scalar.ofNat 2
  let three : Float32 := Scalar.ofNat 3
  let t2 := t * t
  let t3 := t2 * t
  let h00 := two * t3 - three * t2 + Scalar.one
  let h10 := t3 - two * t2 + t
  let h01 := (-two) * t3 + three * t2
  let h11 := t3 - t2
  h00 * v₀ + h10 * m₀ + h01 * v₁ + h11 * m₁

theorem Keyframe.between_eq_blend {a b : Keyframe Float32} {m₀ m₁ : Float32}
    (hlength : ¬b.time - a.time ≤ Scalar.zero) (h : a.rises? b = some (m₀, m₁)) (x : Float32) :
    a.between b x = blend a.value m₀ b.value m₁ ((x - a.time) / (b.time - a.time)) := by
  unfold between
  dsimp only
  rw [if_neg hlength, h]
  rfl

variable {v₀ m₀ v₁ m₁ t : Float32} {v : ℚ}

theorem denotes_two : Denotes (Scalar.ofNat 2) 2 := ⟨by decide, by decide +kernel⟩

theorem denotes_neg_two : Denotes (-Scalar.ofNat 2) (-2) := ⟨by decide, by decide +kernel⟩

theorem denotes_three : Denotes (Scalar.ofNat 3) 3 := ⟨by decide, by decide +kernel⟩

theorem denotes_one : Denotes Scalar.one 1 := ⟨by decide, by decide +kernel⟩

/-- At its start a segment has the value of its first key. -/
theorem blend_start (ht : Denotes t 0) (h₀ : Denotes v₀ v) (hm₀ : m₀.isFinite = true)
    (h₁ : v₁.isFinite = true) (hm₁ : m₁.isFinite = true) : Denotes (blend v₀ m₀ v₁ m₁ t) v := by
  have ht2 : Denotes (t * t) 0 := denotes_mul_zero ht.isFinite ht
  have ht3 : Denotes (t * t * t) 0 := denotes_mul_zero ht2.isFinite ht
  have htwo := denotes_mul_zero denotes_two.isFinite ht2
  have htwo' := denotes_mul_zero denotes_two.isFinite ht3
  have hthree := denotes_mul_zero denotes_three.isFinite ht2
  have hneg := denotes_mul_zero denotes_neg_two.isFinite ht3
  have h00 := denotes_one_mul (denotes_zero_add (denotes_sub_self htwo' hthree) denotes_one) h₀
  have h10 := denotes_zero_mul (denotes_add_zero (denotes_sub_self ht3 htwo) ht) hm₀
  have h01 := denotes_zero_mul (denotes_add_zero hneg hthree) h₁
  have h11 := denotes_zero_mul (denotes_sub_self ht3 ht2) hm₁
  exact denotes_add_zero (denotes_add_zero (denotes_add_zero h00 h10) h01) h11

/-! ## Equal values without slopes -/

/-- A float is a number, but for what the roundings of a segment between equal values come to. -/
structure Approximates (x : Float32) (v : ℚ) : Prop where
  isFinite : x.isFinite = true
  abs_sub_le : |exact x - v| ≤ |v| / 2 ^ 18 + 1 / 2 ^ 148

theorem approximates_exact {x : Float32} (hx : x.isFinite = true) : Approximates x (exact x) :=
  ⟨hx, by rw [sub_self, abs_zero]; positivity⟩

/-- A float from zero to one. -/
structure InUnit (x : Float32) : Prop where
  isFinite : x.isFinite = true
  nonneg : 0 ≤ exact x
  le_one : exact x ≤ 1

namespace InUnit

variable {x y : Float32}

theorem abs_le_one (hx : InUnit x) : |exact x| ≤ 1 := by
  rw [abs_of_nonneg hx.nonneg]
  exact hx.le_one

theorem mul (hx : InUnit x) (hy : InUnit y) : InUnit (x * y) := by
  have hproduct := nearest_mul hx.isFinite hy.isFinite
  have hlow := hproduct.le_exact (b := Scalar.zero)
    (by rw [exact_zero]; exact mul_nonneg hx.nonneg hy.nonneg)
  have hhigh := hproduct.exact_le (b := Scalar.one)
    (by rw [denotes_one.exact_eq]; exact mul_le_one₀ hx.le_one hy.nonneg hy.le_one)
  rw [exact_zero] at hlow
  rw [denotes_one.exact_eq] at hhigh
  have hbound : |exact x * exact y| ≤ 2 ^ 0 := by
    rw [abs_mul, pow_zero]
    exact mul_le_one₀ hx.abs_le_one (abs_nonneg _) hy.abs_le_one
  exact ⟨(hproduct.of_abs_le (by omega) hbound).1, hlow, hhigh⟩

end InUnit

/-- A part of a length. -/
theorem inUnit_div {x y : Float32} (hx : x.isFinite = true) (hy : y.isFinite = true)
    (hnonneg : 0 ≤ exact x) (hpos : 0 < exact y) (hle : exact x ≤ exact y) : InUnit (x / y) := by
  have hquotient := nearest_div hx hy hpos.ne'
  have hlow := hquotient.le_exact (b := Scalar.zero)
    (by rw [exact_zero]; exact div_nonneg hnonneg hpos.le)
  have hhigh := hquotient.exact_le (b := Scalar.one)
    (by rw [denotes_one.exact_eq]; exact (div_le_one hpos).2 hle)
  rw [exact_zero] at hlow
  rw [denotes_one.exact_eq] at hhigh
  have hbound : |exact x / exact y| ≤ 2 ^ 0 := by
    rw [abs_of_nonneg (div_nonneg hnonneg hpos.le), pow_zero]
    exact (div_le_one hpos).2 hle
  exact ⟨(hquotient.of_abs_le (by omega) hbound).1, hlow, hhigh⟩

/-- The weights of the two values: the second is what the first is less than one, but for rounding. -/
theorem exists_weights (ht : InUnit t) : ∃ α : ℚ, |α| ≤ 2 ^ 3
    ∧ Nearest (Scalar.ofNat 2 * (t * t * t) - Scalar.ofNat 3 * (t * t) + Scalar.one) (α + 1)
    ∧ Denotes ((-Scalar.ofNat 2) * (t * t * t) + Scalar.ofNat 3 * (t * t)) (-α) := by
  have ht2 := ht.mul ht
  have ht3 := ht2.mul ht
  have hdouble := nearest_mul denotes_two.isFinite ht3.isFinite
  have hnegated := nearest_mul denotes_neg_two.isFinite ht3.isFinite
  have htriple := nearest_mul denotes_three.isFinite ht2.isFinite
  rw [denotes_two.exact_eq] at hdouble
  rw [denotes_neg_two.exact_eq, neg_mul] at hnegated
  rw [denotes_three.exact_eq] at htriple
  have hbound : |2 * exact (t * t * t)| ≤ 2 ^ 1 := by
    rw [abs_mul, abs_two]
    linarith [ht3.abs_le_one]
  have hbound' : |3 * exact (t * t)| ≤ 2 ^ 2 := by
    rw [abs_mul, abs_of_pos (by norm_num : (0 : ℚ) < 3)]
    linarith [ht2.abs_le_one]
  obtain ⟨hfinite, hle⟩ := hdouble.of_abs_le (by omega) hbound
  obtain ⟨hfinite', hle'⟩ := htriple.of_abs_le (by omega) hbound'
  have hnegate := (hnegated.of_abs_le (k := 1) (by omega) (by rwa [abs_neg])).1
  -- Rounding is odd, so the second weight is the difference negated.
  have hopposite : exact ((-Scalar.ofNat 2) * (t * t * t)) = -exact (Scalar.ofNat 2 * (t * t * t)) := by
    rw [hnegated.exact_eq, hdouble.exact_eq, nearest_neg]
  have hdifference := nearest_sub hfinite hfinite'
  have hweight := nearest_add hnegate hfinite'
  rw [hopposite, neg_add_eq_sub, ← neg_sub] at hweight
  have hsmall : |exact (Scalar.ofNat 2 * (t * t * t)) - exact (Scalar.ofNat 3 * (t * t))| ≤ 2 ^ 3 := by
    have := abs_sub (exact (Scalar.ofNat 2 * (t * t * t))) (exact (Scalar.ofNat 3 * (t * t)))
    linarith
  obtain ⟨hfinite, hle⟩ := hdifference.of_abs_le (by omega) hsmall
  refine ⟨_, hle, ?_, ?_, ?_⟩
  · have hsum := nearest_add hfinite denotes_one.isFinite
    rwa [denotes_one.exact_eq] at hsum
  · exact (hweight.of_abs_le (k := 3) (by omega) (by rwa [abs_neg])).1
  · rw [hweight.exact_eq, hdifference.exact_eq, nearest_neg]

/-- The weight of a slope at the end is an ordinary number. -/
theorem isFinite_slopeWeights (ht : InUnit t) :
    (t * t * t - Scalar.ofNat 2 * (t * t) + t).isFinite = true
      ∧ (t * t * t - t * t).isFinite = true := by
  have ht2 := ht.mul ht
  have ht3 := ht2.mul ht
  have hdouble := nearest_mul denotes_two.isFinite ht2.isFinite
  rw [denotes_two.exact_eq] at hdouble
  have hbound : |2 * exact (t * t)| ≤ 2 ^ 1 := by
    rw [abs_mul, abs_two]
    linarith [ht2.abs_le_one]
  obtain ⟨hfinite, hle⟩ := hdouble.of_abs_le (by omega) hbound
  have hfirst := (nearest_sub ht3.isFinite hfinite).of_abs_le (k := 2) (by omega) (by
    have := abs_sub (exact (t * t * t)) (exact (Scalar.ofNat 2 * (t * t)))
    linarith [ht3.abs_le_one])
  refine ⟨((nearest_add hfirst.1 ht.isFinite).of_abs_le (k := 3) (by omega) ?_).1,
    ((nearest_sub ht3.isFinite ht2.isFinite).of_abs_le (k := 1) (by omega) ?_).1⟩
  · have := abs_add_le (exact (t * t * t - Scalar.ofNat 2 * (t * t))) (exact t)
    linarith [ht.abs_le_one, hfirst.2]
  · have := abs_sub (exact (t * t * t)) (exact (t * t))
    linarith [ht3.abs_le_one, ht2.abs_le_one]

/-- What the roundings of two weights, of two products and of their sum come to. -/
theorem abs_sub_le_of_errors {α w p q s : ℚ} (hα : |α| ≤ 2 ^ 3)
    (hw : |w - (α + 1)| ≤ |α + 1| / 2 ^ 24 + 1 / 2 ^ 150)
    (hp : |p - w * v| ≤ |w * v| / 2 ^ 24 + 1 / 2 ^ 150)
    (hq : |q - -α * v| ≤ |-α * v| / 2 ^ 24 + 1 / 2 ^ 150)
    (hs : |s - (p + q)| ≤ |p + q| / 2 ^ 24 + 1 / 2 ^ 150) :
    |s - v| ≤ |v| / 2 ^ 18 + 1 / 2 ^ 148 := by
  have hv := abs_nonneg v
  have hα' : |α + 1| ≤ 9 := (abs_add_le α 1).trans (by rw [abs_one]; linarith)
  have hweight : |w| ≤ 10 := by
    have := abs_add_le (w - (α + 1)) (α + 1)
    rw [sub_add_cancel] at this
    linarith
  have hwv : |w * v| ≤ 10 * |v| := by
    rw [abs_mul]
    exact mul_le_mul_of_nonneg_right hweight hv
  have hαv : |-α * v| ≤ 8 * |v| := by
    rw [abs_mul, abs_neg]
    exact mul_le_mul_of_nonneg_right (by linarith) hv
  have hrest : |(w - (α + 1)) * v| ≤ (9 / 2 ^ 24 + 1 / 2 ^ 150) * |v| := by
    rw [abs_mul]
    exact mul_le_mul_of_nonneg_right (by linarith) hv
  -- The weights add up to one, so the value is left but for the errors.
  have hsum : |p + q - v| ≤ |p - w * v| + |q - -α * v| + |(w - (α + 1)) * v| := by
    have hsplit : p + q - v = p - w * v + (q - -α * v) + (w - (α + 1)) * v := by ring
    rw [hsplit]
    exact abs_add_three _ _ _
  have hsize : |p + q| ≤ |p + q - v| + |v| := by
    have := abs_add_le (p + q - v) v
    rwa [sub_add_cancel] at this
  have htotal : |s - v| ≤ |s - (p + q)| + |p + q - v| := abs_sub_le s (p + q) v
  linarith

/-- **Between equal values, without slopes, a segment stays close to them.** -/
theorem blend_flat (ht : InUnit t) (h₀ : Denotes v₀ v) (hm₀ : Denotes m₀ 0) (h₁ : Denotes v₁ v)
    (hm₁ : Denotes m₁ 0) (hv : |v| ≤ 2 ^ 120) : Approximates (blend v₀ m₀ v₁ m₁ t) v := by
  obtain ⟨α, hα, hearlier, hlater⟩ := exists_weights ht
  obtain ⟨hslope, hslope'⟩ := isFinite_slopeWeights ht
  have hα' : |α + 1| ≤ 2 ^ 4 := (abs_add_le α 1).trans (by rw [abs_one]; linarith)
  obtain ⟨hfinite, hle⟩ := hearlier.of_abs_le (by omega) hα'
  have hp := nearest_mul hfinite h₀.isFinite
  have hq := nearest_mul hlater.isFinite h₁.isFinite
  rw [h₀.exact_eq] at hp
  rw [hlater.exact_eq, h₁.exact_eq] at hq
  have hproduct : |exact (Scalar.ofNat 2 * (t * t * t) - Scalar.ofNat 3 * (t * t) + Scalar.one) * v|
      ≤ 2 ^ 124 := by
    rw [abs_mul]
    exact (mul_le_mul hle hv (abs_nonneg v) (by norm_num)).trans_eq (by norm_num)
  have hproduct' : |-α * v| ≤ 2 ^ 123 := by
    rw [abs_mul, abs_neg]
    exact (mul_le_mul hα hv (abs_nonneg v) (by norm_num)).trans_eq (by norm_num)
  obtain ⟨hpfinite, hple⟩ := hp.of_abs_le (by omega) hproduct
  obtain ⟨hqfinite, hqle⟩ := hq.of_abs_le (by omega) hproduct'
  have hfirst := denotes_add_zero (denotes_exact hpfinite) (denotes_mul_zero hslope hm₀)
  have hsum := nearest_add hfirst.isFinite hqfinite
  rw [hfirst.exact_eq] at hsum
  have hbound := (abs_add_le (exact _) (exact _)).trans (add_le_add hple hqle)
  obtain ⟨hsfinite, hsle⟩ := hsum.of_abs_le (k := 125) (by omega) (hbound.trans (by norm_num))
  have hblend : Denotes (blend v₀ m₀ v₁ m₁ t) _ :=
    denotes_add_zero (denotes_exact hsfinite) (denotes_mul_zero hslope' hm₁)
  refine ⟨hblend.isFinite, ?_⟩
  rw [hblend.exact_eq]
  exact abs_sub_le_of_errors hα (hearlier.abs_sub_le (hα'.trans (by norm_num)))
    (hp.abs_sub_le (hproduct.trans (by norm_num))) (hq.abs_sub_le (hproduct'.trans (by norm_num)))
    (hsum.abs_sub_le (hbound.trans (by norm_num)))

end BranchingDialogue
