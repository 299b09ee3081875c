import BranchingDialogue.Proofs.Rounding.Arithmetic
import BranchingDialogue.Scalar.Binary32

/-!
# Single precision as rounded numbers

What the theory of rounding says of machine numbers in single precision: `exact` is the number that
stands for one, and `Nearest` says that one is the nearest to a number. Floats are ordered as their
numbers are, sums, differences and quotients of ordinary floats are the nearest to the exact ones,
and a bound that is a float bounds what is rounded.

The bits of floats that are not negative count them upwards from zero to infinity, which is what a
search does that goes down from a float in steps of one.

Main results:
- `lt_iff`, `le_iff`, `isFinite_iff`: comparisons in terms of numbers;
- `nearest_add`, `nearest_sub`, `nearest_div`: operations in terms of numbers;
- `Nearest.exact_le`, `Nearest.le_exact`: bounds that are floats;
- `toBits_le_of_pos`, `exact_ofBits_pos`: floats that are not negative, and their bits.
-/

namespace BranchingDialogue.Binary32

open Float.Model Float.Model.UnpackedFloat Rounding

/-- The number that stands for a float. -/
def exact (x : Float32) : ℚ := value .binary32 x.toModel.unpack

variable {x y b : Float32} {q : ℚ}

theorem inFormat (x : Float32) : InFormat .binary32 x.toModel.unpack :=
  inFormat_unpack (by decide) _

theorem isNaN_eq_false_iff : x.isNaN = false ↔ x.toModel.unpack ≠ .notANumber := by
  show x.toModel.unpack.isNaN = false ↔ _
  cases x.toModel.unpack <;> simp [UnpackedFloat.isNaN]

theorem isNaN_of_isFinite (h : x.isFinite = true) : x.isNaN = false := by
  rw [isNaN_eq_false_iff]
  intro hnan
  replace h : x.toModel.unpack.isFinite = true := h
  rw [hnan] at h
  cases h

/-! ## Order -/

/-- Floats are ordered as their numbers are. -/
theorem lt_iff (hx : x.isNaN = false) (hy : y.isNaN = false) : x < y ↔ exact x < exact y := by
  have hcompare := compare_eq (inFormat x) (inFormat y) (isNaN_eq_false_iff.1 hx)
    (isNaN_eq_false_iff.1 hy)
  show decide (x.toModel < y.toModel) = true ↔ _
  rw [decide_eq_true_iff]
  show (x.toModel.unpack.compare y.toModel.unpack == some .lt) = true ↔ _
  rw [hcompare, beq_iff_eq, Option.some.injEq, compare_lt_iff_lt]
  rfl

theorem le_iff (hx : x.isNaN = false) (hy : y.isNaN = false) : x ≤ y ↔ exact x ≤ exact y := by
  have hcompare := compare_eq (inFormat x) (inFormat y) (isNaN_eq_false_iff.1 hx)
    (isNaN_eq_false_iff.1 hy)
  show decide (x.toModel ≤ y.toModel) = true ↔ _
  rw [decide_eq_true_iff]
  show (x.toModel.unpack.compare y.toModel.unpack).any (·.isLE) = true ↔ _
  rw [hcompare, Option.any_some, Ordering.isLE_iff_ne_gt]
  exact compare_le_iff_le

theorem isFinite_iff : x.isFinite = true ↔ x.isNaN = false ∧ |exact x| < limit .binary32 := by
  constructor
  · intro h
    exact ⟨isNaN_of_isFinite h, abs_value_lt (inFormat x) h⟩
  · intro h
    cases hx : x.isFinite with
    | true => rfl
    | false =>
      have habs : |exact x| = limit .binary32 :=
        abs_value_of_special hx (isNaN_eq_false_iff.1 h.1)
      exact absurd habs h.2.ne

/-- What lies between ordinary numbers is one. -/
theorem isFinite_of_between {a : Float32} (hx : x.isNaN = false) (ha : a.isFinite = true)
    (hax : exact a ≤ exact x) (hb : b.isFinite = true) (hxb : exact x ≤ exact b) :
    x.isFinite = true := by
  have hlow := (abs_lt.1 (isFinite_iff.1 ha).2).1
  have hhigh := (abs_lt.1 (isFinite_iff.1 hb).2).2
  exact isFinite_iff.2 ⟨hx, abs_lt.2 ⟨hlow.trans_le hax, hxb.trans_lt hhigh⟩⟩

/-! ## Zero -/

@[simp] theorem exact_zero : exact Scalar.zero = 0 := rfl

@[simp] theorem isFinite_zero : Float32.isFinite Scalar.zero = true := rfl

theorem isNaN_zero : Float32.isNaN Scalar.zero = false := rfl

theorem zero_lt_iff (hx : x.isNaN = false) : Scalar.zero < x ↔ 0 < exact x := by
  rw [lt_iff isNaN_zero hx, exact_zero]

theorem le_zero_iff (hx : x.isNaN = false) : x ≤ Scalar.zero ↔ exact x ≤ 0 := by
  rw [le_iff hx isNaN_zero, exact_zero]

/-! ## Nearest floats -/

/-- A float is the one nearest to a number. -/
structure Nearest (x : Float32) (q : ℚ) : Prop where
  isNaN : x.isNaN = false
  exact_eq : exact x = nearest .binary32 q

/-- A float is the nearest one to its number. -/
theorem nearest_exact (x : Float32) : nearest .binary32 (exact x) = exact x :=
  nearest_value (inFormat x)

/-- A bound that is a float bounds what is rounded. -/
theorem Nearest.exact_le (h : Nearest x q) (hb : q ≤ exact b) : exact x ≤ exact b := by
  rw [h.exact_eq, ← nearest_exact b]
  exact nearest_mono hb

theorem Nearest.le_exact (h : Nearest x q) (hb : exact b ≤ q) : exact b ≤ exact x := by
  rw [h.exact_eq, ← nearest_exact b]
  exact nearest_mono hb

/-- Two floats nearest to one number have the same number. -/
theorem Nearest.exact_eq_exact (hx : Nearest x q) (hy : Nearest y q) : exact x = exact y :=
  hx.exact_eq.trans hy.exact_eq.symm

theorem nearest_of_rounded {f : UnpackedFloat} (h : Rounded .binary32 q f) :
    Nearest (.ofModel (.pack f)) q := by
  obtain ⟨hnan, hvalue⟩ := value_unpack_pack (by decide) h
  exact ⟨isNaN_eq_false_iff.2 hnan, hvalue⟩

theorem canonical (hx : x.isFinite = true) : Canonical .binary32 x.toModel.unpack :=
  canonical_of_isFinite (inFormat x) hx

theorem nearest_add (hx : x.isFinite = true) (hy : y.isFinite = true) :
    Nearest (x + y) (exact x + exact y) :=
  nearest_of_rounded (rounded_add (canonical hx) (canonical hy))

theorem nearest_sub (hx : x.isFinite = true) (hy : y.isFinite = true) :
    Nearest (x - y) (exact x - exact y) :=
  nearest_of_rounded (rounded_sub (canonical hx) (canonical hy))

theorem nearest_mul (hx : x.isFinite = true) (hy : y.isFinite = true) :
    Nearest (x * y) (exact x * exact y) :=
  nearest_of_rounded (rounded_mul (by decide) (canonical hx) (canonical hy))

theorem nearest_div (hx : x.isFinite = true) (hy : y.isFinite = true) (hzero : exact y ≠ 0) :
    Nearest (x / y) (exact x / exact y) :=
  nearest_of_rounded (rounded_div (canonical hx) (canonical hy) hzero)

theorem eq_positive_of_signed {s : Sign} {v : ℚ} (hv : 0 ≤ v) (h : 0 < signed s v) :
    s = .positive := by
  cases s
  · replace h : 0 < -v := h
    exact absurd hv (not_le.2 (neg_pos.1 h))
  · rfl

/-- A positive float has digits of the format. -/
theorem exists_fits_of_pos (hx : x.isFinite = true) (hpos : 0 < exact x) :
    ∃ m e, Fits .binary32 m e
      ∧ e + (Format.binary32.mantissaBitsWithoutImplicit : ℤ) ≤ Format.binary32.exponentBias
      ∧ exact x = m * 2 ^ e := by
  have hformat := inFormat x
  replace hx : x.toModel.unpack.isFinite = true := hx
  unfold exact at hpos ⊢
  generalize x.toModel.unpack = f at hformat hx hpos
  cases f with
  | infinity => cases hx
  | notANumber => cases hx
  | zero => exact absurd hpos (lt_irrefl 0)
  | finite s m e hm =>
    obtain rfl := eq_positive_of_signed (natCast_mul_zpow_nonneg m e) hpos
    exact ⟨m, e, hformat.1, hformat.2, rfl⟩

/-! ## Bits -/

/-- The bits of infinity, which are next to those of the largest float. -/
def infinityBits : ℕ := 0x7F800000

theorem toNat_unpackSign (b : BitVec 32) :
    (@unpackSign .binary32 b).toNat = b.toNat / 2 ^ 31 := by
  have hlt := b.isLt
  rw [unpackSign, BitVec.toNat_cast, BitVec.extractLsb_toNat, Nat.shiftRight_eq_div_pow]
  show b.toNat / 2 ^ 31 % 2 ^ 1 = b.toNat / 2 ^ 31
  omega

theorem toNat_unpackExponent (b : BitVec 32) :
    (@unpackExponent .binary32 b).toNat = b.toNat / 2 ^ 23 % 2 ^ 8 := by
  rw [unpackExponent, BitVec.toNat_cast, BitVec.extractLsb_toNat, Nat.shiftRight_eq_div_pow]
  rfl

theorem toNat_unpackMantissa (b : BitVec 32) :
    (@unpackMantissa .binary32 b).toNat = b.toNat % 2 ^ 23 := by
  rw [unpackMantissa, BitVec.toNat_cast, BitVec.extractLsb_toNat, Nat.shiftRight_zero]
  rfl

/-- The first bit is the sign. -/
theorem ofBitVec_unpackSign_eq_positive_iff (b : BitVec 32) :
    Sign.ofBitVec (@unpackSign .binary32 b) = .positive ↔ b.toNat < 2 ^ 31 := by
  have hlt := b.isLt
  have hsign := toNat_unpackSign b
  unfold Sign.ofBitVec
  split
  · next hzero =>
    rw [hzero, BitVec.toNat_zero] at hsign
    exact ⟨fun _ => by omega, fun _ => rfl⟩
  · next hzero =>
    constructor
    · intro h
      cases h
    · intro h
      refine absurd (BitVec.eq_of_toNat_eq ?_) hzero
      rw [hsign, BitVec.toNat_zero]
      omega

/-- What bits hold: the last exponent is that of infinities and of no numbers, and zero has no bits
but its sign. -/
inductive Holds (b : BitVec 32) (s : Sign) : UnpackedFloat → Prop
  | infinity (exponent : b.toNat / 2 ^ 23 % 2 ^ 8 = 255) (mantissa : b.toNat % 2 ^ 23 = 0) :
      Holds b s (.infinity s)
  | notANumber (exponent : b.toNat / 2 ^ 23 % 2 ^ 8 = 255) (mantissa : b.toNat % 2 ^ 23 ≠ 0) :
      Holds b s .notANumber
  | zero (exponent : b.toNat / 2 ^ 23 % 2 ^ 8 = 0) (mantissa : b.toNat % 2 ^ 23 = 0) :
      Holds b s (.zero s)
  | finite {m : ℕ} {e : ℤ} (hm : 0 < m) (exponent : b.toNat / 2 ^ 23 % 2 ^ 8 ≠ 255) :
      Holds b s (.finite s m e hm)

theorem holds_unpack (b : BitVec 32) :
    Holds b (Sign.ofBitVec (@unpackSign .binary32 b)) (unpack .binary32 b) := by
  have hexponent := toNat_unpackExponent b
  have hmantissa := toNat_unpackMantissa b
  have hlast : @unpackExponent .binary32 b = -1#8 ↔ b.toNat / 2 ^ 23 % 2 ^ 8 = 255 := by
    rw [← hexponent]
    exact ⟨fun h => by rw [h]; rfl, fun h => BitVec.eq_of_toNat_eq h⟩
  have hfirst : @unpackExponent .binary32 b = 0#8 ↔ b.toNat / 2 ^ 23 % 2 ^ 8 = 0 := by
    rw [← hexponent]
    exact ⟨fun h => by rw [h]; rfl, fun h => BitVec.eq_of_toNat_eq h⟩
  have hnone : @unpackMantissa .binary32 b = 0#23 ↔ b.toNat % 2 ^ 23 = 0 := by
    rw [← hmantissa]
    exact ⟨fun h => by rw [h]; rfl, fun h => BitVec.eq_of_toNat_eq h⟩
  unfold UnpackedFloat.unpack
  simp only
  split
  · next h =>
    split
    · next h' => exact .infinity (hlast.1 h) (hnone.1 h')
    · next h' => exact .notANumber (hlast.1 h) (fun hzero => h' (hnone.2 hzero))
  · next h =>
    split
    · next hzero =>
      split
      · next h' => exact .zero (hfirst.1 hzero) (hnone.1 h')
      · exact .finite _ fun heq => h (hlast.2 heq)
    · exact .finite _ fun heq => h (hlast.2 heq)

/-- Bits up to those of infinity are those of a float that is not negative. -/
structure Upward (n : ℕ) (f : UnpackedFloat) : Prop where
  isNaN : f ≠ .notANumber
  nonneg : 0 ≤ value .binary32 f
  pos : 0 < n → 0 < value .binary32 f
  isFinite : n < infinityBits → f.isFinite = true

theorem upward_of_le {b : BitVec 32} (h : b.toNat ≤ infinityBits) :
    Upward b.toNat (unpack .binary32 b) := by
  have hsign : Sign.ofBitVec (@unpackSign .binary32 b) = .positive := by
    rw [ofBitVec_unpackSign_eq_positive_iff]
    unfold infinityBits at h
    omega
  have hholds := holds_unpack b
  rw [hsign] at hholds
  generalize unpack .binary32 b = f at hholds
  unfold infinityBits at h
  cases hholds with
  | infinity hexponent hmantissa =>
    refine ⟨by simp, limit_pos.le, fun _ => limit_pos, fun hlt => ?_⟩
    unfold infinityBits at hlt
    omega
  | notANumber hexponent hmantissa => omega
  | zero hexponent hmantissa =>
    refine ⟨by simp, le_refl _, fun hpos => ?_, fun _ => rfl⟩
    omega
  | @finite m e hm hexponent =>
    have hpos := mul_pos (show (0 : ℚ) < m by exact_mod_cast hm) (two_zpow_pos e)
    exact ⟨by simp, hpos.le, fun _ => hpos, fun _ => rfl⟩

/-- The bits of a positive float are not above those of infinity, and below them if it is an
ordinary number. -/
theorem toBits_le_of_pos (hx : 0 < exact x) :
    x.toBits.toNat ≤ infinityBits ∧ (x.isFinite = true → x.toBits.toNat < infinityBits) := by
  show x.toBits.toBitVec.toNat ≤ infinityBits
    ∧ ((unpack .binary32 x.toBits.toBitVec).isFinite = true
      → x.toBits.toBitVec.toNat < infinityBits)
  replace hx : 0 < value .binary32 (unpack .binary32 x.toBits.toBitVec) := hx
  have hholds := holds_unpack x.toBits.toBitVec
  have hsign := (ofBitVec_unpackSign_eq_positive_iff x.toBits.toBitVec).1
  generalize x.toBits.toBitVec = b at hholds hsign hx
  generalize Sign.ofBitVec (@unpackSign .binary32 b) = s at hholds hsign
  generalize unpack .binary32 b = f at hholds hx
  unfold infinityBits
  cases hholds with
  | infinity hexponent hmantissa =>
    have hlow := hsign (eq_positive_of_signed limit_pos.le hx)
    refine ⟨by omega, fun hfinite => ?_⟩
    cases hfinite
  | notANumber => exact absurd hx (lt_irrefl 0)
  | zero => exact absurd hx (lt_irrefl 0)
  | @finite m e hm hexponent =>
    have hlow := hsign (eq_positive_of_signed (natCast_mul_zpow_nonneg m e) hx)
    have hlt : b.toNat < 0x7F800000 := by omega
    exact ⟨hlt.le, fun _ => hlt⟩

theorem toNat_toUInt32 {n : ℕ} (h : n ≤ infinityBits) : n.toUInt32.toBitVec.toNat = n := by
  unfold infinityBits at h
  exact Nat.mod_eq_of_lt (by omega)

/-- Bits up to those of infinity are kept as they are. -/
theorem toBits_ofBits {n : ℕ} (h : n ≤ infinityBits) :
    (Float32.ofBits n.toUInt32).toBits = n.toUInt32 := by
  have hup := upward_of_le (b := n.toUInt32.toBitVec) (by rwa [toNat_toUInt32 h])
  have hvalid : Format.binary32.Valid n.toUInt32.toBitVec := by
    refine ⟨fun hexponent hmantissa => absurd ?_ hup.isNaN⟩
    unfold UnpackedFloat.unpack
    simp only [hexponent, hmantissa, if_true, if_false]
  exact congrArg UInt32.ofBitVec (pack_unpack_of_valid hvalid)

theorem upward_ofBits {n : ℕ} (h : n ≤ infinityBits) :
    Upward n (Float32.ofBits n.toUInt32).toModel.unpack := by
  have hup := upward_of_le (b := n.toUInt32.toBitVec) (by rwa [toNat_toUInt32 h])
  rw [toNat_toUInt32 h] at hup
  have hbits := congrArg UInt32.toBitVec (toBits_ofBits h)
  show Upward n (unpack .binary32 (Float32.ofBits n.toUInt32).toBits.toBitVec)
  rwa [hbits]

end BranchingDialogue.Binary32
