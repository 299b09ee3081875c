import BranchingDialogue.Proofs.Rounding.Double
import BranchingDialogue.Proofs.Stored

/-!
# Two ways to read a value, one to write it

Payloads are read by the kind of a JSON value (`Value.ofJson`), the variables of a saved suspension by
trying one reading after the other (`Value.ofJsonByTrial?`). Both read the same: `ofJsonByTrial?_eq`.

What was read is written as it was, but for whole numbers that 64 bits with a sign cannot hold. These
became floats: `Json.Narrowed` says that each is replaced by the double nearest to it. What is
written is read as it was if all its floats are finite, `Value.IsFinite`; an infinite or undefined
float is written as null, and nothing with a null in it is read.

Main result: `codecs_agree`.
-/

namespace BranchingDialogue

/-- A JSON value with the double nearest to it in the place of every whole number that 64 bits with a
sign cannot hold, at every depth of its arrays. -/
inductive Json.Narrowed : Json → Json → Prop
  | null : Narrowed .null .null
  | bool (b : Bool) : Narrowed (.bool b) (.bool b)
  | integer {n : WideInteger} (hn : n.1 < 0x8000000000000000) : Narrowed (.integer n) (.integer n)
  | large {n : WideInteger} {x : FiniteFloat} (hn : 0x8000000000000000 ≤ n.1)
    (nearest : Binary64.Nearest x.1 n.1) : Narrowed (.integer n) (.float x)
  | float (x : FiniteFloat) : Narrowed (.float x) (.float x)
  | text (s : String) : Narrowed (.text s) (.text s)
  | array {items items' : List Json} (h : List.Forall₂ Narrowed items items') :
    Narrowed (.array items) (.array items')
  | object (members : List (String × Json)) : Narrowed (.object members) (.object members)

/-- All floats in a value are finite, at every depth of its sequences. -/
inductive Value.IsFinite : Value → Prop
  | bool (b : Bool) : IsFinite (.bool b)
  | int (n : Int64) : IsFinite (.int n)
  | float {x : Float} (finite : x.isFinite = true) : IsFinite (.float x)
  | text (s : String) : IsFinite (.text s)
  | sequence {items : List Value} (h : ∀ v ∈ items, IsFinite v) : IsFinite (.sequence items)

namespace Value

/-! ## Both ways to read -/

theorem ofItemsByTrial?_eq {items : List Json}
    (h : ∀ j ∈ items, ofJsonByTrial? j = (ofJson j).toOption) :
    ofItemsByTrial? items = (ofItems items).toOption := by
  induction items with
  | nil => rfl
  | cons x xs ih =>
    rw [List.forall_mem_cons] at h
    rw [ofItemsByTrial?, ofItems, h.1, ih h.2]
    cases ofJson x with
    | error e => rfl
    | ok v => cases ofItems xs <;> rfl

theorem ofJsonByTrial?_integer (n : WideInteger) :
    ofJsonByTrial? (.integer n) = some (ofInteger n) := by
  by_cases h : n.1 < 0x8000000000000000
  · have hint : int? (.integer n) = some (Int64.ofInt n.1) := if_pos h
    rw [ofJsonByTrial?, hint, ofInteger, if_pos h]
    · rfl
    · simp
  · have hint : int? (.integer n) = none := if_neg h
    have hfloat : float? (.integer n) = some n.1.toNat.toUInt64.toFloat :=
      congrArg some (if_pos (by omega))
    rw [ofJsonByTrial?, hint, hfloat, ofInteger, if_neg h]
    · rfl
    · simp

/-- **Trying one reading after the other reads by kind**: the kinds are tried in an order in which
none takes what belongs to a later one. -/
theorem ofJsonByTrial?_eq (j : Json) : ofJsonByTrial? j = (ofJson j).toOption := by
  induction j using Json.arrayInduction with
  | integer n => exact ofJsonByTrial?_integer n
  | array items ih =>
    show (ofItemsByTrial? items).map sequence = _
    rw [ofItemsByTrial?_eq ih, ofJson]
    cases ofItems items <;> rfl
  | null | bool | float | text | object => rfl

/-! ## Large whole numbers -/

/-- A large whole number becomes the double nearest to it. -/
theorem nearest_toFloat {n : WideInteger} (hn : 0x8000000000000000 ≤ n.1) :
    Binary64.Nearest n.1.toNat.toUInt64.toFloat n.1 := by
  have hlt := n.2.2
  have hcount : n.1.toNat.toUInt64.toNat = n.1.toNat := Nat.mod_eq_of_lt (by omega)
  have hnearest := Binary64.nearest_toFloat n.1.toNat.toUInt64
  rwa [hcount, ← Int.cast_natCast, Int.toNat_of_nonneg (by omega)] at hnearest

/-- No other double is nearest to a large whole number. -/
theorem eq_toFloat_of_nearest {n : WideInteger} {x : Float} (hn : 0x8000000000000000 ≤ n.1)
    (h : Binary64.Nearest x n.1) : x = n.1.toNat.toUInt64.toFloat := by
  -- A finite float is told by its number, zero apart, and this number is neither zero nor too large.
  have hexact : Binary64.exact x = Binary64.exact n.1.toNat.toUInt64.toFloat :=
    h.exact_eq.trans (nearest_toFloat hn).exact_eq.symm
  have hone : (1 : ℚ) ≤ Binary64.exact x := by
    have hdigits := Binary64.nearest_of_digits (m := 1) (e := 0) (by norm_num) (by norm_num)
    rw [pow_zero, mul_one, Nat.cast_one] at hdigits
    rw [h.exact_eq, ← hdigits]
    exact Rounding.nearest_mono (by exact_mod_cast (by omega : (1 : ℤ) ≤ n.1))
  have hlarge : |(n.1 : ℚ)| ≤ Binary64.largest := by
    rw [abs_of_nonneg (by exact_mod_cast (by omega : (0 : ℤ) ≤ n.1))]
    have hlt : (n.1 : ℚ) ≤ 2 ^ 64 := by exact_mod_cast (by have := n.2.2; omega)
    have hfar : (2 ^ 64 : ℚ) ≤ 2 ^ 971 := pow_le_pow_right₀ one_le_two (by norm_num)
    have hfactor : (2 ^ 971 : ℚ) ≤ Binary64.largest :=
      le_mul_of_one_le_left (by positivity) (by norm_num)
    exact (hlt.trans hfar).trans hfactor
  exact Binary64.eq_of_exact_eq (h.isFinite_of_abs_le hlarge) (isFinite_toFloat _)
    (one_pos.trans_le hone).ne' hexact

end Value

namespace Json

theorem narrowed_normal (j : Json) : j.Narrowed j.normal := by
  induction j using arrayInduction with
  | integer n =>
    rw [normal, normalInteger]
    split
    · next hn => exact .integer hn
    · next hn => exact .large (Int.not_lt.1 hn) (Value.nearest_toFloat (Int.not_lt.1 hn))
  | array items ih =>
    rw [normal, normalItems_eq_map]
    exact .array (List.forall₂_map_right_iff.2 (List.forall₂_same.2 ih))
  | null => exact .null
  | bool b => exact .bool b
  | float x => exact .float x
  | text s => exact .text s
  | object members => exact .object members

/-- There is one way to do this. -/
theorem narrowed_iff {j j' : Json} : j.Narrowed j' ↔ j' = j.normal := by
  refine ⟨fun h => ?_, fun h => h ▸ narrowed_normal j⟩
  induction j using arrayInduction generalizing j' with
  | integer n =>
    rw [normal, normalInteger]
    cases h with
    | integer hn => rw [if_pos hn]
    | large hn hnearest =>
      rw [if_neg (Int.not_lt.2 hn)]
      exact congrArg Json.float (Subtype.ext (Value.eq_toFloat_of_nearest hn hnearest))
  | array items ih =>
    cases h with
    | array hitems =>
      rw [normal, normalItems_eq_map]
      congr 1
      induction hitems with
      | nil => rfl
      | cons hhead _ ihtail =>
        rw [List.forall_mem_cons] at ih
        rw [List.map_cons, ih.1 hhead, ihtail ih.2]
  | null | bool | float | text | object =>
    cases h
    rfl

end Json

namespace Value

/-! ## What is written -/

/-- Induction over a value, through its sequences. -/
@[elab_as_elim]
theorem sequenceInduction {motive : Value → Prop} (bool : ∀ b, motive (.bool b))
    (int : ∀ n, motive (.int n)) (float : ∀ x, motive (.float x)) (text : ∀ s, motive (.text s))
    (sequence : ∀ items, (∀ v ∈ items, motive v) → motive (.sequence items)) : ∀ v, motive v
  | .bool b => bool b
  | .int n => int n
  | .float x => float x
  | .text s => text s
  | .sequence items => by
    refine sequence items fun v hv => ?_
    exact sequenceInduction bool int float text sequence v
  termination_by v => sizeOf v
  decreasing_by
    have hlt := List.sizeOf_lt_of_mem hv
    simp only [Value.sequence.sizeOf_spec]
    omega

/-- Nothing else than null is written that is no value. -/
theorem eq_null_of_holds {v : Value} {shape : ShapeError} (h : v.toJson.Holds shape) :
    shape = .null := by
  induction v using sequenceInduction with
  | bool | int | text => cases h
  | float x =>
    rw [toJson] at h
    split at h
    · cases h
    · cases h
      rfl
  | sequence items ih =>
    rw [toJson, toItems_eq_map] at h
    cases h with
    | item hj hholds =>
      obtain ⟨v, hv, rfl⟩ := List.mem_map.1 hj
      exact ih v hv hholds

theorem isFinite_of_isPlain {v : Value} (h : v.toJson.IsPlain) : v.IsFinite := by
  induction v using sequenceInduction with
  | bool b => exact .bool b
  | int n => exact .int n
  | float x =>
    rw [toJson] at h
    split at h
    · next hfinite => exact .float hfinite
    · cases h
  | text s => exact .text s
  | sequence items ih =>
    rw [toJson, toItems_eq_map] at h
    cases h with
    | array hitems =>
      exact .sequence fun v hv => ih v hv (hitems _ (List.mem_map_of_mem hv))

/-- **A value without infinite or undefined floats is read as it was written.** -/
theorem ofJson_toJson_of_isFinite {v : Value} (h : v.IsFinite) : ofJson v.toJson = .ok v := by
  induction h with
  | bool b => rfl
  | int n =>
    have hlt : n.toInt < 0x8000000000000000 := n.toInt_lt
    rw [toJson, ofJson, ofInteger, if_pos hlt, Int64.ofInt_toInt]
  | float finite => rw [toJson, dif_pos finite, ofJson]
  | text s => rfl
  | @sequence items _ ih =>
    have hitems : ofItems (items.map toJson) = .ok items :=
      ofItems_eq_ok_iff.2 (List.forall₂_map_left_iff.2 (List.forall₂_same.2 ih))
    rw [toJson, toItems_eq_map, ofJson, hitems]

/-- **Any other value is refused**, for the null that was written. -/
theorem ofJson_toJson_of_not_isFinite {v : Value} (h : ¬v.IsFinite) :
    ofJson v.toJson = .error .null := by
  cases hread : ofJson v.toJson with
  | ok w => exact absurd (isFinite_of_isPlain (isPlain_of_ofJson hread)) h
  | error shape => rw [eq_null_of_holds (holds_of_ofJson hread)]

/-! ## Whole numbers and floats stay apart -/

/-- Only a whole number is read as a whole number, and only as itself. -/
theorem ofJson_eq_int_iff {j : Json} {n : Int64} :
    ofJson j = .ok (.int n) ↔ j = (Value.int n).toJson := by
  constructor
  · intro h
    cases j with
    | integer m =>
      have hwritten := toJson_eq_normal h
      rw [Json.normal, Json.normalInteger] at hwritten
      split at hwritten
      · exact hwritten.symm
      · rw [toJson] at hwritten
        cases hwritten
    | array items =>
      rw [ofJson] at h
      split at h <;> cases h
    | _ => cases h
  · rintro rfl
    exact ofJson_toJson_of_isFinite (.int n)

/-- A float is read where there is one, or a whole number that is too large. -/
theorem ofJson_eq_float_iff {j : Json} {x : Float} :
    ofJson j = .ok (.float x) ↔ (∃ finite, j = .float ⟨x, finite⟩)
      ∨ ∃ n : WideInteger, j = .integer n ∧ 0x8000000000000000 ≤ n.1 ∧ Binary64.Nearest x n.1 := by
  constructor
  · intro h
    cases j with
    | float y =>
      cases h
      exact .inl ⟨y.2, rfl⟩
    | integer n =>
      rw [ofJson, Except.ok.injEq, ofInteger] at h
      split at h
      · cases h
      · next hn =>
        cases h
        exact .inr ⟨n, rfl, Int.not_lt.1 hn, nearest_toFloat (Int.not_lt.1 hn)⟩
    | array items =>
      rw [ofJson] at h
      split at h <;> cases h
    | _ => cases h
  · rintro (⟨finite, rfl⟩ | ⟨n, rfl, hn, hnearest⟩)
    · rfl
    · rw [ofJson, ofInteger, if_neg (Int.not_lt.2 hn), eq_toFloat_of_nearest hn hnearest]

/-- An array is read element by element. -/
theorem ofJson_array_iff {items : List Json} {v : Value} :
    ofJson (.array items) = .ok v ↔
      ∃ vs, v = .sequence vs ∧ List.Forall₂ (fun j v => ofJson j = .ok v) items vs := by
  simp only [← ofItems_eq_ok_iff]
  rw [ofJson]
  cases ofItems items with
  | error e => simp
  | ok vs => simp [eq_comm]

/-- **The two readings agree, and both invert writing.** A JSON value is read exactly if there is no
null and no object at any depth of its arrays, and by trial it is read exactly if it is read by kind,
as the same value. What was read is written as it was, each whole number that is too large being
replaced by the double nearest to it. What was written is read as it was if all floats are finite, and
else refused for a null. Whole numbers are read from whole numbers only and floats from floats, large
whole numbers apart, and this holds of the elements of arrays as well. -/
theorem codecs_agree :
    (∀ j : Json, (∃ v, ofJson j = .ok v) ↔ ∀ shape, ¬j.Holds shape)
      ∧ (∀ (j : Json) (v : Value), ofJson j = .ok v ↔ ofJsonByTrial? j = some v)
      ∧ (∀ (j : Json) (v : Value), ofJson j = .ok v → j.Narrowed v.toJson)
      ∧ (∀ v : Value, v.IsFinite → ofJson v.toJson = .ok v)
      ∧ (∀ v : Value, ¬v.IsFinite → ofJson v.toJson = .error .null)
      ∧ (∀ (j : Json) (n : Int64), ofJson j = .ok (.int n) ↔ j = (Value.int n).toJson)
      ∧ (∀ (j : Json) (x : Float), ofJson j = .ok (.float x) ↔
          (∃ finite, j = .float ⟨x, finite⟩)
            ∨ ∃ n : WideInteger, j = .integer n ∧ 0x8000000000000000 ≤ n.1
              ∧ Binary64.Nearest x n.1)
      ∧ ∀ (items : List Json) (v : Value), ofJson (.array items) = .ok v ↔
          ∃ vs, v = .sequence vs ∧ List.Forall₂ (fun j v => ofJson j = .ok v) items vs := by
  refine ⟨fun j => exists_ofJson_iff_not_holds, fun j v => ?_, fun j v h => ?_,
    fun v => ofJson_toJson_of_isFinite, fun v => ofJson_toJson_of_not_isFinite,
    fun j n => ofJson_eq_int_iff, fun j x => ofJson_eq_float_iff,
    fun items v => ofJson_array_iff⟩
  · rw [ofJsonByTrial?_eq]
    cases ofJson j <;> simp [Except.toOption]
  · exact Json.narrowed_iff.2 (toJson_eq_normal h)

/-- One and one with a fraction, next to the first whole number that is too large. -/
example :
    ofJsonByTrial? (.array [.integer ⟨1, by decide⟩, .float ⟨1.0, by decide +kernel⟩,
        .integer ⟨0x8000000000000000, by decide⟩])
      = some (.sequence [.int 1, .float 1.0, .float 9223372036854775808.0]) := by
  decide +kernel

end Value

end BranchingDialogue
