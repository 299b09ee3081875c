import BranchingDialogue.Proofs.Rounding.Single

/-!
# Floats that are not ordinary numbers

Arithmetic in single precision goes on with infinite and undefined floats. An operand that is not an
ordinary number makes a sum, a difference or a product that is none (`isFinite_of_mul`), so what has
come to infinity does not come back. Where only one operand may be infinite the result is defined, and
the order is kept (`add_mono`, `mul_mono`): infinity stands at the end of all numbers, and stays there.
A difference that is taken from an infinite float may be undefined, but where it is neither that nor at
the lower end, those of greater floats are not either (`le_sub_of_le`).

A float that is defined is told by its number, unless that is zero (`eq_of_exact_eq`), and two floats
that differ have a difference that does not vanish (`sub_pos_of_lt`).
-/

namespace BranchingDialogue.Binary32

open Float.Model Float.Model.UnpackedFloat Rounding

variable {x y z : Float32} {s : Sign}

/-! ## What a float can be -/

theorem isFinite_or_infinite (hx : x.isNaN = false) :
    x.isFinite = true ∨ ∃ s, x.toModel.unpack = .infinity s := by
  replace hx := isNaN_eq_false_iff.1 hx
  show x.toModel.unpack.isFinite = true ∨ _
  generalize x.toModel.unpack = f at hx ⊢
  cases f with
  | notANumber => exact absurd rfl hx
  | infinity s => exact .inr ⟨s, rfl⟩
  | zero => exact .inl rfl
  | finite => exact .inl rfl

theorem exact_infinite (hx : x.toModel.unpack = .infinity s) :
    exact x = signed s (limit .binary32) := by
  unfold exact
  rw [hx]
  rfl

theorem isNaN_infinite (hx : x.toModel.unpack = .infinity s) : x.isNaN = false := by
  rw [isNaN_eq_false_iff, hx]
  exact fun h => by cases h

/-- An undefined float stands for zero. -/
theorem exact_undefined (hx : x.isNaN = true) : exact x = 0 := by
  replace hx : x.toModel.unpack.isNaN = true := hx
  unfold exact
  generalize x.toModel.unpack = f at hx ⊢
  cases f <;> first | rfl | cases hx

/-- No float stands beyond the end. -/
theorem abs_exact_le (x : Float32) : |exact x| ≤ limit .binary32 := by
  cases hx : x.isFinite with
  | true => exact (isFinite_iff.1 hx).2.le
  | false =>
    cases hnan : x.isNaN with
    | false => exact (abs_value_of_special hx (isNaN_eq_false_iff.1 hnan)).le
    | true =>
      rw [exact_undefined hnan, abs_zero]
      exact limit_pos.le

theorem abs_exact_lt (hx : x.isFinite = true) : |exact x| < limit .binary32 :=
  (isFinite_iff.1 hx).2

/-- Two floats that are not undefined are equal as numbers if they stand for the same number. -/
theorem beq_iff (hx : x.isNaN = false) (hy : y.isNaN = false) :
    (x == y) = true ↔ exact x = exact y := by
  have hcompare := compare_eq (inFormat x) (inFormat y) (isNaN_eq_false_iff.1 hx)
    (isNaN_eq_false_iff.1 hy)
  show (x.toModel.unpack.compare y.toModel.unpack == some .eq) = true ↔ _
  rw [hcompare, beq_iff_eq, Option.some.injEq, compare_eq_iff_eq]
  rfl

theorem eq_of_unpack_eq (h : x.toModel.unpack = y.toModel.unpack) : x = y :=
  Float32.toBits_inj.1 (UInt32.toBitVec_inj.1
    ((unpack_inj_of_valid x.toModel.valid y.toModel.valid).1 h))

/-- A float that is defined is told by its number, unless that is zero. -/
theorem eq_of_exact_eq (hx : x.isNaN = false) (hy : y.isNaN = false) (hne : exact x ≠ 0)
    (h : exact x = exact y) : x = y := by
  apply eq_of_unpack_eq
  rcases isFinite_or_infinite hx with hfinite | ⟨s, hinfinite⟩
  · have hfinite' : y.isFinite = true := isFinite_iff.2 ⟨hy, h ▸ abs_exact_lt hfinite⟩
    exact (canonical hfinite).eq_of_value_eq (canonical hfinite') hne h
  · rcases isFinite_or_infinite hy with hfinite' | ⟨s', hinfinite'⟩
    · have habs := abs_exact_lt hfinite'
      rw [← h, exact_infinite hinfinite, abs_signed s limit_pos.le] at habs
      exact absurd habs (lt_irrefl _)
    · rw [exact_infinite hinfinite, exact_infinite hinfinite'] at h
      have hpos := limit_pos (F := .binary32)
      rw [hinfinite, hinfinite']
      cases s <;> cases s' <;> simp only [signed] at h
      · rfl
      · linarith
      · linarith
      · rfl

/-! ## What compares is defined -/

theorem compare_notANumber {f g : UnpackedFloat} (h : f = .notANumber ∨ g = .notANumber) :
    f.compare g = none := by
  rcases h with rfl | rfl
  · rfl
  · cases f <;> rfl

theorem isNaN_of_compare {o : Ordering} (h : x.toModel.unpack.compare y.toModel.unpack = some o) :
    x.isNaN = false ∧ y.isNaN = false := by
  rw [isNaN_eq_false_iff, isNaN_eq_false_iff, ← not_or]
  intro hnan
  rw [compare_notANumber hnan] at h
  cases h

theorem isNaN_of_lt (h : x < y) : x.isNaN = false ∧ y.isNaN = false := by
  replace h : decide (x.toModel < y.toModel) = true := h
  rw [decide_eq_true_iff] at h
  exact isNaN_of_compare (beq_iff_eq.1 h)

theorem isNaN_of_le (h : x ≤ y) : x.isNaN = false ∧ y.isNaN = false := by
  replace h : decide (x.toModel ≤ y.toModel) = true := h
  rw [decide_eq_true_iff] at h
  obtain ⟨o, ho, -⟩ := (Option.any_eq_true _ _).1 h
  exact isNaN_of_compare ho

theorem isNaN_of_beq (h : (x == y) = true) : x.isNaN = false ∧ y.isNaN = false :=
  isNaN_of_compare (beq_iff_eq.1 h)

theorem exact_lt_of_lt (h : x < y) : exact x < exact y :=
  (lt_iff (isNaN_of_lt h).1 (isNaN_of_lt h).2).1 h

theorem exact_le_of_le (h : x ≤ y) : exact x ≤ exact y :=
  (le_iff (isNaN_of_le h).1 (isNaN_of_le h).2).1 h

theorem exact_eq_of_beq (h : (x == y) = true) : exact x = exact y :=
  (beq_iff (isNaN_of_beq h).1 (isNaN_of_beq h).2).1 h

/-! ## Operands that are not ordinary -/

section Operands

variable {F : Format} {f g : UnpackedFloat}

/-- Infinite and undefined floats are kept as they are. -/
theorem unpack_pack_special (hf : f.isFinite = false) : unpack F (pack F f) = f := by
  cases f with
  | notANumber => exact unpack_packedNaN
  | infinity s => exact unpack_packedInfinity
  | zero => cases hf
  | finite => cases hf

theorem isFinite_add_special (h : f.isFinite = false ∨ g.isFinite = false) :
    (UnpackedFloat.add F f g).isFinite = false := by
  cases f with
  | notANumber => rfl
  | infinity s =>
    cases g with
    | infinity s' =>
      show (if s == s' then .infinity s else .notANumber : UnpackedFloat).isFinite = false
      split <;> rfl
    | notANumber | zero | finite => rfl
  | zero | finite =>
    cases g with
    | notANumber | infinity => rfl
    | zero | finite => rcases h with h | h <;> cases h

theorem isFinite_sub_special (h : f.isFinite = false ∨ g.isFinite = false) :
    (UnpackedFloat.sub F f g).isFinite = false := by
  cases f with
  | notANumber => rfl
  | infinity s =>
    cases g with
    | infinity s' =>
      show (if s == -s' then .infinity s else .notANumber : UnpackedFloat).isFinite = false
      split <;> rfl
    | notANumber | zero | finite => rfl
  | zero | finite =>
    cases g with
    | notANumber | infinity => rfl
    | zero | finite => rcases h with h | h <;> cases h

theorem isFinite_mul_special (h : f.isFinite = false ∨ g.isFinite = false) :
    (UnpackedFloat.mul F f g).isFinite = false := by
  cases f with
  | notANumber => rfl
  | infinity => cases g <;> rfl
  | zero | finite =>
    cases g with
    | notANumber | infinity => rfl
    | zero | finite => rcases h with h | h <;> cases h

/-- What would not be ordinary without ordinary operands tells that they are. -/
theorem isFinite_operands {r : UnpackedFloat}
    (hspecial : f.isFinite = false ∨ g.isFinite = false → r.isFinite = false)
    (h : (unpack F (pack F r)).isFinite = true) : f.isFinite = true ∧ g.isFinite = true := by
  by_contra hnot
  rw [not_and_or, Bool.not_eq_true, Bool.not_eq_true] at hnot
  have hresult := hspecial hnot
  rw [unpack_pack_special hresult, hresult] at h
  cases h

theorem sub_notANumber (h : f = .notANumber ∨ g = .notANumber) :
    UnpackedFloat.sub F f g = .notANumber := by
  rcases h with rfl | rfl
  · rfl
  · cases f <;> rfl

theorem mul_notANumber (h : f = .notANumber ∨ g = .notANumber) :
    UnpackedFloat.mul F f g = .notANumber := by
  rcases h with rfl | rfl
  · rfl
  · cases f <;> rfl

theorem div_notANumber (h : f = .notANumber ∨ g = .notANumber) :
    UnpackedFloat.div F f g = .notANumber := by
  rcases h with rfl | rfl
  · rfl
  · cases f <;> rfl

/-- The operands of a sum may change places. -/
theorem unpacked_add_swap (f g : UnpackedFloat) :
    UnpackedFloat.add F f g = UnpackedFloat.add F g f := by
  cases f with
  | notANumber => cases g <;> rfl
  | infinity s =>
    cases g with
    | infinity s' => cases s <;> cases s' <;> rfl
    | notANumber | zero | finite => rfl
  | zero s =>
    cases g with
    | zero s' => cases s <;> cases s' <;> rfl
    | notANumber | infinity | finite => rfl
  | finite s m e hm =>
    cases g with
    | finite s' m' e' hm' =>
      show normalize F _ _ _ = normalize F _ _ _
      rw [Int.add_comm, min_comm]
    | notANumber | infinity | zero => rfl

theorem sub_infinity_cases (h : f = .infinity s ∨ g = .infinity (-s)) :
    UnpackedFloat.sub F f g = .infinity s ∨ UnpackedFloat.sub F f g = .notANumber := by
  rcases h with rfl | rfl
  · cases g with
    | notANumber => exact .inr rfl
    | infinity s' => cases s <;> cases s' <;> first | exact .inl rfl | exact .inr rfl
    | zero | finite => exact .inl rfl
  · cases f with
    | notANumber => exact .inr rfl
    | infinity s' => cases s <;> cases s' <;> first | exact .inl rfl | exact .inr rfl
    | zero | finite => cases s <;> exact .inl rfl

end Operands

theorem add_swap (x y : Float32) : x + y = y + x :=
  congrArg (fun f => Float32.ofModel (.pack f)) (unpacked_add_swap x.toModel.unpack y.toModel.unpack)

/-- A sum is an ordinary number only if both operands are. -/
theorem isFinite_of_add (h : (x + y).isFinite = true) : x.isFinite = true ∧ y.isFinite = true :=
  isFinite_operands isFinite_add_special h

/-- A difference is an ordinary number only if both operands are. -/
theorem isFinite_of_sub (h : (x - y).isFinite = true) : x.isFinite = true ∧ y.isFinite = true :=
  isFinite_operands isFinite_sub_special h

/-- A product is an ordinary number only if both operands are. -/
theorem isFinite_of_mul (h : (x * y).isFinite = true) : x.isFinite = true ∧ y.isFinite = true :=
  isFinite_operands isFinite_mul_special h

/-- What would not be defined without defined operands tells that they are. -/
theorem isNaN_operands {r : UnpackedFloat}
    (hspecial : x.toModel.unpack = .notANumber ∨ y.toModel.unpack = .notANumber → r = .notANumber)
    (h : unpack .binary32 (pack .binary32 r) ≠ .notANumber) : x.isNaN = false ∧ y.isNaN = false := by
  simp only [isNaN_eq_false_iff]
  by_contra hnot
  rw [not_and_or, not_not, not_not] at hnot
  rw [hspecial hnot] at h
  exact h unpack_packedNaN

/-- A product is defined only if both operands are. -/
theorem isNaN_of_mul (h : (x * y).isNaN = false) : x.isNaN = false ∧ y.isNaN = false := by
  rw [isNaN_eq_false_iff] at h
  exact isNaN_operands mul_notANumber h

/-- A difference is defined only if both operands are. -/
theorem isNaN_of_sub (h : (x - y).isNaN = false) : x.isNaN = false ∧ y.isNaN = false := by
  rw [isNaN_eq_false_iff] at h
  exact isNaN_operands sub_notANumber h

/-- A quotient is defined only if both operands are. -/
theorem isNaN_of_div (h : (x / y).isNaN = false) : x.isNaN = false ∧ y.isNaN = false := by
  rw [isNaN_eq_false_iff] at h
  exact isNaN_operands div_notANumber h

/-! ## Infinite operands -/

/-- An infinite float stays where it is when an ordinary one is added. -/
theorem add_infinite (hx : x.toModel.unpack = .infinity s) (hy : y.isFinite = true) :
    (x + y).toModel.unpack = .infinity s := by
  have hsum : UnpackedFloat.add .binary32 x.toModel.unpack y.toModel.unpack = .infinity s := by
    rw [hx]
    replace hy : y.toModel.unpack.isFinite = true := hy
    generalize y.toModel.unpack = g at hy
    cases g with
    | infinity => cases hy
    | notANumber => cases hy
    | zero | finite => rfl
  show unpack .binary32 (pack .binary32 (UnpackedFloat.add .binary32 _ _)) = _
  rw [hsum]
  exact unpack_packedInfinity

/-- An infinite float stays where it is when an ordinary one is taken away. -/
theorem sub_infinite (hx : x.toModel.unpack = .infinity s) (hy : y.isFinite = true) :
    (x - y).toModel.unpack = .infinity s := by
  have hdifference : UnpackedFloat.sub .binary32 x.toModel.unpack y.toModel.unpack = .infinity s := by
    rw [hx]
    replace hy : y.toModel.unpack.isFinite = true := hy
    generalize y.toModel.unpack = g at hy
    cases g with
    | infinity => cases hy
    | notANumber => cases hy
    | zero | finite => rfl
  show unpack .binary32 (pack .binary32 (UnpackedFloat.sub .binary32 _ _)) = _
  rw [hdifference]
  exact unpack_packedInfinity

/-- A difference with an infinite operand is infinite in its direction, or undefined. -/
theorem sub_of_infinite (h : x.toModel.unpack = .infinity s ∨ y.toModel.unpack = .infinity (-s))
    (hnan : (x - y).isNaN = false) : (x - y).toModel.unpack = .infinity s := by
  rw [isNaN_eq_false_iff] at hnan
  replace hnan : unpack .binary32 (pack .binary32
    (UnpackedFloat.sub .binary32 x.toModel.unpack y.toModel.unpack)) ≠ .notANumber := hnan
  show unpack .binary32 (pack .binary32
    (UnpackedFloat.sub .binary32 x.toModel.unpack y.toModel.unpack)) = _
  rcases sub_infinity_cases (F := .binary32) h with hsub | hsub
  · rw [hsub]
    exact unpack_packedInfinity
  · rw [hsub] at hnan
    exact absurd unpack_packedNaN hnan

/-- Only the lower end itself is not infinitely far above the lower end. -/
theorem isNaN_sub_lowest (hx : x.isNaN = false) (hlow : -limit .binary32 < exact x)
    (hy : y.toModel.unpack = .infinity .negative) : (x - y).isNaN = false := by
  rw [isNaN_eq_false_iff] at hx ⊢
  show unpack .binary32 (pack .binary32 (UnpackedFloat.sub .binary32 _ _)) ≠ _
  unfold exact at hlow
  rw [hy]
  generalize x.toModel.unpack = f at hx hlow
  have hinfinite : unpack .binary32 (pack .binary32 (.infinity .positive)) ≠ .notANumber := by
    rw [show unpack .binary32 (pack .binary32 (.infinity .positive)) = _ from unpack_packedInfinity]
    exact nofun
  cases f with
  | notANumber => exact absurd rfl hx
  | infinity s =>
    cases s
    · exact absurd hlow (lt_irrefl _)
    · exact hinfinite
  | zero | finite => exact hinfinite

theorem unpack_eq_finite_of_pos (hy : y.isFinite = true) (hpos : 0 < exact y) :
    ∃ m e hm, y.toModel.unpack = .finite .positive m e hm := by
  replace hy : y.toModel.unpack.isFinite = true := hy
  unfold exact at hpos
  generalize y.toModel.unpack = g at hy hpos ⊢
  cases g with
  | infinity => cases hy
  | notANumber => cases hy
  | zero => exact absurd hpos (lt_irrefl 0)
  | finite s m e hm =>
    obtain rfl := eq_positive_of_signed (natCast_mul_zpow_nonneg m e) hpos
    exact ⟨m, e, hm, rfl⟩

theorem mul_infinite (hx : x.toModel.unpack = .infinity s) (hy : y.isFinite = true)
    (hpos : 0 < exact y) : (x * y).toModel.unpack = .infinity s := by
  obtain ⟨m, e, hm, hunpack⟩ := unpack_eq_finite_of_pos hy hpos
  have hproduct : UnpackedFloat.mul .binary32 x.toModel.unpack y.toModel.unpack = .infinity s := by
    rw [hx, hunpack]
    cases s <;> rfl
  show unpack .binary32 (pack .binary32 (UnpackedFloat.mul .binary32 _ _)) = _
  rw [hproduct]
  exact unpack_packedInfinity

theorem div_infinite (hx : x.toModel.unpack = .infinity s) (hy : y.isFinite = true)
    (hpos : 0 < exact y) : (x / y).toModel.unpack = .infinity s := by
  obtain ⟨m, e, hm, hunpack⟩ := unpack_eq_finite_of_pos hy hpos
  have hquotient : UnpackedFloat.div .binary32 x.toModel.unpack y.toModel.unpack = .infinity s := by
    rw [hx, hunpack]
    cases s <;> rfl
  show unpack .binary32 (pack .binary32 (UnpackedFloat.div .binary32 _ _)) = _
  rw [hquotient]
  exact unpack_packedInfinity

/-- What is divided by infinity vanishes. -/
theorem div_by_infinite (hx : x.isFinite = true) (hy : y.toModel.unpack = .infinity s) :
    ∃ s', (x / y).toModel.unpack = .zero s' := by
  have hquotient : ∃ s', UnpackedFloat.div .binary32 x.toModel.unpack y.toModel.unpack = .zero s' := by
    rw [hy]
    replace hx : x.toModel.unpack.isFinite = true := hx
    generalize x.toModel.unpack = f at hx
    cases f with
    | infinity => cases hx
    | notANumber => cases hx
    | zero | finite => exact ⟨_, rfl⟩
  obtain ⟨s', hs'⟩ := hquotient
  refine ⟨s', ?_⟩
  show unpack .binary32 (pack .binary32 (UnpackedFloat.div .binary32 _ _)) = _
  rw [hs']
  exact unpack_packedZero

/-! ## Order -/

theorem isNaN_add (hx : x.isNaN = false) (hy : y.isFinite = true) : (x + y).isNaN = false := by
  rcases isFinite_or_infinite hx with hfinite | ⟨s, hinfinite⟩
  · exact (nearest_add hfinite hy).isNaN
  · exact isNaN_infinite (add_infinite hinfinite hy)

theorem isNaN_mul (hx : x.isNaN = false) (hy : y.isFinite = true) (hpos : 0 < exact y) :
    (x * y).isNaN = false := by
  rcases isFinite_or_infinite hx with hfinite | ⟨s, hinfinite⟩
  · exact (nearest_mul hfinite hy).isNaN
  · exact isNaN_infinite (mul_infinite hinfinite hy hpos)

theorem isNaN_sub (hx : x.isNaN = false) (hy : y.isFinite = true) : (x - y).isNaN = false := by
  rcases isFinite_or_infinite hx with hfinite | ⟨s, hinfinite⟩
  · exact (nearest_sub hfinite hy).isNaN
  · exact isNaN_infinite (sub_infinite hinfinite hy)

theorem isNaN_div (hx : x.isNaN = false) (hy : y.isFinite = true) (hpos : 0 < exact y) :
    (x / y).isNaN = false := by
  rcases isFinite_or_infinite hx with hfinite | ⟨s, hinfinite⟩
  · exact (nearest_div hfinite hy hpos.ne').isNaN
  · exact isNaN_infinite (div_infinite hinfinite hy hpos)

/-- What keeps the order of ordinary floats, and leaves infinite ones where they are, keeps the order
of all that are defined. -/
theorem exact_mono_of_finite {φ : Float32 → Float32} (hx : x.isNaN = false) (hz : z.isNaN = false)
    (hfinite : x.isFinite = true → z.isFinite = true → exact (φ x) ≤ exact (φ z))
    (hinfinite : ∀ w s, w.toModel.unpack = .infinity s → (φ w).toModel.unpack = .infinity s)
    (h : exact x ≤ exact z) : exact (φ x) ≤ exact (φ z) := by
  have hbounds := fun w => abs_le.1 (abs_exact_le w)
  rcases isFinite_or_infinite hx with hx' | ⟨s, hx'⟩
  · rcases isFinite_or_infinite hz with hz' | ⟨s, hz'⟩
    · exact hfinite hx' hz'
    · rw [exact_infinite hz'] at h
      rw [exact_infinite (hinfinite z s hz')]
      cases s
      · exact absurd h (not_le.2 (abs_lt.1 (abs_exact_lt hx')).1)
      · exact (hbounds _).2
  · rw [exact_infinite hx'] at h
    rw [exact_infinite (hinfinite x s hx')]
    cases s
    · exact (hbounds _).1
    · -- Only infinity itself is not below infinity.
      rcases isFinite_or_infinite hz with hz' | ⟨s, hz'⟩
      · exact absurd h (not_le.2 (abs_lt.1 (abs_exact_lt hz')).2)
      · rw [exact_infinite (hinfinite z s hz')]
        rwa [exact_infinite hz'] at h

theorem add_mono (hx : x.isNaN = false) (hz : z.isNaN = false) (hy : y.isFinite = true)
    (h : exact x ≤ exact z) : exact (x + y) ≤ exact (z + y) := by
  refine exact_mono_of_finite (φ := (· + y)) hx hz (fun hx' hz' => ?_)
    (fun w s hw => add_infinite hw hy) h
  show exact (x + y) ≤ exact (z + y)
  rw [(nearest_add hx' hy).exact_eq, (nearest_add hz' hy).exact_eq]
  exact nearest_mono (by linarith)

theorem mul_mono (hx : x.isNaN = false) (hz : z.isNaN = false) (hy : y.isFinite = true)
    (hpos : 0 < exact y) (h : exact x ≤ exact z) : exact (x * y) ≤ exact (z * y) := by
  refine exact_mono_of_finite (φ := (· * y)) hx hz (fun hx' hz' => ?_)
    (fun w s hw => mul_infinite hw hy hpos) h
  show exact (x * y) ≤ exact (z * y)
  rw [(nearest_mul hx' hy).exact_eq, (nearest_mul hz' hy).exact_eq]
  exact nearest_mono (mul_le_mul_of_nonneg_right h hpos.le)

theorem sub_mono (hx : x.isNaN = false) (hz : z.isNaN = false) (hy : y.isFinite = true)
    (h : exact x ≤ exact z) : exact (x - y) ≤ exact (z - y) := by
  refine exact_mono_of_finite (φ := (· - y)) hx hz (fun hx' hz' => ?_)
    (fun w s hw => sub_infinite hw hy) h
  show exact (x - y) ≤ exact (z - y)
  rw [(nearest_sub hx' hy).exact_eq, (nearest_sub hz' hy).exact_eq]
  exact nearest_mono (by linarith)

theorem div_mono (hx : x.isNaN = false) (hz : z.isNaN = false) (hy : y.isFinite = true)
    (hpos : 0 < exact y) (h : exact x ≤ exact z) : exact (x / y) ≤ exact (z / y) := by
  refine exact_mono_of_finite (φ := (· / y)) hx hz (fun hx' hz' => ?_)
    (fun w s hw => div_infinite hw hy hpos) h
  show exact (x / y) ≤ exact (z / y)
  rw [(nearest_div hx' hy hpos.ne').exact_eq, (nearest_div hz' hy hpos.ne').exact_eq]
  exact nearest_mono (div_le_div_of_nonneg_right h hpos.le)

/-- A difference that is defined, and not at the lower end, gets neither smaller nor undefined when
more is there to be taken from. -/
theorem le_sub_of_le (hz : z.isNaN = false) (h : exact x ≤ exact z) (hnan : (x - y).isNaN = false)
    (hlow : -limit .binary32 < exact (x - y)) :
    (z - y).isNaN = false ∧ exact (x - y) ≤ exact (z - y) := by
  obtain ⟨hx, hy⟩ := isNaN_of_sub hnan
  rcases isFinite_or_infinite hy with hfinite | ⟨s, hinfinite⟩
  · exact ⟨isNaN_sub hz hfinite, sub_mono hx hz hfinite h⟩
  · cases s with
    | positive =>
      rw [exact_infinite (sub_of_infinite (s := .negative) (.inr hinfinite) hnan)] at hlow
      exact absurd hlow (lt_irrefl _)
    | negative =>
      -- What is taken away is at the lower end. There `x` is not, so `z` is not there either.
      have hx' : -limit .binary32 < exact x := by
        refine lt_of_le_of_ne (abs_le.1 (abs_exact_le x)).1 fun hlowest => ?_
        rcases isFinite_or_infinite hx with hx' | ⟨s, hx'⟩
        · exact (abs_lt.1 (abs_exact_lt hx')).1.ne hlowest
        · rw [exact_infinite (sub_of_infinite (.inl hx') hnan), ← exact_infinite hx', ← hlowest] at hlow
          exact absurd hlow (lt_irrefl _)
      have hz' := isNaN_sub_lowest hz (hx'.trans_le h) hinfinite
      rw [exact_infinite (sub_of_infinite (s := .positive) (.inr hinfinite) hnan),
        exact_infinite (sub_of_infinite (s := .positive) (.inr hinfinite) hz')]
      exact ⟨hz', le_rfl⟩

/-- Adding what is not negative does not lead back. -/
theorem le_add (hx : x.isNaN = false) (hy : y.isFinite = true) (hnonneg : 0 ≤ exact y) :
    exact x ≤ exact (x + y) := by
  rcases isFinite_or_infinite hx with hfinite | ⟨s, hinfinite⟩
  · exact (nearest_add hfinite hy).le_exact (by linarith)
  · rw [exact_infinite hinfinite, exact_infinite (add_infinite hinfinite hy)]

/-- Two floats that differ have a difference that does not vanish. -/
theorem sub_pos_of_lt (hx : x.isFinite = true) (hy : y.isFinite = true) (h : exact x < exact y) :
    0 < exact (y - x) := by
  rw [(nearest_sub hy hx).exact_eq]
  exact nearest_sub_pos (by decide) (grid_value (inFormat x)) (grid_value (inFormat y)) h

end BranchingDialogue.Binary32
