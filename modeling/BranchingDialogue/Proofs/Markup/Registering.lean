import BranchingDialogue.Markup.Registry

/-!
# Names in a registry

Names that differ only in the case of their letters are one name: a registry finds the same definition
under both, and definitions found under other names have other names.

`TagRegistry.Built` says which registries are made by registering tags. None of them has a name of the
text renderer, so whose a tag is never depends on which family is asked for first:
`TagRegistry.Built.classify?_eq_custom_iff`.
-/

namespace BranchingDialogue

variable {a b c : String}

theorem sameName_iff : sameName a b ↔ a.toList.map Char.toLower = b.toList.map Char.toLower :=
  beq_iff_eq

theorem sameName_refl (a : String) : sameName a a := sameName_iff.2 rfl

theorem sameName_symm (h : sameName a b) : sameName b a :=
  sameName_iff.2 (sameName_iff.1 h).symm

theorem sameName_trans (h : sameName a b) (h' : sameName b c) : sameName a c :=
  sameName_iff.2 ((sameName_iff.1 h).trans (sameName_iff.1 h'))

/-- Names that are the same are the same as the same names. -/
theorem sameName_congr (h : sameName a b) (c : String) : sameName c a = sameName c b := by
  rw [Bool.eq_iff_iff]
  exact ⟨fun ha => sameName_trans ha h, fun hb => sameName_trans hb (sameName_symm h)⟩

theorem isNative_congr (h : sameName a b) : isNative a = isNative b := by
  rw [isNative, isNative]
  congr 1
  funext name
  exact sameName_congr h name

namespace TagRegistry

variable {r r' : TagRegistry} {d d' : TagDefinition} {name name' : String}

theorem sameName_of_custom? (h : r.custom? name = some d) : sameName d.name name := by
  have hfound := List.find?_some (p := fun e : TagDefinition => sameName e.name name) h
  exact hfound

theorem custom?_congr (h : sameName name name') : r.custom? name = r.custom? name' := by
  rw [custom?, custom?]
  congr 1
  funext d
  exact sameName_congr h d.name

/-- Two names are the same exactly if they are names of the same definition. -/
theorem sameName_iff_of_custom? (h : r.custom? name = some d) (h' : r.custom? name' = some d') :
    sameName name name' ↔ d.name = d'.name := by
  constructor
  · intro hsame
    rw [custom?_congr hsame, h'] at h
    cases h
    rfl
  · intro heq
    have hname := sameName_of_custom? h
    rw [heq] at hname
    exact sameName_trans (sameName_symm hname) (sameName_of_custom? h')

/-! ## Registries that are built -/

/-- The registries that are made by registering tags. -/
inductive Built : TagRegistry → Prop
  | empty : Built empty
  | builtin : Built builtin
  | register {r r' : TagRegistry} {d : TagDefinition} (built : Built r)
      (registered : r.register d = .ok r') : Built r'

theorem mem_place {ds : List TagDefinition} (h : d' ∈ place d ds) : d' = d ∨ d' ∈ ds := by
  induction ds with
  | nil => exact .inl (List.mem_singleton.1 h)
  | cons e es ih =>
    rw [place] at h
    split at h
    · rcases List.mem_cons.1 h with rfl | h
      · exact .inl rfl
      · exact .inr (List.mem_cons_of_mem _ h)
    · rcases List.mem_cons.1 h with rfl | h
      · exact .inr List.mem_cons_self
      · exact (ih h).imp_right (List.mem_cons_of_mem _)

/-- No tag of the library's own has a name of the text renderer. -/
theorem Built.not_isNative (h : r.Built) : ∀ d ∈ r.definitions, isNative d.name = false := by
  induction h with
  | empty => exact fun _ hd => absurd hd List.not_mem_nil
  | builtin => decide
  | register built registered ih =>
    unfold TagRegistry.register at registered
    split at registered
    · cases registered
    · next hnative =>
      cases registered
      intro d hd
      rcases mem_place hd with rfl | hd
      · exact Bool.eq_false_iff.2 hnative
      · exact ih d hd

theorem Built.not_isNative_of_custom? (h : r.Built) (known : r.custom? name = some d) :
    isNative name = false := by
  rw [← isNative_congr (sameName_of_custom? known)]
  exact h.not_isNative d (List.mem_of_find?_eq_some known)

/-- A tag is of the library's own exactly if it is found. -/
theorem Built.classify?_eq_custom_iff (h : r.Built) :
    r.classify? name = some .custom ↔ ∃ d, r.custom? name = some d := by
  unfold classify?
  constructor
  · intro hfamily
    split at hfamily
    · cases hfamily
    · split at hfamily
      · next hfound => exact Option.isSome_iff_exists.1 hfound
      · cases hfamily
  · rintro ⟨d, hd⟩
    rw [h.not_isNative_of_custom? hd, if_neg Bool.false_ne_true, hd]
    rfl

end TagRegistry

end BranchingDialogue
