import BranchingDialogue.Proofs.Markup.Again
import BranchingDialogue.Proofs.Markup.Blaming

/-!
# One answer for each name

A registry looks a name up among its definitions from the first one on, and puts a new definition in
the place of the first one of its name. `Unambiguous` says that no two definitions have the same name
and that none has a name of the text renderer, so that the order does not matter for what is found.
Registering keeps it: what happens to the definitions is said once, by `place_cases`, and the rest
follows from where the new one stands.

Main result: `unambiguous_of_offerAll`, which also says what this means for the texts that are
stripped.
-/

namespace BranchingDialogue

namespace TagRegistry

variable {r r' : TagRegistry} {d e : TagDefinition} {ds : List TagDefinition} {name text : String}

/-! ## Where a definition is put -/

/-- A definition replaces the first one of its name, or comes last if there is none. -/
theorem place_cases (d : TagDefinition) (ds : List TagDefinition) :
    (∃ before e after, ds = before ++ e :: after ∧ (∀ b ∈ before, ¬sameName b.name d.name)
        ∧ sameName e.name d.name ∧ place d ds = before ++ d :: after)
      ∨ (∀ e ∈ ds, ¬sameName e.name d.name) ∧ place d ds = ds ++ [d] := by
  induction ds with
  | nil => exact .inr ⟨nofun, rfl⟩
  | cons e es ih =>
    by_cases hsame : sameName e.name d.name
    · refine .inl ⟨[], e, es, rfl, nofun, hsame, ?_⟩
      rw [place, if_pos hsame]
      rfl
    · have hplace : place d (e :: es) = e :: place d es := by rw [place, if_neg hsame]
      rw [hplace]
      rcases ih with ⟨before, e', after, rfl, hbefore, hsame', hput⟩ | ⟨hnone, hput⟩
      · refine .inl ⟨e :: before, e', after, rfl, ?_, hsame', by rw [hput]; rfl⟩
        exact List.forall_mem_cons.2 ⟨hsame, hbefore⟩
      · exact .inr ⟨List.forall_mem_cons.2 ⟨hsame, hnone⟩, by rw [hput]; rfl⟩

/-- What an accepted definition does to a registry: it takes the place of the one of its name or the
last place, it is found under its name in either case of the letters, and all that is found under other
names is what was found before. -/
structure Takes (r : TagRegistry) (d : TagDefinition) (r' : TagRegistry) : Prop where
  place :
    (∃ before e after, r.definitions = before ++ e :: after ∧ sameName e.name d.name
        ∧ r'.definitions = before ++ d :: after)
      ∨ (∀ e ∈ r.definitions, ¬sameName e.name d.name) ∧ r'.definitions = r.definitions ++ [d]
  found : ∀ name, sameName d.name name → r'.custom? name = some d
  others : ∀ name, ¬sameName d.name name → r'.custom? name = r.custom? name

/-- A definition is found if none before it has its name. -/
theorem custom?_of_append {before after : List TagDefinition}
    (hr : r.definitions = before ++ d :: after) (hbefore : ∀ b ∈ before, ¬sameName b.name d.name)
    (hname : sameName d.name name) : r.custom? name = some d := by
  have hnone : before.find? (fun b => sameName b.name name) = none := by
    rw [List.find?_eq_none]
    intro b hb hsame
    exact hbefore b hb (sameName_trans hsame (sameName_symm hname))
  rw [custom?, hr, List.find?_append, hnone, Option.none_or]
  exact List.find?_cons_of_pos hname

/-- A definition of another name is passed over. -/
theorem find?_skip (h : ¬sameName d.name name) (ds : List TagDefinition) :
    (d :: ds).find? (fun e => sameName e.name name)
      = ds.find? (fun e => sameName e.name name) :=
  List.find?_cons_of_neg h

theorem takes_place (d : TagDefinition) (r : TagRegistry) :
    r.Takes d ⟨TagRegistry.place d r.definitions⟩ := by
  rcases place_cases d r.definitions with
    ⟨before, e, after, hr, hbefore, hsame, hplace⟩ | ⟨hnone, hplace⟩
  · refine ⟨.inl ⟨before, e, after, hr, hsame, hplace⟩, fun name hname => ?_, fun name hname => ?_⟩
    · exact custom?_of_append hplace hbefore hname
    · -- Neither the definition that is put in nor the one that it replaces has the other name.
      have hname' : ¬sameName e.name name := by
        intro h
        exact hname (sameName_trans (sameName_symm hsame) h)
      rw [custom?, custom?, hplace, hr, List.find?_append, List.find?_append, find?_skip hname,
        find?_skip hname']
  · refine ⟨.inr ⟨hnone, hplace⟩, fun name hname => ?_, fun name hname => ?_⟩
    · exact custom?_of_append hplace hnone hname
    · rw [custom?, custom?, hplace, List.find?_append, find?_skip hname, List.find?_nil,
        Option.or_none]

/-! ## Registering -/

theorem register_eq_error_iff {err : MarkupError} :
    r.register d = .error err ↔ isNative d.name ∧ err = .reservedName d.name := by
  unfold register
  split
  · next h => simp [h, eq_comm]
  · next h => simp [h]

theorem register_eq_ok_iff :
    r.register d = .ok r' ↔ isNative d.name = false ∧ r' = ⟨place d r.definitions⟩ := by
  unfold register
  split
  · next h => simp [h]
  · next h => simp [h, eq_comm]

/-- The registry after a definition has been offered to it: one that is refused changes nothing. -/
def offer (r : TagRegistry) (d : TagDefinition) : TagRegistry :=
  match r.register d with
  | .ok r' => r'
  | .error _ => r

/-- The registry after some definitions have been offered to it, one after the other. -/
def offerAll (r : TagRegistry) (ds : List TagDefinition) : TagRegistry := ds.foldl offer r

/-- A definition is refused, for its name alone, or it takes its place. -/
theorem offer_cases (r : TagRegistry) (d : TagDefinition) :
    (isNative d.name ∧ r.register d = .error (.reservedName d.name) ∧ r.offer d = r)
      ∨ (¬isNative d.name ∧ r.register d = .ok (r.offer d) ∧ r.Takes d (r.offer d)) := by
  by_cases hnative : isNative d.name
  · have hrefused := (register_eq_error_iff (r := r)).2 ⟨hnative, rfl⟩
    exact .inl ⟨hnative, hrefused, by rw [offer, hrefused]⟩
  · have hok := (register_eq_ok_iff (r := r)).2 ⟨Bool.eq_false_iff.2 hnative, rfl⟩
    have hoffer : r.offer d = ⟨place d r.definitions⟩ := by rw [offer, hok]
    refine .inr ⟨hnative, by rw [hoffer, hok], ?_⟩
    rw [hoffer]
    exact takes_place d r

/-! ## What registering keeps -/

/-- No two definitions have the same name, and none has a name of the text renderer. -/
structure Unambiguous (r : TagRegistry) : Prop where
  distinct : r.definitions.Pairwise fun d e => ¬sameName d.name e.name
  foreign : ∀ d ∈ r.definitions, ∀ native ∈ nativeTags, ¬sameName native d.name

/-- A definition in the place of one of its name differs from all those that the other one did. -/
theorem distinct_of_replaced {before after : List TagDefinition} (hsame : sameName e.name d.name)
    (h : (before ++ e :: after).Pairwise fun d e => ¬sameName d.name e.name) :
    (before ++ d :: after).Pairwise fun d e => ¬sameName d.name e.name := by
  simp only [List.pairwise_append, List.pairwise_cons, List.forall_mem_cons] at h ⊢
  obtain ⟨hbefore, ⟨hhead, hafter⟩, hacross⟩ := h
  refine ⟨hbefore, ⟨fun a ha hda => ?_, hafter⟩, fun b hb => ⟨fun hbd => ?_, (hacross b hb).2⟩⟩
  · exact hhead a ha (sameName_trans hsame hda)
  · exact (hacross b hb).1 (sameName_trans hbd (sameName_symm hsame))

/-- **An accepted definition keeps the names apart.** -/
theorem Takes.distinct (h : r.Takes d r')
    (hr : r.definitions.Pairwise fun d e => ¬sameName d.name e.name) :
    r'.definitions.Pairwise fun d e => ¬sameName d.name e.name := by
  rcases h.place with ⟨before, e, after, hbefore, hsame, hafter⟩ | ⟨hnone, hafter⟩
  · rw [hbefore] at hr
    rw [hafter]
    exact distinct_of_replaced hsame hr
  · rw [hafter, List.pairwise_append]
    refine ⟨hr, List.pairwise_singleton _ _, fun e he d' hd' => ?_⟩
    rw [List.mem_singleton.1 hd']
    exact hnone e he

theorem Built.unambiguous (h : r.Built) : r.Unambiguous := by
  refine ⟨?_, fun d hd => ?_⟩
  · induction h with
    | empty => exact .nil
    | builtin => decide
    | @register r r' d built registered ih =>
      rw [(register_eq_ok_iff.1 registered).2]
      exact (takes_place d r).distinct ih
  · have hforeign := h.not_isNative d hd
    rwa [isNative, List.any_eq_false] at hforeign

theorem Built.offer (h : r.Built) (d : TagDefinition) : (r.offer d).Built := by
  rcases offer_cases r d with ⟨-, -, hsame⟩ | ⟨-, hok, -⟩
  · rwa [hsame]
  · exact .register h hok

theorem Built.offerAll (h : r.Built) (ds : List TagDefinition) : (r.offerAll ds).Built := by
  induction ds generalizing r with
  | nil => exact h
  | cons d ds ih => exact ih (h.offer d)

/-! ## Whose a name is -/

/-- A name is the text renderer's, the library's own or nobody's, and only one of these. -/
structure Classifies (r : TagRegistry) (name : String) : Prop where
  native : r.classify? name = some .native ↔ isNative name
  custom : r.classify? name = some .custom ↔ (r.custom? name).isSome
  none : r.classify? name = none ↔ ¬isNative name ∧ r.custom? name = none
  exclusive : ¬(isNative name ∧ (r.custom? name).isSome)

theorem Built.custom?_eq_none (h : r.Built) (hnative : isNative name) : r.custom? name = none := by
  by_contra hcustom
  obtain ⟨d, known⟩ := Option.ne_none_iff_exists'.1 hcustom
  rw [h.not_isNative_of_custom? known] at hnative
  cases hnative

theorem Built.classifies (h : r.Built) (name : String) : r.Classifies name := by
  by_cases hnative : isNative name
  · have hnone := h.custom?_eq_none hnative
    have hclass : r.classify? name = some .native := by rw [classify?, if_pos hnative]
    constructor <;> simp [hclass, hnative, hnone]
  · have hclass : r.classify? name = if (r.custom? name).isSome then some .custom else none := by
      rw [classify?, if_neg hnative]
    cases hcustom : r.custom? name <;> constructor <;> simp [hclass, hnative, hcustom]

/-! ## Markup of the text renderer -/

/-- Stripping leaves the markup of the text renderer where it stands in a text. -/
structure LeavesNative (r : TagRegistry) (text : String) : Prop where
  /-- Its tags are shown, between what is shown of the pieces before them and of those after them. -/
  shown : ∀ s, r.strip text = .ok s → ∀ before t cs after,
    CutFrom text 0 (before ++ ⟨some t, cs⟩ :: after) → isNative t.name →
      s.text.toList = Piece.shown r before ++ cs ++ Piece.shown r after
  /-- They are not listed. -/
  listed : ∀ s, r.strip text = .ok s → ∀ t ∈ s.tags, ¬isNative t.name
  /-- No error is about them. -/
  blamed : ∀ e, r.strip text = .error e → ¬isNative e.tag
  /-- Where there is no other markup the text stays as it is. -/
  whole : (∀ t ∈ Token.cut text, ∀ name, t.name? = some name → isNative name) →
    r.strip text = .ok ⟨text, []⟩

theorem Built.leavesNative (h : r.Built) (text : String) : r.LeavesNative text where
  shown := by
    intro s hs before t cs after hcut hnative
    obtain ⟨hplaces, -⟩ := places_of_strip hs
    have hforeign : (⟨some t, cs⟩ : Piece).custom? r = none := by
      simp [Piece.custom?, h.custom?_eq_none hnative]
    rw [hplaces.text, (Token.cutFrom_cut text).eq hcut, Piece.shown_append, Piece.shown_cons,
      hforeign, ← List.append_assoc]
    rfl
  listed := by
    intro s hs t ht
    obtain ⟨hplaces, -⟩ := places_of_strip hs
    obtain ⟨o, ho, hof⟩ := exists_mem_of_forall₂ hplaces.tags ht
    rw [hof.name]
    exact Bool.eq_false_iff.1 (h.not_isNative _ (Piece.mem_definitions_of_mem_listed ho))
  blamed := by
    intro e he
    obtain ⟨before, token, after, s, hcut, hbefore, hfails⟩ := strip_eq_error_iff.1 he
    have hmalformed := Stripping.malformed_of_fails (Stripping.nests_of_tokens hbefore) hfails
    obtain ⟨⟨-, d, known⟩, -⟩ := points_of_malformed (Token.standsAt_of_cut hcut) hmalformed
    exact Bool.eq_false_iff.1 (h.not_isNative_of_custom? known)
  whole := by
    intro hall
    rw [strip_eq_self_iff]
    intro t ht
    have hname := hall t ht
    cases t with
    | tag t => exact h.custom?_eq_none (hname t.name rfl)
    | openQuote name offset => exact h.custom?_eq_none (hname name rfl)
    | char c => trivial

/-- **However tags are registered, each name has one answer.** After any definitions have been offered
to a registry without tags or to the one with pauses and gradients, no two of those that it has have
the same name and none has a name of the text renderer. One more definition is refused, which changes
nothing, or is found from then on under its name and under no other. So a name is the text renderer's
or the library's own or neither, and the text renderer's markup is never taken out of a text. -/
theorem unambiguous_of_offerAll {base : TagRegistry} (h : base = empty ∨ base = builtin)
    (ds : List TagDefinition) :
    (base.offerAll ds).Unambiguous
      ∧ (∀ d, (isNative d.name ∧ (base.offerAll ds).register d = .error (.reservedName d.name)
            ∧ (base.offerAll ds).offer d = base.offerAll ds)
          ∨ (¬isNative d.name
            ∧ (base.offerAll ds).register d = .ok ((base.offerAll ds).offer d)
            ∧ (base.offerAll ds).Takes d ((base.offerAll ds).offer d)))
      ∧ (∀ name, (base.offerAll ds).Classifies name)
      ∧ ∀ text, (base.offerAll ds).LeavesNative text := by
  have hbase : base.Built := by
    rcases h with rfl | rfl
    · exact .empty
    · exact .builtin
  have hall := hbase.offerAll ds
  exact ⟨hall.unambiguous, offer_cases _, hall.classifies, hall.leavesNative⟩

/-- A name of the text renderer, a name that is taken and a new one, in letters of either case. -/
def offered : List TagDefinition :=
  [⟨"Color", .span, .host⟩, ⟨"WAIT", .span, .host⟩, ⟨"shake", .single, .host⟩]

theorem unambiguous_of_offerAll_offered :
    (builtin.offerAll offered).definitions
        = [⟨"WAIT", .span, .host⟩, ⟨"gradient", .span, .gradient⟩, ⟨"shake", .single, .host⟩]
      ∧ (builtin.offerAll offered).Unambiguous
      ∧ (builtin.offerAll offered).strip "<B>a</B><Shake/><COLOR=red>"
        = .ok ⟨"<B>a</B><COLOR=red>", [⟨"shake", .single, .host, 8, 0, none, []⟩]⟩
      ∧ (builtin.offerAll offered).LeavesNative "<B>a</B><Shake/><COLOR=red>" := by
  obtain ⟨hunambiguous, -, -, hleaves⟩ := unambiguous_of_offerAll (.inr rfl) offered
  exact ⟨by decide, hunambiguous, by decide +kernel, hleaves _⟩

end TagRegistry

end BranchingDialogue
