import BranchingDialogue.Proofs.Document.Floats
import BranchingDialogue.Proofs.Json.Rereading
import BranchingDialogue.Runtime
import BranchingDialogue.Scalar.Binary32

/-!
# Loading what was saved

A graph that was loaded from a text is saved as a text. That text can always be loaded, if it is not
too long, but its floats are read anew and the reader need not find them again. So the graph that is
loaded is the one that was saved with its floats reread (`Runtime.loadText_text_toDocument`). It is
the same graph exactly if each float is reread as itself, for example if all have brief digits.
-/

namespace BranchingDialogue.Runtime

variable {α : Type} {r : Runtime α} {text : String} {g : Graph}

theorem exists_of_loadText (h : r.loadText text = .ok g) :
    ∃ d, r.readDocument text = .ok d ∧ Graph.ofDocument r.kinds d = .ok g := by
  rw [loadText] at h
  split at h
  · cases h
  · next d hd => exact ⟨d, hd, h⟩

theorem loadText_of_read {d : Document} (hsize : text.utf8ByteSize ≤ r.settings.limits.documentBytes)
    (hread : Document.kind.read text.toList = .ok (d, [])) (hload : r.load d = .ok g) :
    r.loadText text = .ok g := by
  rw [loadText, readDocument, Document.read, if_neg (Nat.not_lt.2 hsize), Json.whole, hread]
  exact hload

/-- What is saved of a graph is read as its document with the floats reread. -/
theorem readDocument_text_toDocument (h : r.loadText text = .ok g)
    (hsize : g.toDocument.text.utf8ByteSize ≤ r.settings.limits.documentBytes) :
    r.readDocument g.toDocument.text = .ok (g.toDocument.mapFloats Json.reread) := by
  obtain ⟨d, hd, hg⟩ := exists_of_loadText h
  exact Document.read_text_mapFloats (Graph.sized_toDocument hd hg)
    (fun x _ => Json.readsAs_reread x) hsize

/-- **A graph that is saved and loaded again has its floats reread**, and nothing else has changed: it
is the same graph exactly if each float is reread as itself, as those with brief digits are. -/
theorem loadText_text_toDocument (h : r.loadText text = .ok g)
    (hsize : g.toDocument.text.utf8ByteSize ≤ r.settings.limits.documentBytes) :
    ∃ g', r.loadText g.toDocument.text = .ok g'
      ∧ g'.toDocument = g.toDocument.mapFloats Json.reread
      ∧ (g' = g ↔ ∀ x ∈ g.toDocument.floats, Json.reread x = x)
      ∧ ((∀ x ∈ g.toDocument.floats, Json.Brief x) → g' = g) := by
  obtain ⟨d, hd, hg⟩ := exists_of_loadText h
  obtain ⟨g', hg', hdocument, hsame⟩ := Graph.exists_ofDocument_mapFloats (f := Json.reread)
    (Graph.ofDocument_toDocument hg).1 (Graph.sized_toDocument hd hg)
  have hload : r.loadText g.toDocument.text = .ok g' := by
    rw [loadText, readDocument_text_toDocument h hsize]
    exact hg'
  exact ⟨g', hload, hdocument, hsame, fun hbrief =>
    hsame.2 fun x hx => Json.reread_of_brief (hbrief x hx)⟩

/-- A text with a property and a duration whose digits are not brief. -/
def thirds : String :=
  "\x7b\"Version\":1,\"ObjectID\":\"thirds\",\"Properties\":["
    ++ "\x7b\"ID\":\"00000000000000000000000000000abc\",\"Type\":\"Float\",\"Name\":\"mood\","
    ++ "\"Value\":1.3333333333333333333\x7d],\"Nodes\":["
    ++ "\x7b\"ID\":\"000000000000000000000000000000a1\",\"Type\":\"InputNode\",\"Binder\":\"Input\"\x7d,"
    ++ "\x7b\"ID\":\"000000000000000000000000000000b2\",\"Type\":\"DialogueNode\","
    ++ "\"Binder\":\"Dialogue\"\x7d],\"Edges\":[],\"Positions\":[],\"Data\":["
    ++ "\x7b\"inputName\":\"start\"\x7d,"
    ++ "\x7b\"text\":\"Wait\",\"duration\":1.3333333333333333333\x7d]\x7d"

/-- Both are found again as the next double. -/
theorem loadText_text_toDocument_thirds :
    ∃ g g', (Runtime.new (α := Float32) .default).loadText thirds = .ok g
      ∧ (Runtime.new (α := Float32) .default).loadText g.toDocument.text = .ok g'
      ∧ g.toDocument.floats.map (fun x => x.1.toBits) = [4608683618675807574, 4608683618675807574]
      ∧ g'.toDocument.floats.map (fun x => x.1.toBits) = [4608683618675807575, 4608683618675807575]
      ∧ g' ≠ g := by
  have hfits : thirds.utf8ByteSize ≤ Limits.default.documentBytes := by decide +kernel
  have hfound : (Document.kind.read thirds.toList).toOption.bind (fun p =>
        ((Runtime.new (α := Float32) .default).load p.1).toOption.map fun g =>
          (p.2.isEmpty, decide (g.toDocument.text.utf8ByteSize ≤ Limits.default.documentBytes),
            g.toDocument.floats.map (fun x => x.1.toBits),
            (g.toDocument.floats.map Json.reread).map (fun x => x.1.toBits)))
      = some (true, true, [4608683618675807574, 4608683618675807574],
          [4608683618675807575, 4608683618675807575]) := by
    -- The characters of the parts are evaluated faster than those of the whole text.
    unfold thirds
    iterate 7 rw [String.toList_append]
    decide +kernel
  cases hread : Document.kind.read thirds.toList with
  | error e =>
    rw [hread] at hfound
    cases hfound
  | ok p =>
    obtain ⟨d, rest⟩ := p
    rw [hread, Except.toOption, Option.bind_some] at hfound
    cases hd : (Runtime.new (α := Float32) .default).load d with
    | error e =>
      rw [hd] at hfound
      cases hfound
    | ok g =>
      rw [hd, Except.toOption, Option.map_some, Option.some.injEq, Prod.mk.injEq,
        Prod.mk.injEq, Prod.mk.injEq] at hfound
      obtain ⟨hrest, hsize, hbits, hagain⟩ := hfound
      obtain rfl := List.isEmpty_iff.1 hrest
      have hg := loadText_of_read hfits hread hd
      obtain ⟨g', hload, hdocument, -, -⟩ := loadText_text_toDocument hg (of_decide_eq_true hsize)
      rw [← Document.floats_mapFloats, ← hdocument] at hagain
      refine ⟨g, g', hg, hload, hbits, hagain, ?_⟩
      rintro rfl
      rw [hbits] at hagain
      exact absurd hagain (by decide)

end BranchingDialogue.Runtime
