import BranchingDialogue.Proofs.Story.OneLoop

/-!
# Walks that wait

The suspensions that walks on a graph come to, from any entry and after any picks. Between two picks
the settings, the tags and the variables of the walker may change; only the graph stays.

Each such suspension was made by a turn (`Suspension.Arises.exists_turn`), so what it says of its
node can be read off the node: `Suspension.Arises.waitsAt`. A run fails only where its first stretch
does or one that is resumed from such a suspension (`Walker.exists_resume_of_run`).
-/

namespace BranchingDialogue

variable {α : Type} [Scalar α]

/-- A walk on a graph comes to a suspension. -/
inductive Suspension.Arises (g : Graph) : Suspension α → Prop
  | start {r : Runtime α} {seed : Variables} {entry : String} {walk : Walk α} {s : Suspension α}
      (stretch : (⟨r, g, seed⟩ : Walker α).start entry = .ok walk)
      (outcome : walk.outcome = .suspended s) : Arises g s
  | resume {r : Runtime α} {seed : Variables} {before : Suspension α} {option : Nat}
      {walk : Walk α} {s : Suspension α} (arises : Arises g before)
      (stretch : (⟨r, g, seed⟩ : Walker α).resume before option = .ok walk)
      (outcome : walk.outcome = .suspended s) : Arises g s

/-- Where a stretch ends with a suspension, its last turn made it. -/
theorem Walker.exists_turn_of_stretch {w : Walker α} {limit room index : Nat} {s : Situation α}
    {clips : Array (Clip α)} {walk : Walk α} {waiting : Suspension α}
    (h : w.stretch limit room index s clips = .ok walk)
    (hwaiting : walk.outcome = .suspended waiting) :
    ∃ index s clip s', turn w.runtime w.graph index s = .rests clip (.suspended waiting) s' := by
  induction room generalizing index s clips with
  | zero =>
    rw [stretch_zero] at h
    split at h <;> cases h
  | succ room ih =>
    rw [stretch_succ] at h
    cases hturn : turn w.runtime w.graph index s with
    | fails e =>
      rw [hturn] at h
      cases h
    | moves clip next s' =>
      rw [hturn] at h
      exact ih h
    | rests clip outcome s' =>
      rw [hturn] at h
      cases h
      replace hwaiting : outcome = .suspended waiting := hwaiting
      rw [hwaiting] at hturn
      exact ⟨index, s, clip, s', hturn⟩

namespace Suspension

variable {g : Graph} {s : Suspension α}

theorem Arises.exists_turn (h : s.Arises g) :
    ∃ r index situation clip situation',
      turn r g index situation = .rests clip (.suspended s) situation' := by
  cases h with
  | @start r seed entry walk _ hstretch houtcome =>
    rw [Walker.start] at hstretch
    split at hstretch
    · cases hstretch
    · exact ⟨r, Walker.exists_turn_of_stretch hstretch houtcome⟩
  | @resume r seed before option walk _ _ hstretch houtcome =>
    rw [Walker.resume] at hstretch
    split at hstretch
    · cases hstretch
    · split at hstretch
      · cases hstretch
      · split at hstretch
        · exact ⟨r, Walker.exists_turn_of_stretch hstretch houtcome⟩
        · cases hstretch
          cases houtcome

end Suspension

/-! ## What a suspension says of its node -/

/-- Where nodes of a kind have the texts of what can be picked. -/
def NodeKind.optionsKey? : NodeKind → Option String
  | .choice => some "choices"
  | .action => some "actions"
  | _ => none

theorem Value.mapM_asText?_eq_some_iff {items : List Value} {texts : List String} :
    items.mapM asText? = some texts ↔ items = texts.map .text := by
  induction items generalizing texts with
  | nil => cases texts <;> simp
  | cons v items ih =>
    rw [List.mapM_cons]
    cases v with
    | text s =>
      show ((items.mapM asText?).bind fun rest => some (s :: rest)) = some texts ↔ _
      rw [Option.bind_eq_some_iff]
      constructor
      · rintro ⟨rest, hrest, heq⟩
        cases heq
        rw [ih.1 hrest, List.map_cons]
      · intro h
        cases texts with
        | nil => cases h
        | cons t texts =>
          rw [List.map_cons, List.cons.injEq, text.injEq] at h
          obtain ⟨rfl, hitems⟩ := h
          exact ⟨texts, ih.2 hitems, rfl⟩
    | _ => cases texts <;> simp [asText?]

/-- A payload has texts under a name if there is a sequence of just these. -/
theorem Payload.texts?_eq_some_iff {p : Payload} {key : String} {texts : List String} :
    p.texts? key = some texts ↔ p.get? key = some (.sequence (texts.map .text)) := by
  rw [texts?, sequence?]
  cases p.get? key with
  | none => simp
  | some v => cases v <;> simp [Value.asSequence?, Value.mapM_asText?_eq_some_iff]

/-- Passing a node leaves a choice only where the texts of the node are offered, all of them. -/
theorem Node.Passes.offers {r : Runtime α} {g : Graph} {index : Nat} {n : Node} {s : Situation α}
    {p : Passage α} (h : n.Passes r g index s p) {options : List String}
    (honward : p.onward = .choose options) :
    ∃ key, n.kind.optionsKey? = some key
      ∧ n.options key = (.ok options : Except (WalkError α) (List String)) := by
  cases h with
  | choice kind offered text =>
    cases honward
    exact ⟨"choices", by rw [kind]; rfl, offered⟩
  | action kind offered =>
    cases honward
    exact ⟨"actions", by rw [kind]; rfl, offered⟩
  | _ => cases honward

omit [Scalar α] in
/-- Texts are offered only if they are there. -/
theorem Node.get?_of_options {n : Node} {key : String} {options : List String}
    (h : n.options key = (.ok options : Except (WalkError α) (List String))) (hne : options ≠ []) :
    n.payload.get? key = some (.sequence (options.map .text)) := by
  rw [Node.options] at h
  split at h
  · split at h
    · next htexts =>
      cases h
      exact Payload.texts?_eq_some_iff.1 htexts
    · cases h
  · cases h
    exact absurd rfl hne

/-- A suspension says what its node does, and offers what that has to offer. -/
structure Suspension.WaitsAt (g : Graph) (s : Suspension α) (n : Node) : Prop where
  node : g.node? s.node = some n
  id : s.nodeId = n.id
  kind : s.kind = n.kind
  offers : ∃ key, n.kind.optionsKey? = some key
    ∧ n.payload.get? key = some (.sequence (s.options.map .text))
  nonempty : s.options ≠ []

theorem waitsAt_of_turn {r : Runtime α} {g : Graph} {index : Nat} {s s' : Situation α}
    {clip : Option (Clip α)} {waiting : Suspension α}
    (h : turn r g index s = .rests clip (.suspended waiting) s') : ∃ n, waiting.WaitsAt g n := by
  rw [turn] at h
  split at h
  · cases h
  · next n hn =>
    split at h
    · cases h
    · next p hpass =>
      split at h
      · split at h <;> cases h
      · cases h
      · next options hne honward =>
        cases h
        obtain ⟨key, hkey, hoptions⟩ := (Node.passes_of_pass hpass).offers honward
        exact ⟨n, hn, rfl, rfl, ⟨key, hkey, Node.get?_of_options hoptions hne⟩, hne⟩

namespace Suspension

variable {g : Graph} {s : Suspension α} {n : Node}

theorem Arises.exists_waitsAt (h : s.Arises g) : ∃ n, s.WaitsAt g n := by
  obtain ⟨_, _, _, _, _, hturn⟩ := h.exists_turn
  exact waitsAt_of_turn hturn

omit [Scalar α] in
theorem WaitsAt.nodeId_eq (h : s.WaitsAt g n) : (g.node? s.node).map (·.id) = some s.nodeId := by
  rw [h.node, h.id, Option.map_some]

omit [Scalar α] in
theorem WaitsAt.isProcessor_eq (h : s.WaitsAt g n) : n.kind.isProcessor = false := by
  obtain ⟨key, hkey, -⟩ := h.offers
  cases hkind : n.kind <;> rw [hkind] at hkey <;> first | rfl | cases hkey

end Suspension

/-! ## Runs -/

namespace Walker

variable {w : Walker α} {options : List Nat} {walk : Walk α} {entry : String} {e : WalkError α}

theorem exists_resume_of_answer
    (hwalk : ∀ s, walk.outcome = .suspended s → s.Arises w.graph)
    (h : w.answer walk options = .error e) :
    ∃ s option, s.Arises w.graph ∧ w.resume s option = .error e := by
  induction options generalizing walk with
  | nil => cases h
  | cons option options ih =>
    rw [answer] at h
    cases hs : walk.suspension? with
    | none =>
      rw [hs] at h
      cases h
    | some s =>
      rw [hs] at h
      have harises := hwalk s (outcome_of_suspension? hs)
      simp only at h
      split at h
      · next hresume =>
        cases h
        exact ⟨s, option, harises, hresume⟩
      · next next hresume =>
        have hnext : ∀ s, (walk.append next).outcome = .suspended s → s.Arises w.graph :=
          fun _ houtcome => .resume harises hresume houtcome
        exact ih hnext h

/-- A run that fails, fails at its beginning or where it is resumed. -/
theorem exists_resume_of_run (h : w.run entry options = .error e) :
    w.start entry = .error e ∨ ∃ s option, s.Arises w.graph ∧ w.resume s option = .error e := by
  rw [run] at h
  split at h
  · next hstart =>
    cases h
    exact .inl hstart
  · next hstart =>
    exact .inr (exists_resume_of_answer (fun _ houtcome => .start hstart houtcome) h)

theorem exists_of_suspension? {s : Suspension α}
    (h : (w.run entry options).toOption.bind Walk.suspension? = some s) :
    ∃ walk, w.run entry options = .ok walk ∧ walk.outcome = .suspended s := by
  obtain ⟨walk, hwalk, hs⟩ := Option.bind_eq_some_iff.1 h
  refine ⟨walk, ?_, outcome_of_suspension? hs⟩
  cases hrun : w.run entry options with
  | error e =>
    rw [hrun] at hwalk
    cases hwalk
  | ok other =>
    rw [hrun] at hwalk
    cases hwalk
    rfl

/-- A run that waits, waits with a suspension that arises on its graph. -/
theorem arises_of_run (h : w.run entry options = .ok walk) {s : Suspension α}
    (hs : walk.outcome = .suspended s) : s.Arises w.graph := by
  refine run_induction (P := fun walk => ∀ s, walk.outcome = .suspended s → s.Arises w.graph)
    ?_ ?_ h s hs
  · intro walk hstart s hs
    exact .start hstart hs
  · intro walk waiting option next hwalk hwaiting hresume s hs
    exact .resume (hwalk waiting hwaiting) hresume hs

end Walker

end BranchingDialogue
