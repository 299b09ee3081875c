import BranchingDialogue.Proofs.Graph.Sockets
import BranchingDialogue.Story.Passage

/-!
# What passing a node comes to

`Node.Passes` lists what a walk may do at a node, one case a kind, and `pass_eq_ok_iff` says that
this is what passing the node does. Two things are read off the list: that neither the way on nor
the variables depend on when a walk comes to a node (`Passes.exists_control_eq`), and that a node
writes at most the variable it names (`Passes.variables_eq`).

`Node.Fails` does the same for what goes wrong, and `fails_of_pass` says that nothing else does. In
particular passing a node never fails for the reason that the walk is too long,
`pass_ne_depthExceeded`, since only the walk counts its nodes.
-/

namespace BranchingDialogue

variable {α : Type}

/-- The error tells what is wrong with a node itself: with what it holds, or with the kind of value
at its data input. -/
def WalkError.Concerns (id : NodeId) : WalkError α → Prop
  | .missingField node _ | .invalidField node _ _ | .textTooLong node _ _ | .notBoolean node _
  | .notNumeric node _ | .markup node _ | .curve node _ => node = id
  | _ => False

/-- How a walk goes on after a node, and with which variables. -/
def Passage.control (p : Passage α) : Onward × Variables := (p.onward, p.situation.variables)

namespace Node

variable [Scalar α] {r : Runtime α} {g : Graph} {index : Nat} {n : Node} {s : Situation α}
  {p : Passage α}

/-- What a walk may do at a node. -/
inductive Passes (r : Runtime α) (g : Graph) (index : Nat) (n : Node) (s : Situation α) :
    Passage α → Prop
  | input (kind : n.kind = .input) : Passes r g index n s ⟨s, none, .along continuePort⟩
  | dialogue (kind : n.kind = .dialogue) {stripped : StrippedText} {effects : TextEffects α}
      {reveal : Reveal α} (text : n.strippedText r = .ok (stripped, effects))
      (shown : n.reveal r (durationOr r.settings.dialogueDuration (n.payload.scalar? "duration"))
        effects.pauses stripped.charCount = .ok reveal) :
      Passes r g index n s
        (s.emit
          { Clip.new .dialogue n.id s.moment.endTime
              (durationOr r.settings.dialogueDuration (n.payload.scalar? "duration")) with
            actor := n.textAt "actorID", text := stripped.text, tags := stripped.tags, effects,
            reveal := some reveal }
          (.along continuePort))
  | choice (kind : n.kind = .choice) {choices : List String}
      (offered : n.options "choices" = (.ok choices : Except (WalkError α) (List String)))
      {stripped : StrippedText} {effects : TextEffects α}
      (text : n.strippedText r = .ok (stripped, effects)) :
      Passes r g index n s
        (s.emit
          { Clip.new .choice n.id s.moment.endTime
              (durationOr r.settings.choiceDuration (n.payload.scalar? "duration")) with
            actor := n.textAt "actorID", text := stripped.text, tags := stripped.tags, effects,
            choices }
          (.choose choices))
  | action (kind : n.kind = .action) {choices : List String}
      (offered : n.options "actions" = (.ok choices : Except (WalkError α) (List String))) :
      Passes r g index n s
        (s.emit
          { Clip.new .action n.id
              (s.moment.startTime + durationOr Scalar.zero (n.payload.scalar? "delay"))
              (durationOr r.settings.choiceDuration (n.payload.scalar? "duration")) with choices }
          (.choose choices))
  | set (kind : n.kind = .set) {name : String} {value : Value}
      (target : n.payload.text? "property" = some name)
      (input : n.dataInput r g index s.variables = .ok value) :
      Passes r g index n s
        ⟨{ s with «variables» := s.variables.insert name value }, none, .along continuePort⟩
  | condition (kind : n.kind = .condition) {value : Value} {holds : Bool}
      (input : n.dataInput r g index s.variables = .ok value) (truth : value.asBool? = some holds) :
      Passes r g index n s ⟨s, none, .along (if holds then 0 else 1)⟩
  | marker (kind : n.kind = .marker) : Passes r g index n s (n.passMarker s)
  | blend (kind : n.kind = .blend) {duration : α}
      (lasts : n.blendDuration r g index s.variables = .ok duration) :
      Passes r g index n s
        (s.emit
          { Clip.new .blend n.id s.moment.endTime duration with text := n.textAt "target" }
          (.along continuePort))

/-- Why a walk may fail at a node. -/
inductive Fails (r : Runtime α) (g : Graph) (index : Nat) (n : Node) (vars : Variables) :
    WalkError α → Prop
  | itself {e : WalkError α} (concerns : e.Concerns n.id) : Fails r g index n vars e
  /-- The data input of the node has no value. -/
  | input {cause : ProcessorError} (socket : n.layout.contains .input dataSocket = true)
      (pull : g.pullInput vars r.settings.processorDepth index dataSocket = .error cause) :
      Fails r g index n vars (.processor n.id cause)
  /-- The node takes no part in the flow. -/
  | processor (kind : n.kind.isProcessor = true) :
      Fails r g index n vars (.notInterpretable n.id n.kind)

theorem passes_of_pass (h : n.pass r g index s = .ok p) : n.Passes r g index s p := by
  rw [pass] at h
  split at h
  · next kind =>
    cases h
    exact .input kind
  · next kind =>
    rw [passDialogue] at h
    split at h
    · cases h
    · next stripped effects text =>
      simp only at h
      split at h
      · cases h
      · next shown =>
        cases h
        exact .dialogue kind text shown
  · next kind =>
    rw [passChoice] at h
    split at h
    · cases h
    · next offered =>
      split at h
      · cases h
      · next text =>
        cases h
        exact .choice kind offered text
  · next kind =>
    rw [passAction] at h
    split at h
    · cases h
    · next offered =>
      cases h
      exact .action kind offered
  · next kind =>
    rw [passSet] at h
    split at h
    · cases h
    · next target =>
      split at h
      · cases h
      · next input =>
        cases h
        exact .set kind target input
  · next kind =>
    rw [passCondition] at h
    split at h
    · cases h
    · next input =>
      split at h
      · next truth =>
        cases h
        exact .condition kind input truth
      · cases h
  · next kind =>
    cases h
    exact .marker kind
  · next kind =>
    rw [passBlend] at h
    cases lasts : n.blendDuration r g index s.variables with
    | error e =>
      rw [lasts] at h
      cases h
    | ok duration =>
      rw [lasts] at h
      cases h
      exact .blend kind lasts
  -- What is left are processors, at which no walk can be.
  all_goals cases h

theorem Passes.pass_eq (h : n.Passes r g index s p) : n.pass r g index s = .ok p := by
  cases h with
  | input kind => simp only [pass, kind]
  | dialogue kind text shown => simp only [pass, kind, passDialogue, text, shown]
  | choice kind offered text => simp only [pass, kind, passChoice, offered, text]
  | action kind offered => simp only [pass, kind, passAction, offered]
  | set kind target input => simp only [pass, kind, passSet, target, input]
  | condition kind input truth => simp only [pass, kind, passCondition, input, truth]
  | marker kind => simp only [pass, kind]
  | blend kind lasts => simp only [pass, kind, passBlend, lasts, Except.map]

/-- A walk does at a node what is listed for its kind, and nothing else. -/
theorem pass_eq_ok_iff : n.pass r g index s = .ok p ↔ n.Passes r g index s p :=
  ⟨passes_of_pass, Passes.pass_eq⟩

/-- **When a walk comes to a node has no influence on how it goes on.** -/
theorem Passes.exists_control_eq (h : n.Passes r g index s p) (m : Moment α) :
    ∃ q, n.Passes r g index ⟨m, s.variables⟩ q ∧ q.control = p.control := by
  cases h with
  | input kind => exact ⟨_, .input kind, rfl⟩
  | dialogue kind text shown => exact ⟨_, .dialogue kind text shown, rfl⟩
  | choice kind offered text => exact ⟨_, .choice kind offered text, rfl⟩
  | action kind offered => exact ⟨_, .action kind offered, rfl⟩
  | set kind target input => exact ⟨_, .set kind target input, rfl⟩
  | condition kind input truth => exact ⟨_, .condition kind input truth, rfl⟩
  | marker kind => exact ⟨_, .marker kind, rfl⟩
  | blend kind lasts => exact ⟨_, .blend kind lasts, rfl⟩

/-- A node leaves the variables as they are, or it writes the one it names, with the value at its
data input. -/
theorem Passes.variables_eq (h : n.Passes r g index s p) :
    p.situation.variables = s.variables
      ∨ ∃ name value, n.payload.text? "property" = some name
          ∧ n.dataInput r g index s.variables = .ok value
          ∧ p.situation.variables = s.variables.insert name value := by
  cases h with
  | set kind target input => exact Or.inr ⟨_, _, target, input, rfl⟩
  | _ => exact Or.inl rfl

/-! ## What fails at a node -/

omit [Scalar α] in
theorem concerns_of_options {key : String} {e : WalkError α} (h : n.options key = .error e) :
    e.Concerns n.id := by
  rw [options] at h
  split at h
  · split at h
    · cases h
    · cases h
      rfl
  · cases h

theorem concerns_of_strippedText {e : WalkError α} (h : n.strippedText r = .error e) :
    e.Concerns n.id := by
  simp only [strippedText] at h
  split at h
  · cases h
    rfl
  · split at h
    · cases h
      rfl
    · split at h
      · cases h
        rfl
      · cases h

theorem concerns_of_authoredCurve {e : WalkError α} (h : n.authoredCurve = .error e) :
    e.Concerns n.id := by
  rw [authoredCurve] at h
  split at h
  · cases h
  · cases h
    rfl
  · split at h
    · cases h
      rfl
    · next keys _ =>
      cases hkeys : Curve.ofKeys keys <;> rw [hkeys] at h <;> cases h
      rfl

theorem concerns_of_reveal {duration : α} {pauses : List (Pause α)} {length : Nat}
    {e : WalkError α} (h : n.reveal r duration pauses length = .error e) : e.Concerns n.id := by
  rw [reveal] at h
  split at h
  · next hcurve =>
    cases h
    exact concerns_of_authoredCurve hcurve
  · simp only at h
    split at h
    · cases h
    · cases h
      rfl

omit [Scalar α] in
theorem pullInput_of_dataInput {vars : Variables} {value : Value}
    (h : n.dataInput r g index vars = .ok value) :
    g.pullInput vars r.settings.processorDepth index dataSocket = .ok value := by
  rw [dataInput] at h
  cases hpull : g.pullInput vars r.settings.processorDepth index dataSocket with
  | error cause =>
    rw [hpull] at h
    cases h
  | ok found =>
    rw [hpull] at h
    cases h
    rfl

omit [Scalar α] in
theorem fails_of_dataInput {vars : Variables} {e : WalkError α}
    (socket : n.layout.contains .input dataSocket = true)
    (h : n.dataInput r g index vars = .error e) : n.Fails r g index vars e := by
  rw [dataInput] at h
  cases hv : g.pullInput vars r.settings.processorDepth index dataSocket with
  | error cause =>
    rw [hv] at h
    cases h
    exact .input socket hv
  | ok value =>
    rw [hv] at h
    cases h

theorem fails_of_blendDuration {vars : Variables} {e : WalkError α}
    (socket : n.layout.contains .input dataSocket = true)
    (h : n.blendDuration r g index vars = .error e) : n.Fails r g index vars e := by
  rw [blendDuration] at h
  split at h
  · split at h
    · next hinput =>
      cases h
      exact fails_of_dataInput socket hinput
    · split at h
      · cases h
      · cases h
        exact .itself rfl
  · cases h

/-- **Why passing a node fails**: something is wrong with the node itself, or its data input has no
value, or it takes no part in the flow. -/
theorem fails_of_pass {s : Situation α} {e : WalkError α} (h : n.pass r g index s = .error e) :
    n.Fails r g index s.variables e := by
  rw [pass] at h
  split at h
  case h_1 => cases h
  case h_2 =>
    rw [passDialogue] at h
    split at h
    · next htext =>
      cases h
      exact .itself (concerns_of_strippedText htext)
    · simp only at h
      split at h
      · next hreveal =>
        cases h
        exact .itself (concerns_of_reveal hreveal)
      · cases h
  case h_3 =>
    rw [passChoice] at h
    split at h
    · next hoptions =>
      cases h
      exact .itself (concerns_of_options hoptions)
    · split at h
      · next htext =>
        cases h
        exact .itself (concerns_of_strippedText htext)
      · cases h
  case h_4 =>
    rw [passAction] at h
    split at h
    · next hoptions =>
      cases h
      exact .itself (concerns_of_options hoptions)
    · cases h
  case h_5 hkind =>
    rw [passSet] at h
    split at h
    · cases h
      exact .itself rfl
    · split at h
      · next hinput =>
        cases h
        exact fails_of_dataInput (contains_dataSocket (.inl hkind)) hinput
      · cases h
  case h_6 hkind =>
    rw [passCondition] at h
    split at h
    · next hinput =>
      cases h
      exact fails_of_dataInput (contains_dataSocket (.inr (.inl hkind))) hinput
    · split at h
      · cases h
      · cases h
        exact .itself rfl
  case h_7 => cases h
  case h_8 hkind =>
    rw [passBlend] at h
    cases hlasts : n.blendDuration r g index s.variables with
    | error e =>
      rw [hlasts] at h
      cases h
      exact fails_of_blendDuration (contains_dataSocket (.inr (.inr hkind))) hlasts
    | ok duration =>
      rw [hlasts] at h
      cases h
  -- What is left are processors.
  all_goals
    next hkind =>
      cases h
      exact .processor (by rw [hkind]; rfl)

/-- Passing a node does not fail for the length of the walk. -/
theorem pass_ne_depthExceeded {s : Situation α} {id : NodeId} {limit : Nat} :
    n.pass r g index s ≠ .error (.depthExceeded id limit) := by
  intro h
  cases fails_of_pass h with
  | itself hconcerns => exact hconcerns

end Node

end BranchingDialogue
