import BranchingDialogue.Proofs.Story.Touching
import BranchingDialogue.Proofs.Story.Waiting

/-!
# Options and branches

What can be picked at a suspension and which edges leave its node are counted three times: loading
counts the elements of the payload to check the edges, passing the node reads their texts, and
resuming checks a pick against the texts that were offered. `Suspension.Branches` says that on a
loaded graph the three agree, and so every authored branch can be picked and nothing else can.

Where a payload holds something else than texts nothing is offered: a stretch that touches such a
node fails there (`Walker.stretch_of_touched`), and so does a run (`Walker.run_of_touched`).
-/

namespace BranchingDialogue

/-- What can be picked at a suspension are the authored branches of its node, one to one. -/
structure Suspension.Branches {α : Type} [Scalar α] (g : Graph) (s : Suspension α) (n : Node) :
    Prop where
  node : g.node? s.node = some n ∧ n.id = s.nodeId
  /-- The options are the texts in the payload, in order. -/
  texts : ∃ key, n.kind.optionsKey? = some key
    ∧ n.payload.get? key = some (.sequence (s.options.map .text))
  nonempty : 1 ≤ s.options.length
  outputs : s.options.length = n.layout.outputs
  /-- Edges leave the node from outputs that are options. -/
  edges : ∀ e ∈ g.edges, e.output.node = s.node →
    ∃ p < s.options.length, e.output = .output s.node p
  /-- An option leads to where the first edge of its output leads, or it ends the walk. -/
  resumed : ∀ (r : Runtime α) (seed : Variables), ∀ p < s.options.length,
    (⟨r, g, seed⟩ : Walker α).resume s p
      = match g.edges.toList.find? fun e => e.output = .output s.node p with
        | some e => (⟨r, g, seed⟩ : Walker α).walkFrom e.input.node ⟨s.moment, s.variables⟩
        | none => .ok ⟨[], .finished, s.variables⟩
  refused : ∀ (r : Runtime α) (seed : Variables) (p : Nat), s.options.length ≤ p →
    (⟨r, g, seed⟩ : Walker α).resume s p
      = .error (.invalidOption s.nodeId p s.options.length)
  /-- An edge of the node is taken by an option, or one before it has the same output. -/
  taken : ∀ k e, g.edge? k = some e → e.output.node = s.node →
    (∃ p < s.options.length,
        (g.edges.toList.find? fun e => e.output = .output s.node p) = some e)
      ∨ ∃ j < k, ∃ before, g.edge? j = some before ∧ before.output = e.output

/-! ## Branches -/

/-- A branching node has an output for each element of its payload. -/
theorem Node.outputs_of_optionsKey? {n : Node} {key : String}
    (hkey : n.kind.optionsKey? = some key) {items : List Value}
    (hitems : n.payload.get? key = some (.sequence items)) : n.layout.outputs = items.length := by
  have hlength : n.payload.sequenceLength key = items.length := by
    rw [Payload.sequenceLength, Payload.sequence?, hitems]
    rfl
  rw [Node.layout, ← hlength]
  cases hkind : n.kind <;> rw [hkind] at hkey <;> cases hkey <;> rfl

/-- Of the edges of an output the first is found. -/
theorem Graph.find?_or_before {g : Graph} {k : Nat} {e : Edge} (hk : g.edge? k = some e)
    {p : PortRef} (hp : e.output = p) :
    (g.edges.toList.find? fun e => e.output = p) = some e
      ∨ ∃ j < k, ∃ before, g.edge? j = some before ∧ before.output = e.output := by
  rw [edge?, ← Array.getElem?_toList] at hk
  obtain ⟨hlt, he⟩ := List.getElem?_eq_some_iff.1 hk
  by_cases hfirst : ∃ j < k, ∃ before, g.edge? j = some before ∧ before.output = e.output
  · exact .inr hfirst
  · refine .inl (List.find?_eq_some_iff_getElem.2 ⟨decide_eq_true hp, k, hlt, he, ?_⟩)
    intro j hj
    have hlt' : j < g.edges.toList.length := hj.trans hlt
    have hbefore : g.edge? j = some g.edges.toList[j] := by
      rw [edge?, ← Array.getElem?_toList, List.getElem?_eq_getElem hlt']
    rw [Bool.not_eq_true']
    refine decide_eq_false fun hsame => hfirst ⟨j, hj, _, hbefore, ?_⟩
    rw [hsame, hp]

variable {registry : NodeRegistry} {d : Document} {g : Graph}

/-- Edges leave a node from outputs that it declares. -/
theorem Graph.exists_output_of_mem (hload : ofDocument registry d = .ok g) {e : Edge}
    (he : e ∈ g.edges) {n : Node} (hn : g.node? e.output.node = some n) :
    ∃ p < n.layout.outputs, e.output = .output e.output.node p := by
  obtain ⟨n', m, hedge⟩ := exists_connects_of_mem hload he
  have hn' := hedge.output
  rw [hn, Option.some.injEq] at hn'
  subst hn'
  obtain ⟨p, hp, hnumber⟩ := Node.contains_output_iff.1 hedge.declaredOutput
  obtain ⟨k, hk⟩ := Array.mem_iff_getElem?.1 he
  have hdirection := ((tablesAgree_of_ofDocument hload).edges k e hk).2.1
  refine ⟨p, hp, ?_⟩
  rw [PortRef.output, ← hdirection, ← hnumber]

variable {α : Type} [Scalar α]

theorem Suspension.WaitsAt.branches (hload : Graph.ofDocument registry d = .ok g)
    {s : Suspension α} {n : Node} (h : s.WaitsAt g n) : s.Branches g n := by
  obtain ⟨key, hkey, htexts⟩ := h.offers
  have hlength : s.options.length = n.layout.outputs := by
    rw [Node.outputs_of_optionsKey? hkey htexts, List.length_map]
  have hedges : ∀ e ∈ g.edges, e.output.node = s.node →
      ∃ p < s.options.length, e.output = .output s.node p := by
    intro e he hnode
    have hn : g.node? e.output.node = some n := hnode ▸ h.node
    rw [hlength, ← hnode]
    exact Graph.exists_output_of_mem hload he hn
  refine ⟨⟨h.node, h.id.symm⟩, ⟨key, hkey, htexts⟩, List.length_pos_iff.2 h.nonempty, hlength,
    hedges, ?_, ?_, ?_⟩
  · intro r seed p hp
    rw [resume_eq h.nodeId_eq, if_neg (Nat.not_le.2 hp)]
    simp only [(Graph.tablesAgree_of_ofDocument hload).follow]
    cases g.edges.toList.find? fun e => e.output = .output s.node p <;> rfl
  · intro r seed p hp
    rw [resume_eq h.nodeId_eq, if_pos hp]
  · intro k e hk hnode
    obtain ⟨p, hp, houtput⟩ := hedges e (Array.mem_of_getElem? hk) hnode
    rcases Graph.find?_or_before hk houtput with hfirst | hbefore
    · exact .inl ⟨p, hp, hfirst⟩
    · exact .inr hbefore

/-! ## Payloads that are no texts -/

/-- A branching node fails if its payload holds something else than texts. -/
theorem Node.pass_of_not_texts {n : Node} {key : String} (hkey : n.kind.optionsKey? = some key)
    {v : Value} (hv : n.payload.get? key = some v)
    (hnot : ∀ texts : List String, v ≠ .sequence (texts.map .text)) (r : Runtime α) (g : Graph)
    (index : Nat) (s : Situation α) :
    n.pass r g index s = .error (.invalidField n.id key "expected a list of strings") := by
  have hcontains : n.payload.contains key = true := by
    rw [Dictionary.contains_eq_true_iff]
    exact ⟨v, hv⟩
  have htexts : n.payload.texts? key = none := by
    refine Option.eq_none_iff_forall_ne_some.2 fun texts h => hnot texts ?_
    rw [Payload.texts?_eq_some_iff, hv, Option.some.injEq] at h
    exact h
  have hoptions : (n.options key : Except (WalkError α) (List String))
      = .error (.invalidField n.id key "expected a list of strings") := by
    rw [options, if_pos hcontains, htexts]
  cases hkind : n.kind <;> rw [hkind] at hkey <;> cases hkey
  · simp only [pass, hkind, passChoice, hoptions]
  · simp only [pass, hkind, passAction, hoptions]

namespace Walker

variable {w : Walker α} {i : Nat} {e : WalkError α} {limit room index : Nat} {s : Situation α}
  {clips : Array (Clip α)} {walk : Walk α} {c : Call α} {entry : String} {options : List Nat}

/-- A stretch fails at a node that it touches and at which every turn fails. -/
theorem stretch_of_touched (hfails : ∀ s, turn w.runtime w.graph i s = .fails e)
    (h : .passes i ∈ w.touchedFrom room index s) : w.stretch limit room index s clips = .error e := by
  induction room generalizing index s clips with
  | zero => cases h
  | succ room ih =>
    rw [stretch_succ]
    cases hn : w.graph.node? index with
    | none =>
      rw [touchedFrom, hn] at h
      cases h
    | some n =>
      obtain ⟨pulled, hlog⟩ := touchedFrom_succ hn room s
      rw [hlog, List.cons_append, List.mem_cons, List.mem_append, List.mem_map] at h
      rcases h with heq | ⟨j, -, heq⟩ | h
      · cases heq
        rw [hfails]
      · cases heq
      · split at h
        · next hturn =>
          rw [hturn]
          exact ih h
        · cases h

theorem call_of_touched (hfails : ∀ s, turn w.runtime w.graph i s = .fails e)
    (h : .passes i ∈ w.touchedBy c) : w.call c = .error e := by
  rw [touchedBy] at h
  rw [call_eq]
  split at h
  · next hbegin =>
    rw [hbegin]
    exact stretch_of_touched hfails h
  · cases h

theorem answer_of_touched (hfails : ∀ s, turn w.runtime w.graph i s = .fails e)
    (h : .passes i ∈ w.touchedByAnswer walk options) : w.answer walk options = .error e := by
  induction options generalizing walk with
  | nil => cases h
  | cons option options ih =>
    rw [touchedByAnswer] at h
    rw [answer]
    cases hs : walk.suspension? with
    | none =>
      rw [hs] at h
      cases h
    | some waiting =>
      rw [hs] at h
      rcases List.mem_append.1 h with h | h
      · have hresume : w.resume waiting option = .error e := call_of_touched hfails h
        simp only [hresume]
      · cases hnext : w.resume waiting option with
        | error other =>
          rw [hnext] at h
          cases h
        | ok next =>
          rw [hnext] at h
          simp only [hnext]
          exact ih h

/-- A run fails at a node that it touches and at which every turn fails. -/
theorem run_of_touched (hfails : ∀ s, turn w.runtime w.graph i s = .fails e)
    (h : .passes i ∈ w.touchedByRun entry options) : w.run entry options = .error e := by
  rw [run]
  rcases List.mem_append.1 h with h | h
  · have hstart : w.start entry = .error e := call_of_touched hfails h
    rw [hstart]
  · cases hstart : w.start entry with
    | error other =>
      rw [hstart] at h
      cases h
    | ok first =>
      rw [hstart] at h
      exact answer_of_touched hfails h

end Walker

/-- **Options and authored branches correspond one to one.** On a loaded graph, a walk that waits
offers the texts of a choice or an action in order, at least one, and as many as loading has counted
outputs; so every edge of the node leaves from an option. Resuming with an option leads to where the
first edge of its output leads, or ends the walk without a clip if there is none; any other number is
refused; and an edge that no option takes has an earlier one at the same output. Where what is to be
offered is no sequence of texts, a stretch or a run that comes to the node fails, naming the node and
the key, and no walk ever waits there. -/
theorem options_are_branches (registry : NodeRegistry) (d : Document) (g : Graph)
    (hload : Graph.ofDocument registry d = .ok g) :
    (∀ s : Suspension α, s.Arises g → ∃ n, s.Branches g n)
      ∧ (∀ (r : Runtime α) seed entry options (walk : Walk α) s,
          (⟨r, g, seed⟩ : Walker α).run entry options = .ok walk → walk.outcome = .suspended s →
            ∃ n, s.Branches g n)
      ∧ ∀ i n key v, g.node? i = some n → n.kind.optionsKey? = some key →
          n.payload.get? key = some v → (∀ texts : List String, v ≠ .sequence (texts.map .text)) →
          (∀ (r : Runtime α) seed c, .passes i ∈ (⟨r, g, seed⟩ : Walker α).touchedBy c →
              (⟨r, g, seed⟩ : Walker α).call c
                = .error (.invalidField n.id key "expected a list of strings"))
          ∧ (∀ (r : Runtime α) seed entry options,
              .passes i ∈ (⟨r, g, seed⟩ : Walker α).touchedByRun entry options →
              (⟨r, g, seed⟩ : Walker α).run entry options
                = .error (.invalidField n.id key "expected a list of strings"))
          ∧ ∀ s : Suspension α, s.Arises g → s.node ≠ i := by
  have hbranches : ∀ s : Suspension α, s.Arises g → ∃ n, s.Branches g n := by
    intro s harises
    obtain ⟨n, hwaits⟩ := harises.exists_waitsAt
    exact ⟨n, hwaits.branches hload⟩
  refine ⟨hbranches, ?_, ?_⟩
  · intro r seed entry options walk s hrun houtcome
    exact hbranches s (Walker.arises_of_run hrun houtcome)
  · intro i n key v hn hkey hv hnot
    have hfails : ∀ (r : Runtime α) s, turn r g i s
        = .fails (.invalidField n.id key "expected a list of strings") := by
      intro r s
      simp only [turn, hn, Node.pass_of_not_texts hkey hv hnot]
    refine ⟨?_, ?_, ?_⟩
    · intro r seed c htouched
      exact Walker.call_of_touched (hfails r) htouched
    · intro r seed entry options htouched
      exact Walker.run_of_touched (hfails r) htouched
    · rintro s harises rfl
      obtain ⟨m, hm⟩ := hbranches s harises
      obtain ⟨key', hkey', htexts⟩ := hm.texts
      have hsame := hm.node.1
      rw [hn, Option.some.injEq] at hsame
      subst hsame
      rw [hkey, Option.some.injEq] at hkey'
      subst hkey'
      rw [hv, Option.some.injEq] at htexts
      exact hnot _ htexts

/-- A choice of which one option leads nowhere and the other one has two edges, and an action that
offers a number. -/
def crossing : Document where
  version := 1
  objectId := "00000000-0000-0000-0000-000000000000"
  properties := []
  nodes :=
    [⟨"aaaaaaaaaaaaaaaaaaaaaaaaaaaaaaaa", "InputNode", "Input"⟩,
      ⟨"bbbbbbbbbbbbbbbbbbbbbbbbbbbbbbbb", "ChoiceNode", "Choice"⟩,
      ⟨"cccccccccccccccccccccccccccccccc", "MarkerNode", "Marker"⟩,
      ⟨"dddddddddddddddddddddddddddddddd", "ActionNode", "Action"⟩]
  edges :=
    [⟨⟨"aaaaaaaaaaaaaaaaaaaaaaaaaaaaaaaa", 0⟩, ⟨"bbbbbbbbbbbbbbbbbbbbbbbbbbbbbbbb", 0⟩⟩,
      ⟨⟨"bbbbbbbbbbbbbbbbbbbbbbbbbbbbbbbb", 1⟩, ⟨"dddddddddddddddddddddddddddddddd", 0⟩⟩,
      ⟨⟨"bbbbbbbbbbbbbbbbbbbbbbbbbbbbbbbb", 1⟩, ⟨"cccccccccccccccccccccccccccccccc", 0⟩⟩]
  positions := []
  data :=
    [.object [("inputName", .text "start")],
      .object [("choices", .array [.text "Stay", .text "Go"])], .object [],
      .object [("actions", .array [.text "Run", .integer ⟨2, by decide⟩])]]

theorem options_are_branches_crossing :
    ∃ g, Graph.ofDocument .builtin crossing = .ok g
      ∧ (∃ walk s n, (Walker.new (.new .default) g : Walker ℚ).run "start" [] = .ok walk
          ∧ walk.outcome = .suspended s ∧ s.options = ["Stay", "Go"] ∧ s.Branches g n)
      ∧ (Walker.new (.new .default) g : Walker ℚ).run "start" [1]
          = .error (.invalidField ⟨0xdddddddddddddddddddddddddddddddd⟩ "actions"
              "expected a list of strings") := by
  have hruns :
      (Graph.ofDocument .builtin crossing).toOption.map (fun g =>
          let w : Walker ℚ := .new (.new .default) g
          (((w.run "start" []).toOption.bind Walk.suspension?).map (·.options),
            w.touchedByRun "start" [1]))
        = some (some ["Stay", "Go"], [.passes 0, .passes 1, .passes 3]) := by decide +kernel
  have hnode :
      (Graph.ofDocument .builtin crossing).toOption.map (fun g => (g.node? 3).map fun n =>
          (n.id, n.kind.optionsKey?, n.payload.get? "actions"))
        = some (some (⟨0xdddddddddddddddddddddddddddddddd⟩, some "actions",
            some (.sequence [.text "Run", .int 2]))) := by decide +kernel
  cases hg : Graph.ofDocument .builtin crossing with
  | error e =>
    rw [hg] at hruns
    cases hruns
  | ok g =>
    rw [hg, Except.toOption, Option.map_some, Option.some.injEq] at hruns hnode
    obtain ⟨hoptions, hlog⟩ := Prod.mk.injEq .. ▸ hruns
    obtain ⟨-, hrun, hfails⟩ := options_are_branches (α := ℚ) .builtin crossing g hg
    refine ⟨g, rfl, ?_, ?_⟩
    · obtain ⟨s, hs, hoptions⟩ := Option.map_eq_some_iff.1 hoptions
      obtain ⟨walk, hok, houtcome⟩ := Walker.exists_of_suspension? hs
      obtain ⟨n, hn⟩ := hrun (.new .default) _ _ _ walk s hok houtcome
      exact ⟨walk, s, n, hok, houtcome, hoptions, hn⟩
    · obtain ⟨n, hn, hpayload⟩ := Option.map_eq_some_iff.1 hnode
      rw [Prod.mk.injEq, Prod.mk.injEq] at hpayload
      obtain ⟨hid, hkey, hv⟩ := hpayload
      rw [← hid]
      refine (hfails 3 n "actions" _ hn hkey hv ?_).2.1 (.new .default) _ "start" [1] ?_
      · intro texts htexts
        rw [Value.sequence.injEq] at htexts
        cases texts with
        | nil => cases htexts
        | cons first rest => cases rest <;> cases htexts
      · show Touch.passes 3 ∈ (Walker.new (.new .default) g : Walker ℚ).touchedByRun "start" [1]
        rw [hlog]
        decide

end BranchingDialogue
