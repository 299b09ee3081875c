import BranchingDialogue.Proofs.Document.Loaded
import BranchingDialogue.Proofs.Exact
import BranchingDialogue.Proofs.Processor.Answering
import BranchingDialogue.Proofs.Story.Waiting

/-!
# Faults of loaded graphs

Some errors say that a graph contradicts itself: that a node, an output or an input is not there
which something leads to. Loading a document rules them out, and an error that remains blames the
document rightly. `WalkError.Justified` says for every error what has to be so; that it is so is
proved along the way an error takes:

- `Graph.Answers.justified`: a pull asks for nothing but declared inputs and for what an edge leads
  from (`Request.Sound`), and so its error is justified;
- `justified_of_stretch`: a stretch comes to entries and to what outputs of the flow lead to
  (`Graph.Visitable`), and so its error is justified;
- `justified_on_loaded`: whatever is started, resumed or run on a loaded graph.
-/

namespace BranchingDialogue

variable {registry : NodeRegistry} {d : Document} {g : Graph}

/-! ## What errors blame -/

/-- An edge of the document leads from one node of its graph to another. -/
def Document.Wires (registry : NodeRegistry) (d : Document) (g : Graph) (n m : Node) : Prop :=
  ∃ record ∈ d.edges, ∃ i j, d.Leads registry record i j ∧ g.node? i = some n ∧ g.node? j = some m

/-- What an error of a processor says is so. No node and no output of a processor is missing; an
input is missing only where no edge leads to, and what is no processor is wired into one. -/
def ProcessorError.Justified (registry : NodeRegistry) (d : Document) (g : Graph) :
    ProcessorError → Prop
  | .unknownNode _ | .noSuchOutput _ _ => False
  | .missingInput id port =>
    ∃ i n, g.node? i = some n ∧ n.id = id ∧ n.layout.contains .input port = true
      ∧ ∀ e ∈ g.edges, e.input ≠ .input i port
  | .notAProcessor id kind =>
    ∃ n m, d.Wires registry g n m ∧ n.id = id ∧ n.kind = kind ∧ n.kind.isProcessor = false
      ∧ m.kind.isProcessor = true
  | _ => True

/-- What an error of a walk says is so. No node is missing, no suspension is stale, and where the
flow comes to a processor an edge leads there from a node that is none. -/
def WalkError.Justified {α : Type} (registry : NodeRegistry) (d : Document) (g : Graph) :
    WalkError α → Prop
  | .unknownNode _ | .staleSuspension _ => False
  | .processor _ cause => cause.Justified registry d g
  | .notInterpretable id kind =>
    ∃ n m, d.Wires registry g n m ∧ n.kind.isProcessor = false ∧ m.id = id ∧ m.kind = kind
      ∧ m.kind.isProcessor = true
  | _ => True

theorem WalkError.Concerns.justified {α : Type} {id : NodeId} {e : WalkError α}
    (h : e.Concerns id) : e.Justified registry d g := by
  cases e <;> trivial

/-! ## Pulls -/

/-- A node takes a value at a port. -/
def Node.Takes (n : Node) (port : Int) : Prop :=
  n.layout.contains .input port = true
    ∧ ((PortSlot.ofNumber port).isSecondary = true ∨ n.kind.isProcessor = true)

/-- What may be asked of a loaded graph: the value at an input that takes one, and the value of what
an edge leads from to such an input. -/
def Request.Sound (g : Graph) : Request → Prop
  | .value i port =>
    ∃ e ∈ g.edges, e.output = .output i port
      ∧ ∃ m, g.node? e.input.node = some m ∧ m.Takes e.input.number
  | .input i port => ∃ n, g.node? i = some n ∧ n.Takes port

theorem Node.takes_of_isProcessor {n : Node} (hkind : n.kind.isProcessor = true) {k : Nat}
    (hk : k < n.layout.inputs) : n.Takes k :=
  ⟨contains_input_of_lt hk, .inr hkind⟩

theorem Node.takes_dataSocket {n : Node} (h : n.layout.contains .input dataSocket = true) :
    n.Takes dataSocket :=
  ⟨h, .inl rfl⟩

theorem Request.Sound.exists_node (hload : Graph.ofDocument registry d = .ok g) {q : Request}
    (h : q.Sound g) : ∃ n, g.node? q.node = some n := by
  cases q with
  | value i port =>
    obtain ⟨e, he, houtput, -⟩ := h
    obtain ⟨n, m, hedge⟩ := Graph.exists_connects_of_mem hload he
    have hn := hedge.output
    rw [houtput] at hn
    exact ⟨n, hn⟩
  | input i port =>
    obtain ⟨n, hn, -⟩ := h
    exact ⟨n, hn⟩

/-- Processors have one output, and edges lead from declared outputs. -/
theorem Request.Sound.port_eq_zero (hload : Graph.ofDocument registry d = .ok g) {i : Nat}
    {port : Int} (h : (Request.value i port).Sound g) {n : Node} (hi : g.node? i = some n)
    (hkind : n.kind.isProcessor = true) : port = 0 := by
  obtain ⟨e, he, houtput, -⟩ := h
  obtain ⟨n', m, hedge⟩ := Graph.exists_connects_of_mem hload he
  have hn' := hedge.output
  have hdeclared := hedge.declaredOutput
  rw [houtput] at hn' hdeclared
  rw [PortRef.output, hi, Option.some.injEq] at hn'
  subst hn'
  obtain ⟨p, hp, hport⟩ := Node.contains_output_iff.1 hdeclared
  rw [Node.outputs_of_isProcessor hkind] at hp
  replace hport : port = (p : Int) := hport
  omega

/-- What is asked for and is no processor is wired into one: an edge to a data socket would have
come from a processor. -/
theorem Request.Sound.exists_wires (hload : Graph.ofDocument registry d = .ok g) {i : Nat}
    {port : Int} (h : (Request.value i port).Sound g) {n : Node} (hi : g.node? i = some n)
    (hkind : n.kind.isProcessor = false) :
    ∃ m, d.Wires registry g n m ∧ m.kind.isProcessor = true := by
  obtain ⟨e, he, houtput, m, hm, -, htakes⟩ := h
  obtain ⟨n', m', hedge⟩ := Graph.exists_connects_of_mem hload he
  obtain ⟨record, hrecord, hleads, -⟩ := Graph.exists_record_of_mem hload he
  have hn' := hedge.output
  rw [houtput, PortRef.output, hi, Option.some.injEq] at hn'
  subst hn'
  rcases htakes with hdata | hprocessor
  · have hsource := hedge.source hdata
    rw [hkind] at hsource
    cases hsource
  · refine ⟨m, ⟨record, hrecord, i, e.input.node, ?_, hi, hm⟩, hprocessor⟩
    rwa [houtput] at hleads

/-- With all its inputs, a processor lacks none, and it is asked for the one output that it has. -/
theorem Node.Applies.justified {n : Node} {vars : Variables} {inputs : List Value}
    {r : Except ProcessorError Value} (h : n.Applies vars inputs 0 r) {e : ProcessorError}
    (he : r = .error e) : e.Justified registry d g := by
  cases h with
  | noSuchOutput hport => exact absurd rfl hport
  | _ => cases he <;> trivial

/-- **The errors of a pull are justified.** The induction is on the rules of evaluation; what they
ask for next is sound again. -/
theorem Graph.Answers.justified (hload : ofDocument registry d = .ok g) {vars : Variables}
    {limit : Option Nat} {depth : Nat} {q : Request} {r : Except ProcessorError Value}
    (h : g.Answers vars limit depth q r) (hq : q.Sound g) {e : ProcessorError}
    (he : r = .error e) : e.Justified registry d g := by
  have htables := tablesAgree_of_ofDocument hload
  induction h generalizing e with
  | unknownNode hi =>
    obtain ⟨n, hn⟩ := hq.exists_node hload
    rw [hi] at hn
    cases hn
  | @unconnected _ i port n hi hs =>
    cases he
    obtain ⟨n', hn', htakes⟩ := hq
    rw [hi, Option.some.injEq] at hn'
    subst hn'
    rw [htables.source, Option.map_eq_none_iff, List.find?_eq_none] at hs
    refine ⟨i, n, hi, rfl, htakes.1, fun e he heq => ?_⟩
    exact hs e (Array.mem_toList_iff.2 he) (decide_eq_true heq)
  | fed hi hs _ ih =>
    obtain ⟨n', hn', htakes⟩ := hq
    obtain ⟨edge, hedge, hinput, houtput⟩ := htables.exists_edge_of_source hs
    have hfaces : edge.output = .output edge.output.node edge.output.number := by
      obtain ⟨k, hk⟩ := Array.mem_iff_getElem?.1 hedge
      have hdirection := (htables.edges k edge hk).2.1
      rw [PortRef.output, ← hdirection]
    refine ih ⟨edge, hedge, ?_, n', ?_, ?_⟩ he
    · rw [← houtput]
      exact hfaces
    · rw [hinput]
      exact hn'
    · rw [hinput]
      exact htakes
  | deep =>
    cases he
    trivial
  | flow hi _ hkind =>
    cases he
    obtain ⟨m, hwires, hprocessor⟩ := hq.exists_wires hload hi hkind
    exact ⟨_, m, hwires, rfl, rfl, hkind, hprocessor⟩
  | fails hi _ hkind hk _ _ _ ih => exact ih ⟨_, hi, Node.takes_of_isProcessor hkind hk⟩ he
  | computes hi _ hkind _ happlies =>
    rw [hq.port_eq_zero hload hi hkind] at happlies
    exact happlies.justified he

/-- The error of a pull at an input that takes a value is justified. -/
theorem Graph.justified_of_pullInput (hload : ofDocument registry d = .ok g) {vars : Variables}
    {limit : Option Nat} {i : Nat} {port : Int} {n : Node} (hi : g.node? i = some n)
    (htakes : n.Takes port) {e : ProcessorError} (h : g.pullInput vars limit i port = .error e) :
    e.Justified registry d g := by
  have hanswers := g.answers_answerAt vars (g.pullLimit limit) 0 (.input i port)
  exact hanswers.justified hload ⟨n, hi, htakes⟩ h

/-- Where the inputs of a processor have been collected, the processor does not lack one. -/
theorem Node.process_ne_missingInput {n : Node} {f : Nat → Except ProcessorError Value}
    {inputs : List Value}
    (h : Graph.inOrder f (List.range n.layout.inputs) = .ok inputs) (vars : Variables)
    (port : Int) (id : NodeId) (missing : Int) :
    n.process inputs port vars ≠ .error (.missingInput id missing) := by
  have hlength := (Graph.length_of_inOrder h).trans List.length_range
  cases hkind : n.kind.isProcessor with
  | true =>
    have happlies := applies_process hkind hlength vars port
    intro hprocess
    rw [hprocess] at happlies
    cases happlies
  | false =>
    have hflow : ¬(n.kind.isProcessor = true ∧ port ≠ 0) := by
      rw [hkind]
      nofun
    intro hprocess
    rw [process, if_neg hflow] at hprocess
    cases hk : n.kind <;> rw [hk] at hkind hprocess <;> first | cases hprocess | cases hkind

/-! ## Walks -/

/-- What a walk may come to: a node that is there, and a processor only from a node that is none. -/
def Graph.Visitable (registry : NodeRegistry) (d : Document) (g : Graph) (i : Nat) : Prop :=
  ∃ n, g.node? i = some n ∧ (n.kind.isProcessor = true →
    ∃ m, d.Wires registry g m n ∧ m.kind.isProcessor = false)

theorem Graph.visitable_of_entry? (hload : ofDocument registry d = .ok g) {name : String} {i : Nat}
    (h : g.entry? name = some i) : g.Visitable registry d i := by
  obtain ⟨n, hn, hkind⟩ := kind_of_entry? hload h
  refine ⟨n, hn, fun hprocessor => ?_⟩
  rw [hkind] at hprocessor
  cases hprocessor

theorem Graph.visitable_of_follow? (hload : ofDocument registry d = .ok g) {i j : Nat} {n : Node}
    (hi : g.node? i = some n) (hkind : n.kind.isProcessor = false) {output : Int}
    (h : g.follow? i output = some j) : g.Visitable registry d j := by
  obtain ⟨e, he, houtput, rfl⟩ := (tablesAgree_of_ofDocument hload).exists_edge_of_follow h
  obtain ⟨n', m, hedge⟩ := exists_connects_of_mem hload he
  obtain ⟨record, hrecord, hleads, -⟩ := exists_record_of_mem hload he
  rw [houtput] at hleads
  have hwires : d.Wires registry g n m :=
    ⟨record, hrecord, i, e.input.node, hleads, hi, hedge.input⟩
  exact ⟨m, hedge.input, fun _ => ⟨n, hwires, hkind⟩⟩

variable {α : Type}

/-- What fails at a node to which a walk may come is justified. -/
theorem Node.Fails.justified (hload : Graph.ofDocument registry d = .ok g) {r : Runtime α}
    {index : Nat} {n : Node} {vars : Variables} {e : WalkError α}
    (h : n.Fails r g index vars e) (hn : g.node? index = some n)
    (hvisit : g.Visitable registry d index) : e.Justified registry d g := by
  cases h with
  | itself hconcerns => exact hconcerns.justified
  | input socket pull =>
    exact Graph.justified_of_pullInput hload hn (takes_dataSocket socket) pull
  | processor kind =>
    obtain ⟨n', hn', hfrom⟩ := hvisit
    rw [hn, Option.some.injEq] at hn'
    subst hn'
    obtain ⟨m, hwires, hflow⟩ := hfrom kind
    exact ⟨m, n, hwires, hflow, rfl, rfl, kind⟩

variable [Scalar α]

/-- Processors are not passed. -/
theorem Node.Passes.isProcessor_eq {r : Runtime α} {index : Nat} {n : Node} {s : Situation α}
    {p : Passage α} (h : n.Passes r g index s p) : n.kind.isProcessor = false := by
  cases h with
  | input kind | dialogue kind | choice kind | action kind | set kind | condition kind
  | marker kind | blend kind =>
    rw [kind]
    rfl

theorem justified_of_turn (hload : Graph.ofDocument registry d = .ok g) {r : Runtime α}
    {index : Nat} {s : Situation α} {e : WalkError α} (hvisit : g.Visitable registry d index)
    (h : turn r g index s = .fails e) : e.Justified registry d g := by
  obtain ⟨n, hn, -⟩ := id hvisit
  rw [turn, hn] at h
  simp only at h
  split at h
  · next hpass =>
    cases h
    exact (Node.fails_of_pass hpass).justified hload hn hvisit
  · split at h
    · split at h <;> cases h
    · cases h
    · cases h

namespace Walker

variable {w : Walker α} {limit room index : Nat} {s : Situation α} {clips : Array (Clip α)}
  {e : WalkError α}

/-- **The errors of a stretch are justified.** The induction is on the room that is left; where a
turn leads, a walk may come to. -/
theorem justified_of_stretch (hload : Graph.ofDocument registry d = .ok w.graph)
    (hvisit : w.graph.Visitable registry d index)
    (h : w.stretch limit room index s clips = .error e) : e.Justified registry d w.graph := by
  induction room generalizing index s clips with
  | zero =>
    obtain ⟨n, hn, -⟩ := hvisit
    rw [stretch_zero, hn] at h
    cases h
    trivial
  | succ room ih =>
    rw [stretch_succ] at h
    cases hturn : turn w.runtime w.graph index s with
    | fails e =>
      rw [hturn] at h
      cases h
      exact justified_of_turn hload hvisit hturn
    | moves clip next s' =>
      rw [hturn] at h
      obtain ⟨n, p, output, hn, hpass, -, hnext, -⟩ := turn_eq_moves_iff.1 hturn
      exact ih (Graph.visitable_of_follow? hload hn hpass.isProcessor_eq hnext) h
    | rests clip outcome s' =>
      rw [hturn] at h
      cases h

theorem justified_of_start (hload : Graph.ofDocument registry d = .ok w.graph) {entry : String}
    (h : w.start entry = .error e) : e.Justified registry d w.graph := by
  rw [start] at h
  split at h
  · cases h
    trivial
  · next hentry => exact justified_of_stretch hload (Graph.visitable_of_entry? hload hentry) h

theorem justified_of_resume (hload : Graph.ofDocument registry d = .ok w.graph)
    {waiting : Suspension α} (harises : waiting.Arises w.graph) {option : Nat}
    (h : w.resume waiting option = .error e) : e.Justified registry d w.graph := by
  obtain ⟨n, hwaits⟩ := harises.exists_waitsAt
  rw [resume_eq hwaits.nodeId_eq] at h
  split at h
  · cases h
    trivial
  · split at h
    · next hnext =>
      have hvisit := Graph.visitable_of_follow? hload hwaits.node hwaits.isProcessor_eq hnext
      exact justified_of_stretch hload hvisit h
    · cases h

theorem justified_of_run (hload : Graph.ofDocument registry d = .ok w.graph) {entry : String}
    {options : List Nat} (h : w.run entry options = .error e) :
    e.Justified registry d w.graph := by
  rcases exists_resume_of_run h with hstart | ⟨waiting, option, harises, hresume⟩
  · exact justified_of_start hload hstart
  · exact justified_of_resume hload harises hresume

end Walker

/-- **Loading rules out that a graph contradicts itself.** Whatever is started, resumed or run on a
loaded graph, with any settings, tags, variables, entries and picks: if it fails, it is not because a
node is missing or a suspension is stale, and not because a pull has asked for a node or an output
that is not there. Where an input lacks a value no edge leads to it, and this is found when the input
is looked up, never when a processor is applied. Where no processor is found an edge of the document
leads from that node into a processor, and where the flow has come to a processor an edge leads there
from a node that is none. -/
theorem justified_on_loaded (registry : NodeRegistry) (d : Document) (g : Graph)
    (hload : Graph.ofDocument registry d = .ok g) :
    (∀ (r : Runtime α) (seed : Variables),
        (∀ entry e, (⟨r, g, seed⟩ : Walker α).start entry = .error e →
          e.Justified registry d g)
        ∧ (∀ (s : Suspension α) option e, s.Arises g →
            (⟨r, g, seed⟩ : Walker α).resume s option = .error e → e.Justified registry d g)
        ∧ ∀ entry options e, (⟨r, g, seed⟩ : Walker α).run entry options = .error e →
            e.Justified registry d g)
      ∧ (∀ vars limit i n e, g.node? i = some n → n.layout.contains .input dataSocket = true →
          g.pullInput vars limit i dataSocket = .error e → e.Justified registry d g)
      ∧ ∀ (n : Node) (f : Nat → Except ProcessorError Value) (inputs : List Value),
          Graph.inOrder f (List.range n.layout.inputs) = .ok inputs →
          ∀ vars port id missing, n.process inputs port vars ≠ .error (.missingInput id missing) := by
  refine ⟨fun r seed => ⟨?_, ?_, ?_⟩, ?_, ?_⟩
  · intro entry e h
    exact Walker.justified_of_start hload h
  · intro s option e harises h
    exact Walker.justified_of_resume hload harises h
  · intro entry options e h
    exact Walker.justified_of_run hload h
  · intro vars limit i n e hi hsocket h
    exact Graph.justified_of_pullInput hload hi (Node.takes_dataSocket hsocket) h
  · intro n f inputs hinputs
    exact Node.process_ne_missingInput hinputs

/-- A condition whose value is to be computed from the entry, which has none. -/
def groundless : Document where
  version := 1
  objectId := "00000000-0000-0000-0000-000000000000"
  properties := []
  nodes :=
    [⟨"aaaaaaaaaaaaaaaaaaaaaaaaaaaaaaaa", "InputNode", "Input"⟩,
      ⟨"bbbbbbbbbbbbbbbbbbbbbbbbbbbbbbbb", "ConditionNode", "Condition"⟩,
      ⟨"cccccccccccccccccccccccccccccccc", "NotNode", "Not"⟩]
  edges :=
    [⟨⟨"aaaaaaaaaaaaaaaaaaaaaaaaaaaaaaaa", 0⟩, ⟨"bbbbbbbbbbbbbbbbbbbbbbbbbbbbbbbb", 0⟩⟩,
      ⟨⟨"aaaaaaaaaaaaaaaaaaaaaaaaaaaaaaaa", 0⟩, ⟨"cccccccccccccccccccccccccccccccc", 0⟩⟩,
      ⟨⟨"cccccccccccccccccccccccccccccccc", 0⟩, ⟨"bbbbbbbbbbbbbbbbbbbbbbbbbbbbbbbb", -1⟩⟩]
  positions := []
  data := [.object [("inputName", .text "start")], .object [], .object []]

theorem justified_on_loaded_groundless :
    ∃ g, Graph.ofDocument .builtin groundless = .ok g
      ∧ ∃ e, (Walker.new (.new .default) g : Walker ℚ).run "start" [] = .error e
        ∧ e = .processor ⟨0xbbbbbbbbbbbbbbbbbbbbbbbbbbbbbbbb⟩
            (.notAProcessor ⟨0xaaaaaaaaaaaaaaaaaaaaaaaaaaaaaaaa⟩ .input)
        ∧ e.Justified .builtin groundless g := by
  have hrun :
      (Graph.ofDocument .builtin groundless).toOption.map (fun g =>
          (Walker.new (.new .default) g : Walker ℚ).run "start" [])
        = some (.error (.processor ⟨0xbbbbbbbbbbbbbbbbbbbbbbbbbbbbbbbb⟩
            (.notAProcessor ⟨0xaaaaaaaaaaaaaaaaaaaaaaaaaaaaaaaa⟩ .input))) := by decide +kernel
  cases hg : Graph.ofDocument .builtin groundless with
  | error e =>
    rw [hg] at hrun
    cases hrun
  | ok g =>
    rw [hg, Except.toOption, Option.map_some, Option.some.injEq] at hrun
    have hjustified := (justified_on_loaded _ _ g hg).1 (.new .default : Runtime ℚ)
    exact ⟨g, rfl, _, hrun, rfl, (hjustified _).2.2 _ _ _ hrun⟩

end BranchingDialogue
