import BranchingDialogue.Proofs.Graph.Renumbering
import BranchingDialogue.Proofs.Processor.Answering

/-!
# What an answer depends on

To answer a request a graph asks further ones: what feeds an input, and the inputs of a processor.
`Graph.Asks` is the closure of this, taken over the connections alone, so it also covers what a given
evaluation does not come to. `Graph.Reads` are the variables named by the properties in it.

Nothing else has an influence. Two graphs, each with variables of its own, that agree on what is asked
and on the variables that are read (`AgreeOn`) give the same answer under every limit, be it a value
or an error: `AgreeOn.answer_some`. Without a limit they give the same answer as well, or neither
has one: `AgreeOn.answers_none_iff`.
-/

namespace BranchingDialogue

/-- Of the variables a processor reads the one that it names, if it is a property. -/
theorem Node.process_of_named {n : Node} {vars vars' : Variables} (inputs : List Value)
    (output : Int)
    (h : ∀ name, n.kind = .property → n.payload.text? "property" = some name →
      vars.get? name = vars'.get? name) :
    n.process inputs output vars = n.process inputs output vars' := by
  rw [process, process]
  split
  · rfl
  · cases hkind : n.kind with
    | property =>
      simp only [readProperty, payloadValue]
      cases hv : n.payload.get? "property" with
      | none => rfl
      | some v =>
        simp only
        cases hname : v.asText? with
        | none => rfl
        | some name =>
          have htext : n.payload.text? "property" = some name := by
            rw [Payload.text?, hv, Option.bind_some, hname]
          simp only [h name hkind htext]
    | _ => rfl

namespace Graph

/-- What is asked on the way to the answer of a request. -/
inductive Asks (g : Graph) (q : Request) : Request → Prop
  | self : g.Asks q q
  /-- What feeds an input. -/
  | source {i : Nat} {port : Int} {s : PortRef} (h : g.Asks q (.input i port))
    (hs : g.source? i port = some s) : g.Asks q (.value s.node s.number)
  /-- An input of a processor. -/
  | input {i k : Nat} {port : Int} {n : Node} (h : g.Asks q (.value i port))
    (hi : g.node? i = some n) (hkind : n.kind.isProcessor = true) (hk : k < n.layout.inputs) :
    g.Asks q (.input i k)

theorem Asks.trans {g : Graph} {q q' q'' : Request} (h : g.Asks q q') (h' : g.Asks q' q'') :
    g.Asks q q'' := by
  induction h' with
  | self => exact h
  | source _ hs ih => exact .source ih hs
  | input _ hi hkind hk ih => exact .input ih hi hkind hk

/-- A variable is read on the way: a property that is asked for its value names it. -/
def Reads (g : Graph) (q : Request) (name : String) : Prop :=
  ∃ i port n, g.Asks q (.value i port) ∧ g.node? i = some n ∧ n.kind = .property
    ∧ n.payload.text? "property" = some name

/-- Two graphs, each with its variables, agree on all that is asked on the way: on the nodes but for
their ports, on what feeds their inputs, and on the variables that are read. -/
structure AgreeOn (q : Request) (g g' : Graph) (vars vars' : Variables) : Prop where
  nodes : ∀ {q'}, g.Asks q q' →
    (g.node? q'.node).map Node.bare = (g'.node? q'.node).map Node.bare
  sources : ∀ {i port}, g.Asks q (.input i port) → g.source? i port = g'.source? i port
  read : ∀ {name}, g.Reads q name → vars.get? name = vars'.get? name

theorem AgreeOn.of_variables {q : Request} {g : Graph} {vars vars' : Variables}
    (h : ∀ name, g.Reads q name → vars.get? name = vars'.get? name) : AgreeOn q g g vars vars' :=
  ⟨fun _ => rfl, fun _ => rfl, fun hread => h _ hread⟩

namespace AgreeOn

variable {q q' : Request} {g g' : Graph} {vars vars' : Variables} {L depth : Nat}

/-- What is asked on the way to a part of the way is asked on the way. -/
theorem of_asks (h : AgreeOn q g g' vars vars') (hasks : g.Asks q q') :
    AgreeOn q' g g' vars vars' where
  nodes hq := h.nodes (hasks.trans hq)
  sources hq := h.sources (hasks.trans hq)
  read := fun ⟨i, port, n, hq, hn⟩ => h.read ⟨i, port, n, hasks.trans hq, hn⟩

theorem node?_eq_none (h : AgreeOn q g g' vars vars') (hi : g.node? q.node = none) :
    g'.node? q.node = none := by
  have hnode := h.nodes .self
  rw [hi, Option.map_none] at hnode
  exact Option.map_eq_none_iff.1 hnode.symm

theorem exists_node? (h : AgreeOn q g g' vars vars') {i : Nat} {n : Node}
    (hi : g.node? i = some n) (hq : q.node = i) : ∃ m, g'.node? i = some m ∧ n.bare = m.bare := by
  subst hq
  exact exists_of_map_bare (h.nodes .self) hi

/-- An input has the same value if what feeds it has. -/
theorem answerAt_input {i : Nat} {port : Int} (h : AgreeOn (.input i port) g g' vars vars')
    (hfed : ∀ s : PortRef, g.source? i port = some s →
      g.answerAt vars L (depth + 1) (.value s.node s.number)
        = g'.answerAt vars' L (depth + 1) (.value s.node s.number)) :
    g.answerAt vars L depth (.input i port) = g'.answerAt vars' L depth (.input i port) := by
  cases hi : g.node? i with
  | none => rw [answerAt_unknownNode hi, answerAt_unknownNode (h.node?_eq_none hi)]
  | some n =>
    obtain ⟨m, hm, hbare⟩ := h.exists_node? hi rfl
    have hid : n.id = m.id := congrArg (·.id) hbare
    have hsource := h.sources .self
    cases hs : g.source? i port with
    | none =>
      rw [answerAt_unconnected hi hs, answerAt_unconnected hm (hsource.symm.trans hs), hid]
    | some s =>
      rw [answerAt_fed hi hs, answerAt_fed hm (hsource.symm.trans hs), hfed s hs]

/-- The induction is on the room that is left. -/
theorem answerAt_value {room i : Nat} {port : Int} (hroom : L + 1 - depth = room)
    (h : AgreeOn (.value i port) g g' vars vars') :
    g.answerAt vars L depth (.value i port) = g'.answerAt vars' L depth (.value i port) := by
  induction room generalizing depth i port with
  | zero =>
    cases hi : g.node? i with
    | none => rw [answerAt_unknownNode hi, answerAt_unknownNode (h.node?_eq_none hi)]
    | some n =>
      obtain ⟨m, hm, hbare⟩ := h.exists_node? hi rfl
      have hid : n.id = m.id := congrArg (·.id) hbare
      rw [answerAt_deep hi (by omega), answerAt_deep hm (by omega), hid]
  | succ room ih =>
    have hdepth : depth ≤ L := by omega
    cases hi : g.node? i with
    | none => rw [answerAt_unknownNode hi, answerAt_unknownNode (h.node?_eq_none hi)]
    | some n =>
      obtain ⟨m, hm, hbare⟩ := h.exists_node? hi rfl
      have hid : n.id = m.id := congrArg (·.id) hbare
      have hkinds : n.kind = m.kind := Node.kind_of_bare hbare
      cases hkind : n.kind.isProcessor with
      | false =>
        rw [answerAt_flow hi hdepth hkind, answerAt_flow hm hdepth (hkinds ▸ hkind), hid, hkinds]
      | true =>
        have hinput : ∀ k ∈ List.range n.layout.inputs,
            g.answerAt vars L depth (.input i k) = g'.answerAt vars' L depth (.input i k) := by
          intro k hk
          have hasks : g.Asks (.value i port) (.input i k) :=
            .input .self hi hkind (List.mem_range.1 hk)
          refine (h.of_asks hasks).answerAt_input fun s hs => ?_
          exact ih (by omega) (h.of_asks (.source hasks hs))
        rw [answerAt_processor hi hdepth hkind, answerAt_processor hm hdepth (hkinds ▸ hkind),
          ← Node.layout_of_bare hbare, inOrder_congr hinput]
        split
        · rfl
        · next inputs _ =>
          rw [← process_of_bare hbare]
          exact Node.process_of_named inputs port fun name hproperty hname =>
            h.read ⟨i, port, n, .self, hi, hproperty, hname⟩

theorem answerAt (h : AgreeOn q g g' vars vars') (L depth : Nat) :
    g.answerAt vars L depth q = g'.answerAt vars' L depth q := by
  cases q with
  | value i port => exact h.answerAt_value rfl
  | input i port =>
    exact h.answerAt_input fun s hs => (h.of_asks (.source .self hs)).answerAt_value rfl

/-- **Under a limit the answers are the same**, values and errors. -/
theorem answer_some (h : AgreeOn q g g' vars vars') (L : Nat) :
    g.answer vars (some L) q = g'.answer vars' (some L) q := by
  rw [Graph.answer_some, Graph.answer_some, h.answerAt]

/-- **Without a limit the answers are the same** where there is one, and else there is none in either
graph. -/
theorem answers_none_iff (h : AgreeOn q g g' vars vars') (r : Except ProcessorError Value) :
    g.Answers vars none depth q r ↔ g'.Answers vars' none depth q r := by
  -- An answer without a limit is one under a limit that is large enough, and not cut off there.
  constructor
  · intro hr
    obtain ⟨height, hheight⟩ := hr.eventually
    have hat := (hheight height 0 (by omega)).eq_answerAt
    rw [h.answerAt] at hat
    have hnot : ¬Cut (g'.answerAt vars' height 0 q) := hat ▸ hr.not_cut
    exact hat ▸ answers_none_of_not_cut hnot depth
  · intro hr
    obtain ⟨height, hheight⟩ := hr.eventually
    have hat := (hheight height 0 (by omega)).eq_answerAt
    rw [← h.answerAt] at hat
    have hnot : ¬Cut (g.answerAt vars height 0 q) := hat ▸ hr.not_cut
    exact hat ▸ answers_none_of_not_cut hnot depth

end AgreeOn

/-- In one graph the variables that are read decide the answer, with a limit and without. -/
theorem answer_of_variables {g : Graph} {q : Request} {vars vars' : Variables}
    (h : ∀ name, g.Reads q name → vars.get? name = vars'.get? name) (limit : Option Nat) :
    g.answer vars limit q = g.answer vars' limit q := by
  have hagree := AgreeOn.of_variables h
  cases limit with
  | some L => exact hagree.answer_some L
  | none => rw [answer_none, answer_none, hagree.answerAt]

end Graph

end BranchingDialogue
