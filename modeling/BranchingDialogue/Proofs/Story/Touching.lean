import BranchingDialogue.Proofs.Document.Loaded
import BranchingDialogue.Proofs.Exact
import BranchingDialogue.Proofs.Graph.Reaching
import BranchingDialogue.Proofs.Story.Guard

/-!
# What a run touches

`Walker.touchedByRun` is the log of a run: the nodes it passes, in order, and after each of them the
processors whose values are computed for it. It follows the run step by step, through data inputs,
picks and errors, and goes on only where the run itself does.

That nothing in the log is unreachable rests on one invariant: a walk is always ahead of an entry
(`Ahead`), since it follows outputs only; and what is computed for a node that can be reached feeds
it through processors only. Analyses go along the edges of a graph where a run reads its ports; that
the two agree is what `TablesAgree` says.

Main results:
- `reachable_of_computed`: what is computed for a node that can be reached can be reached;
- `live_of_touchedFrom`, `live_of_touchedByRun`: so can what a stretch and what a run touches;
- `loggedIn_of_stretch`, `loggedIn_of_run`: what their clips and suspensions name has been passed;
- `touched_reachable`: what that says of a run on a loaded graph.
-/

namespace BranchingDialogue

/-! ## The log of a run -/

/-- What a walk has to do with a node. -/
inductive Touch where
  /-- It does what is to be done at the node. -/
  | passes (node : Nat)
  /-- It has the value of the node computed, which is a processor. -/
  | computes (node : Nat)
  deriving DecidableEq

/-- The node of a touch. -/
def Touch.node : Touch → Nat
  | .passes i | .computes i => i

namespace Graph

/-- What is computed for results in order, up to the first error. -/
def computedInOrder {α : Type} (f : Nat → Except ProcessorError α) (computed : Nat → List Nat) :
    List Nat → List Nat
  | [] => []
  | i :: is =>
    computed i ++
      match f i with
      | .error _ => []
      | .ok _ => computedInOrder f computed is

/-- What is computed for an input, given what is computed for a processor. -/
def computedFrom (g : Graph) (computed : Nat → List Nat) (consumer : Nat) (port : Int) : List Nat :=
  match g.source? consumer port with
  | none => []
  | some source => computed source.node

/-- The processors whose values are computed for the value of one, itself first. -/
def computedWithin (g : Graph) (vars : Variables) (limit : Nat) : Nat → Nat → List Nat
  | 0, _ => []
  | room + 1, index =>
    match g.node? index with
    | none => []
    | some n =>
      if n.kind.isProcessor then
        index ::
          computedInOrder (fun i => g.inputFrom (g.valueWithin vars limit room) index i)
            (fun i => g.computedFrom (g.computedWithin vars limit room) index i)
            (List.range n.layout.inputs)
      else []

/-- The processors whose values are computed for an input of a node. -/
def computed (g : Graph) (vars : Variables) (limit : Option Nat) (consumer : Nat) (port : Int) :
    List Nat :=
  g.computedFrom (g.computedWithin vars (g.pullLimit limit) (g.pullLimit limit)) consumer port

end Graph

/-- Whether a node is passed with the value of its data input. -/
def Node.pulls (n : Node) : Bool :=
  match n.kind with
  | .set => (n.payload.text? "property").isSome
  | .condition => true
  | .blend => (n.port? .input dataSocket).any Port.isConnected
  | _ => false

namespace Walker

variable {α : Type} [Scalar α]

/-- What a stretch touches from a node on. -/
def touchedFrom (w : Walker α) : Nat → Nat → Situation α → List Touch
  | 0, _, _ => []
  | room + 1, index, s =>
    match w.graph.node? index with
    | none => []
    | some n =>
      let pulled :=
        if n.pulls then
          w.graph.computed s.variables w.runtime.settings.processorDepth index dataSocket
        else []
      .passes index :: pulled.map .computes ++
        match turn w.runtime w.graph index s with
        | .moves _ next s' => w.touchedFrom room next s'
        | _ => []

/-- What a stretch touches that is begun at an entry or by a pick. -/
def touchedBy (w : Walker α) (c : Call α) : List Touch :=
  match w.beginning c with
  | .ok (some index, s) => w.touchedFrom (w.stretchLimit s.variables) index s
  | _ => []

/-- What is touched where a walk is gone on with. -/
def touchedByAnswer (w : Walker α) (walk : Walk α) : List Nat → List Touch
  | [] => []
  | option :: options =>
    match walk.suspension? with
    | none => []
    | some s =>
      w.touchedBy (.resume s option) ++
        match w.resume s option with
        | .error _ => []
        | .ok next => w.touchedByAnswer (walk.append next) options

/-- What a run touches. -/
def touchedByRun (w : Walker α) (entry : String) (options : List Nat) : List Touch :=
  w.touchedBy (.start entry) ++
    match w.start entry with
    | .error _ => []
    | .ok walk => w.touchedByAnswer walk options

end Walker

/-! ## Ports and edges -/

namespace Graph

variable {g : Graph} {i j : Nat}

theorem TablesAgree.flows (h : g.TablesAgree) {output : Int}
    (hfollow : g.follow? i output = some j) : g.Flows i j := by
  obtain ⟨e, he, hend, hj⟩ := h.exists_edge_of_follow hfollow
  exact ⟨e, he, by rw [hend, PortRef.output], hj⟩

theorem TablesAgree.fedBy (h : g.TablesAgree) {port : Int} {source : PortRef} {n : Node}
    (hsource : g.source? i port = some source) (hn : g.node? source.node = some n)
    (hkind : n.kind.isProcessor = true) : g.FedBy i source.node := by
  obtain ⟨e, he, hend, rfl⟩ := h.exists_edge_of_source hsource
  exact ⟨e, he, by rw [hend, PortRef.input], rfl, n, hn, hkind⟩

/-! ## What is computed -/

theorem mem_computedInOrder {α : Type} {f : Nat → Except ProcessorError α}
    {computed : Nat → List Nat} {is : List Nat} (h : j ∈ computedInOrder f computed is) :
    ∃ i ∈ is, j ∈ computed i := by
  induction is with
  | nil => cases h
  | cons i is ih =>
    rcases List.mem_append.1 h with h | h
    · exact ⟨i, List.mem_cons_self, h⟩
    · split at h
      · cases h
      · obtain ⟨k, hk, hj⟩ := ih h
        exact ⟨k, List.mem_cons_of_mem i hk, hj⟩

theorem mem_computedFrom {computed : Nat → List Nat} {port : Int}
    (h : j ∈ g.computedFrom computed i port) :
    ∃ source, g.source? i port = some source ∧ j ∈ computed source.node := by
  rw [computedFrom] at h
  split at h
  · cases h
  · next source hsource => exact ⟨source, hsource, h⟩

/-- What is computed for a processor that can be reached feeds it, through processors only. -/
theorem reachable_of_computedWithin (htables : g.TablesAgree) {vars : Variables} {limit room : Nat}
    (hi : ∀ n, g.node? i = some n → n.kind.isProcessor = true → i ∈ g.reachable)
    (h : j ∈ g.computedWithin vars limit room i) : j ∈ g.reachable := by
  induction room generalizing i with
  | zero => cases h
  | succ room ih =>
    rw [computedWithin] at h
    split at h
    · cases h
    · next n hn =>
      split at h
      · next hkind =>
        rcases List.mem_cons.1 h with rfl | h
        · exact hi n hn hkind
        · obtain ⟨input, -, h⟩ := mem_computedInOrder h
          obtain ⟨source, hsource, h⟩ := mem_computedFrom h
          refine ih (fun m hm hprocessor => ?_) h
          exact reachable_of_fedBy (hi n hn hkind) (htables.fedBy hsource hm hprocessor)
      · cases h

theorem reachable_of_computed (htables : g.TablesAgree) {vars : Variables} {limit : Option Nat}
    {port : Int} (hi : i ∈ g.reachable) (h : j ∈ g.computed vars limit i port) :
    j ∈ g.reachable := by
  obtain ⟨source, hsource, h⟩ := mem_computedFrom h
  exact reachable_of_computedWithin htables
    (fun _ hn hkind => reachable_of_fedBy hi (htables.fedBy hsource hn hkind)) h

end Graph

/-! ## What the log says -/

/-- Nodes that are passed lie ahead of an entry, and what is computed can be reached. -/
def Touch.Live (g : Graph) : Touch → Prop
  | .passes i => g.Ahead i
  | .computes i => i ∈ g.reachable

theorem Touch.Live.reachable {g : Graph} {t : Touch} (h : t.Live g) : t.node ∈ g.reachable := by
  cases t with
  | passes i => exact Graph.reachable_of_ahead h
  | computes i => exact h

variable {α : Type} [Scalar α]

/-- A node that does not pull is passed in the same way in every graph. -/
theorem Node.pass_of_not_pulls {n : Node} (h : n.pulls = false) (r : Runtime α) (g g' : Graph)
    (i j : Nat) (s : Situation α) : n.pass r g i s = n.pass r g' j s := by
  rw [pulls] at h
  cases hk : n.kind with
  | set =>
    rw [hk] at h
    have hnone : n.payload.text? "property" = none := by simpa using h
    simp only [pass, hk, passSet, hnone]
  | condition =>
    rw [hk] at h
    cases h
  | blend =>
    rw [hk] at h
    have hfree : (n.port? .input dataSocket).any Port.isConnected = false := h
    simp only [pass, hk, passBlend, blendDuration, hfree, Bool.false_eq_true, if_false]
  | _ => simp only [pass, hk]

/-- The clip that a walk gives at a node names it. -/
theorem Node.Passes.node_of_clip {r : Runtime α} {g : Graph} {index : Nat} {n : Node}
    {s : Situation α} {p : Passage α} (h : n.Passes r g index s p) {c : Clip α}
    (hc : p.clip = some c) : c.node = n.id := by
  cases h with
  | input | set | condition => cases hc
  | _ =>
    cases hc
    rfl

/-- The clips and the suspension of a walk name nodes that are passed. -/
structure Walk.LoggedIn (g : Graph) (log : List Touch) (walk : Walk α) : Prop where
  clips : ∀ c ∈ walk.clips, ∃ i, .passes i ∈ log ∧ (g.node? i).map (·.id) = some c.node
  suspended : ∀ waiting, walk.outcome = .suspended waiting →
    .passes waiting.node ∈ log ∧ (g.node? waiting.node).map (·.id) = some waiting.nodeId

omit [Scalar α] in
theorem Walk.LoggedIn.append {g : Graph} {log log' : List Touch} {walk next : Walk α}
    (h : walk.LoggedIn g log) (hnext : next.LoggedIn g log') :
    (walk.append next).LoggedIn g (log ++ log') where
  clips c hc := by
    rcases List.mem_append.1 hc with hc | hc
    · obtain ⟨i, hi, hid⟩ := h.clips c hc
      exact ⟨i, List.mem_append_left log' hi, hid⟩
    · obtain ⟨i, hi, hid⟩ := hnext.clips c hc
      exact ⟨i, List.mem_append_right log hi, hid⟩
  suspended waiting houtcome := by
    obtain ⟨hpassed, hid⟩ := hnext.suspended waiting houtcome
    exact ⟨List.mem_append_right log hpassed, hid⟩

namespace Walker

variable {w : Walker α} {limit room index : Nat} {s : Situation α} {log : List Touch} {t : Touch}

/-! ## Stretches -/

/-- A stretch that begins ahead of an entry touches nothing that cannot be reached. -/
theorem live_of_touchedFrom (htables : w.graph.TablesAgree) (hahead : w.graph.Ahead index)
    (h : t ∈ w.touchedFrom room index s) : t.Live w.graph := by
  induction room generalizing index s with
  | zero => cases h
  | succ room ih =>
    rw [touchedFrom] at h
    split at h
    · cases h
    · simp only [List.cons_append, List.mem_cons, List.mem_append, List.mem_map] at h
      rcases h with rfl | ⟨j, hj, rfl⟩ | h
      · exact hahead
      · split at hj
        · exact Graph.reachable_of_computed htables (Graph.reachable_of_ahead hahead) hj
        · cases hj
      · split at h
        · next hturn =>
          obtain ⟨_, _, _, -, -, -, hnext, -⟩ := turn_eq_moves_iff.1 hturn
          exact ih (hahead.flows (htables.flows hnext)) h
        · cases h

/-- A node that a stretch comes to is in its log. -/
theorem touchedFrom_succ {n : Node} (hn : w.graph.node? index = some n) (room : Nat)
    (s : Situation α) :
    ∃ pulled : List Nat, w.touchedFrom (room + 1) index s
      = .passes index :: pulled.map .computes ++
          match turn w.runtime w.graph index s with
          | .moves _ next s' => w.touchedFrom room next s'
          | _ => [] := by
  rw [touchedFrom, hn]
  exact ⟨_, rfl⟩

/-- What a stretch gives is in its log, after what was there before. -/
theorem loggedIn_of_stretch {clips : Array (Clip α)} {walk : Walk α}
    (hclips : ∀ c ∈ clips, ∃ i, .passes i ∈ log ∧ (w.graph.node? i).map (·.id) = some c.node)
    (h : w.stretch limit room index s clips = .ok walk) :
    walk.LoggedIn w.graph (log ++ w.touchedFrom room index s) := by
  induction room generalizing index s clips log with
  | zero =>
    rw [stretch_zero] at h
    split at h <;> cases h
  | succ room ih =>
    rw [stretch_succ] at h
    -- The clip that is added names the node at which the turn is taken.
    have hadded : ∀ {n p} (pulled : List Nat), w.graph.node? index = some n →
        n.Passes w.runtime w.graph index s p → ∀ c ∈ clips ++ p.clip.toArray,
          ∃ i, .passes i ∈ log ++ .passes index :: pulled.map .computes
            ∧ (w.graph.node? i).map (·.id) = some c.node := by
      intro n p pulled hn hpass c hc
      rcases Array.mem_append.1 hc with hc | hc
      · obtain ⟨i, hi, hid⟩ := hclips c hc
        exact ⟨i, List.mem_append_left _ hi, hid⟩
      · rw [Option.mem_toArray] at hc
        exact ⟨index, by simp, by rw [hn, Option.map_some, hpass.node_of_clip hc]⟩
    cases hturn : turn w.runtime w.graph index s with
    | fails e =>
      rw [hturn] at h
      cases h
    | moves clip next s' =>
      rw [hturn] at h
      obtain ⟨n, p, output, hn, hpass, -, -, rfl, -⟩ := turn_eq_moves_iff.1 hturn
      obtain ⟨pulled, hlog⟩ := touchedFrom_succ hn room s
      rw [hlog, hturn, ← List.append_assoc]
      exact ih (hadded pulled hn hpass) h
    | rests clip outcome s' =>
      rw [hturn] at h
      cases h
      obtain ⟨n, p, hn, hpass, rfl, -⟩ := exists_passes_of_rests hturn
      obtain ⟨pulled, hlog⟩ := touchedFrom_succ hn room s
      rw [hlog, hturn, List.append_nil]
      refine ⟨fun c hc => hadded pulled hn hpass c (Array.mem_toList_iff.1 hc), ?_⟩
      rintro waiting rfl
      obtain ⟨hnode, hid, -⟩ := suspension_of_turn hturn
      rw [hnode]
      exact ⟨by simp, hid⟩

theorem loggedIn_of_walkFrom {walk : Walk α} (h : w.walkFrom index s = .ok walk) :
    walk.LoggedIn w.graph (w.touchedFrom (w.stretchLimit s.variables) index s) := by
  show walk.LoggedIn w.graph ([] ++ w.touchedFrom (w.stretchLimit s.variables) index s)
  exact loggedIn_of_stretch (fun c hc => absurd hc (Array.not_mem_empty c)) h

/-! ## Runs -/

variable {entry : String} {options : List Nat} {walk : Walk α} {waiting : Suspension α}
  {option : Nat} {c : Call α}

theorem loggedIn_of_call (h : w.call c = .ok walk) : walk.LoggedIn w.graph (w.touchedBy c) := by
  rw [call_eq] at h
  rw [touchedBy]
  cases hbegin : w.beginning c with
  | error e =>
    rw [hbegin] at h
    cases h
  | ok begun =>
    obtain ⟨place, s⟩ := begun
    rw [hbegin] at h
    cases place with
    | some index => exact loggedIn_of_walkFrom h
    | none =>
      cases h
      exact ⟨fun c hc => absurd hc List.not_mem_nil, fun waiting houtcome => by cases houtcome⟩

/-- Where a stretch begins ahead of an entry it touches nothing that cannot be reached. -/
theorem live_of_touchedBy (htables : w.graph.TablesAgree)
    (hahead : ∀ index s, w.beginning c = .ok (some index, s) → w.graph.Ahead index)
    (h : t ∈ w.touchedBy c) : t.Live w.graph := by
  rw [touchedBy] at h
  split at h
  · next hbegin => exact live_of_touchedFrom htables (hahead _ _ hbegin) h
  · cases h

theorem ahead_of_start (h : w.beginning (.start entry) = .ok (some index, s)) :
    w.graph.Ahead index := by
  rw [beginning] at h
  split at h
  · cases h
  · next hentry =>
    cases h
    exact ⟨entry, index, hentry, .refl⟩

theorem ahead_of_resume (htables : w.graph.TablesAgree) (hahead : w.graph.Ahead waiting.node)
    (h : w.beginning (.resume waiting option) = .ok (some index, s)) : w.graph.Ahead index := by
  rw [beginning] at h
  split at h
  · cases h
  · split at h
    · cases h
    · rw [Except.ok.injEq, Prod.mk.injEq] at h
      exact hahead.flows (htables.flows h.1)

/-- Where answers to a walk go on with its log, they touch nothing that cannot be reached if the
walk has not. -/
theorem live_of_touchedByAnswer (htables : w.graph.TablesAgree)
    (hlive : ∀ t ∈ log, t.Live w.graph) (hwalk : walk.LoggedIn w.graph log)
    (h : t ∈ w.touchedByAnswer walk options) : t.Live w.graph := by
  induction options generalizing walk log with
  | nil => cases h
  | cons option options ih =>
    rw [touchedByAnswer] at h
    cases hs : walk.suspension? with
    | none =>
      rw [hs] at h
      cases h
    | some waiting =>
      rw [hs] at h
      have hahead : w.graph.Ahead waiting.node :=
        hlive _ (hwalk.suspended waiting (outcome_of_suspension? hs)).1
      have hnew : ∀ t ∈ w.touchedBy (.resume waiting option), t.Live w.graph := fun _ =>
        live_of_touchedBy htables fun _ _ => ahead_of_resume htables hahead
      rcases List.mem_append.1 h with h | h
      · exact hnew t h
      · split at h
        · cases h
        · next next hnext =>
          exact ih (List.forall_mem_append.2 ⟨hlive, hnew⟩)
            (hwalk.append (loggedIn_of_call hnext)) h

theorem loggedIn_of_answer {walk' : Walk α} (hwalk : walk.LoggedIn w.graph log)
    (h : w.answer walk options = .ok walk') :
    walk'.LoggedIn w.graph (log ++ w.touchedByAnswer walk options) := by
  induction options generalizing walk log with
  | nil =>
    cases h
    rwa [touchedByAnswer, List.append_nil]
  | cons option options ih =>
    rw [answer] at h
    rw [touchedByAnswer]
    cases hs : walk.suspension? with
    | none =>
      rw [hs] at h
      cases h
      rwa [List.append_nil]
    | some waiting =>
      rw [hs] at h
      simp only at h ⊢
      cases hnext : w.resume waiting option with
      | error e =>
        rw [hnext] at h
        cases h
      | ok next =>
        rw [hnext] at h
        rw [← List.append_assoc]
        exact ih (hwalk.append (loggedIn_of_call hnext)) h

/-- **What a run touches can be reached.** -/
theorem live_of_touchedByRun (htables : w.graph.TablesAgree)
    (h : t ∈ w.touchedByRun entry options) : t.Live w.graph := by
  have hbegun : ∀ t ∈ w.touchedBy (.start entry), t.Live w.graph := fun _ =>
    live_of_touchedBy htables fun _ _ => ahead_of_start
  rcases List.mem_append.1 h with h | h
  · exact hbegun t h
  · split at h
    · cases h
    · next walk hstart => exact live_of_touchedByAnswer htables hbegun (loggedIn_of_call hstart) h

/-- **What a run names it has passed.** -/
theorem loggedIn_of_run (h : w.run entry options = .ok walk) :
    walk.LoggedIn w.graph (w.touchedByRun entry options) := by
  rw [run] at h
  rw [touchedByRun]
  cases hstart : w.start entry with
  | error e =>
    rw [hstart] at h
    cases h
  | ok first =>
    rw [hstart] at h
    exact loggedIn_of_answer (loggedIn_of_call hstart) h

end Walker

/-- **A run touches no node that analysis finds unreachable.** On a loaded graph, whatever the
settings, the tags, the variables, the entry and the picks, all nodes that a run passes and all
processors whose values it has computed are reachable, even if the run fails; and so are the nodes
that its clips and its suspension name. -/
theorem touched_reachable (registry : NodeRegistry) (d : Document) (g : Graph)
    (hload : Graph.ofDocument registry d = .ok g) (r : Runtime α) (seed : Variables)
    (entry : String) (options : List Nat) :
    (∀ t ∈ (⟨r, g, seed⟩ : Walker α).touchedByRun entry options,
        t.node ∈ g.reachable ∧ t.node ∉ g.unreachable)
      ∧ ∀ walk, (⟨r, g, seed⟩ : Walker α).run entry options = .ok walk →
          (∀ c ∈ walk.clips,
              ∃ i, g.indexOf? c.node = some i ∧ i ∈ g.reachable ∧ i ∉ g.unreachable)
            ∧ ∀ waiting, walk.outcome = .suspended waiting →
                g.indexOf? waiting.nodeId = some waiting.node
                  ∧ waiting.node ∈ g.reachable ∧ waiting.node ∉ g.unreachable := by
  have htables := Graph.tablesAgree_of_ofDocument hload
  have hindex : ∀ {i id}, (g.node? i).map (·.id) = some id → g.indexOf? id = some i := by
    intro i id h
    obtain ⟨n, hn, hid⟩ := Option.map_eq_some_iff.1 h
    exact (htables.index id i).2 ⟨n, hn, hid⟩
  have htouched : ∀ t ∈ (⟨r, g, seed⟩ : Walker α).touchedByRun entry options,
      t.node ∈ g.reachable ∧ t.node ∉ g.unreachable := by
    intro t ht
    have hreach := (Walker.live_of_touchedByRun htables ht).reachable
    exact ⟨hreach, Graph.not_mem_unreachable hreach⟩
  refine ⟨htouched, fun walk hrun => ?_⟩
  have hlogged := Walker.loggedIn_of_run hrun
  refine ⟨fun c hc => ?_, fun waiting houtcome => ?_⟩
  · obtain ⟨i, hpassed, hid⟩ := hlogged.clips c hc
    exact ⟨i, hindex hid, htouched _ hpassed⟩
  · obtain ⟨hpassed, hid⟩ := hlogged.suspended waiting houtcome
    exact ⟨hindex hid, htouched _ hpassed⟩

/-- A line before which a variable is written, and another line from which nothing but a way to the
first one is known. -/
def sideEntrance : Document where
  version := 1
  objectId := "00000000-0000-0000-0000-000000000000"
  properties := []
  nodes :=
    [⟨"aaaaaaaaaaaaaaaaaaaaaaaaaaaaaaaa", "InputNode", "Input"⟩,
      ⟨"bbbbbbbbbbbbbbbbbbbbbbbbbbbbbbbb", "SetNode", "Set"⟩,
      ⟨"cccccccccccccccccccccccccccccccc", "ValueNode", "Value"⟩,
      ⟨"dddddddddddddddddddddddddddddddd", "DialogueNode", "Dialogue"⟩,
      ⟨"eeeeeeeeeeeeeeeeeeeeeeeeeeeeeeee", "DialogueNode", "Dialogue"⟩]
  edges :=
    [⟨⟨"aaaaaaaaaaaaaaaaaaaaaaaaaaaaaaaa", 0⟩, ⟨"bbbbbbbbbbbbbbbbbbbbbbbbbbbbbbbb", 0⟩⟩,
      ⟨⟨"cccccccccccccccccccccccccccccccc", 0⟩, ⟨"bbbbbbbbbbbbbbbbbbbbbbbbbbbbbbbb", -1⟩⟩,
      ⟨⟨"bbbbbbbbbbbbbbbbbbbbbbbbbbbbbbbb", 0⟩, ⟨"dddddddddddddddddddddddddddddddd", 0⟩⟩,
      ⟨⟨"eeeeeeeeeeeeeeeeeeeeeeeeeeeeeeee", 0⟩, ⟨"dddddddddddddddddddddddddddddddd", 0⟩⟩]
  positions := []
  data :=
    [.object [("inputName", .text "start")], .object [("property", .text "met")],
      .object [("value", .bool true)], .object [("text", .text "Again?")],
      .object [("text", .text "Never said.")]]

theorem touched_reachable_sideEntrance :
    ∃ g, Graph.ofDocument .builtin sideEntrance = .ok g
      ∧ (Walker.new (.new .default) g : Walker ℚ).touchedByRun "start" []
          = [.passes 0, .passes 1, .computes 2, .passes 3]
      ∧ ∀ t ∈ (Walker.new (.new .default) g : Walker ℚ).touchedByRun "start" [],
          t.node ∈ g.reachable ∧ t.node ∉ g.unreachable := by
  have hlog :
      (Graph.ofDocument .builtin sideEntrance).toOption.map (fun g =>
          (Walker.new (.new .default) g : Walker ℚ).touchedByRun "start" [])
        = some [.passes 0, .passes 1, .computes 2, .passes 3] := by decide +kernel
  cases hg : Graph.ofDocument .builtin sideEntrance with
  | error e =>
    rw [hg] at hlog
    cases hlog
  | ok g =>
    rw [hg, Except.toOption, Option.map_some, Option.some.injEq] at hlog
    exact ⟨g, rfl, hlog, (touched_reachable _ _ g hg _ _ _ _).1⟩

end BranchingDialogue
