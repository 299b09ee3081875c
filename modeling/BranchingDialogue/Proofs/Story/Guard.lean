import BranchingDialogue.Proofs.Story.OneLoop

/-!
# The guard on the length of a stretch

A stretch without a guard is a list of nodes, one turn each, and what comes of the last turn
(`Unguarded`), or it never ends; `visited?` counts its nodes in either case. With a limit on the
number of nodes, a stretch is the one without a guard if that ends in time, and otherwise it stops at
the first node beyond the limit. Both are proved by induction on the room that is left:
`stretch_of_unguarded` and `stretch_of_visited?`.

Main result: `guarded_stretch`, for all that begins a stretch, an entry or a pick. It follows that a
larger limit changes nothing but that a stretch is too long, and that where no output leads back the
number of nodes is limit enough, since a stretch then visits no node twice.
-/

namespace BranchingDialogue

variable {α : Type} [Scalar α]

/-! ## Stretches without a guard -/

/-- What comes of a stretch from a node if nothing stops it: the nodes at which it takes its turns,
in order, and the result. -/
inductive Unguarded (r : Runtime α) (g : Graph) :
    Nat → Situation α → Array (Clip α) → List Node → Except (WalkError α) (Walk α) → Prop
  | missing {index : Nat} {s : Situation α} {clips : Array (Clip α)}
      (absent : g.node? index = none) : Unguarded r g index s clips [] (.error (.unknownNode index))
  | fails {index : Nat} {s : Situation α} {clips : Array (Clip α)} {n : Node} {e : WalkError α}
      (present : g.node? index = some n) (taken : turn r g index s = .fails e) :
      Unguarded r g index s clips [n] (.error e)
  | rests {index : Nat} {s : Situation α} {clips : Array (Clip α)} {n : Node}
      {clip : Option (Clip α)} {outcome : Outcome α} {s' : Situation α}
      (present : g.node? index = some n) (taken : turn r g index s = .rests clip outcome s') :
      Unguarded r g index s clips [n]
        (.ok ⟨(clips ++ clip.toArray).toList, outcome, s'.variables⟩)
  | moves {index : Nat} {s : Situation α} {clips : Array (Clip α)} {n : Node}
      {clip : Option (Clip α)} {next : Nat} {s' : Situation α} {nodes : List Node}
      {result : Except (WalkError α) (Walk α)} (present : g.node? index = some n)
      (taken : turn r g index s = .moves clip next s')
      (onward : Unguarded r g next s' (clips ++ clip.toArray) nodes result) :
      Unguarded r g index s clips (n :: nodes) result

/-- The node to which a stretch comes after as many others, if nothing stops it and it does not end
before. -/
def visited? (r : Runtime α) (g : Graph) : Nat → Nat → Situation α → Option Node
  | 0, index, _ => g.node? index
  | k + 1, index, s =>
    match turn r g index s with
    | .moves _ next s' => visited? r g k next s'
    | _ => none

section

variable {r : Runtime α} {g : Graph} {index : Nat} {s : Situation α} {clips : Array (Clip α)}
  {nodes : List Node} {result : Except (WalkError α) (Walk α)}

/-- A stretch that ends takes its turns at the nodes that are counted. -/
theorem Unguarded.visited?_eq (h : Unguarded r g index s clips nodes result) (k : Nat) :
    visited? r g k index s = nodes[k]? := by
  induction h generalizing k with
  | missing absent =>
    cases k with
    | zero => rw [visited?, absent, List.getElem?_nil]
    | succ k => rw [visited?, turn, absent, List.getElem?_nil]
  | fails present taken =>
    cases k with
    | zero => rw [visited?, present, List.getElem?_cons_zero]
    | succ k => rw [visited?, taken, List.getElem?_cons_succ, List.getElem?_nil]
  | rests present taken =>
    cases k with
    | zero => rw [visited?, present, List.getElem?_cons_zero]
    | succ k => rw [visited?, taken, List.getElem?_cons_succ, List.getElem?_nil]
  | moves present taken onward ih =>
    cases k with
    | zero => rw [visited?, present, List.getElem?_cons_zero]
    | succ k =>
      rw [visited?, taken, List.getElem?_cons_succ]
      exact ih k

/-- A stretch that does not come to a further node has ended. -/
theorem exists_unguarded_of_visited? {k : Nat} (h : visited? r g k index s = none) :
    ∃ nodes result, Unguarded r g index s clips nodes result := by
  induction k generalizing index s clips with
  | zero => exact ⟨[], _, .missing h⟩
  | succ k ih =>
    cases hn : g.node? index with
    | none => exact ⟨[], _, .missing hn⟩
    | some n =>
      cases hturn : turn r g index s with
      | fails e => exact ⟨[n], _, .fails hn hturn⟩
      | rests clip outcome s' => exact ⟨[n], _, .rests hn hturn⟩
      | moves clip next s' =>
        rw [visited?, hturn] at h
        have honward : ∃ nodes result,
            Unguarded r g next s' (clips ++ clip.toArray) nodes result := ih h
        obtain ⟨nodes, result, honward⟩ := honward
        exact ⟨n :: nodes, result, .moves hn hturn honward⟩

/-- What comes of a stretch that nothing stops is not that it is too long. -/
theorem Unguarded.not_tooLong (h : Unguarded r g index s clips nodes result) :
    ¬TooLong result := by
  induction h with
  | missing absent =>
    rintro ⟨id, limit, ⟨⟩⟩
  | fails present taken =>
    rintro ⟨id, limit, heq⟩
    cases heq
    exact turn_ne_depthExceeded taken
  | rests present taken => exact not_tooLong_ok
  | moves present taken onward ih => exact ih

/-- Turns that go on for ever are those of no stretch that ends. -/
theorem Unguarded.not_total (h : Unguarded r g index s clips nodes result) :
    ∃ k, orbit (g.advance? r) (index, s.variables) k = none := by
  have hlast : ∀ {index : Nat} {s : Situation α}, (turn r g index s).place? = none →
      orbit (g.advance? r) (index, s.variables) 1 = none := fun hplace => by
    rw [orbit_succ', Graph.advance?_eq, hplace, Option.bind_none]
  induction h with
  | missing absent => exact ⟨1, hlast (by rw [turn, absent]; rfl)⟩
  | fails present taken => exact ⟨1, hlast (by rw [taken]; rfl)⟩
  | rests present taken => exact ⟨1, hlast (by rw [taken]; rfl)⟩
  | moves present taken onward ih =>
    obtain ⟨k, hk⟩ := ih
    refine ⟨k + 1, ?_⟩
    rw [orbit_succ', Graph.advance?_eq, taken]
    exact hk

/-- An output of one node leads to another. -/
def Graph.Leads (g : Graph) (a b : Nat) : Prop := ∃ output, g.follow? a output = some b

/-- A stretch comes to its nodes one after the other along outputs. -/
theorem exists_way_of_visited? {k : Nat} {n : Node} (h : visited? r g k index s = some n) :
    ∃ p : Nat → Nat, (∀ i < k, g.Leads (p i) (p (i + 1))) ∧ (∀ i ≤ k, p i < g.nodes.size)
      ∧ p 0 = index := by
  induction k generalizing index s with
  | zero =>
    refine ⟨fun _ => index, nofun, fun _ _ => ?_, rfl⟩
    exact (Array.getElem?_eq_some_iff.1 h).1
  | succ k ih =>
    rw [visited?] at h
    cases hturn : turn r g index s with
    | moves clip next s' =>
      rw [hturn] at h
      obtain ⟨p, hleads, hin, hfirst⟩ := ih h
      obtain ⟨m, -, output, hm, -, -, hnext, -⟩ := turn_eq_moves_iff.1 hturn
      -- The way from the next node on, with this one put before it.
      refine ⟨fun i => i.casesOn index p, fun i hi => ?_, fun i hi => ?_, rfl⟩
      · cases i with
        | zero =>
          refine ⟨output, ?_⟩
          show g.follow? index output = some (p 0)
          rw [hnext, hfirst]
        | succ i => exact hleads i (by omega)
      · cases i with
        | zero => exact (Array.getElem?_eq_some_iff.1 hm).1
        | succ i => exact hin i (by omega)
    | _ =>
      rw [hturn] at h
      cases h

end

namespace Walker

variable {w : Walker α} {limit room index : Nat} {s : Situation α} {clips : Array (Clip α)}

/-! ## Stretches with room -/

/-- A stretch that ends with room to spare is the one without a guard. -/
theorem stretch_of_unguarded {nodes : List Node} {result : Except (WalkError α) (Walk α)}
    (h : Unguarded w.runtime w.graph index s clips nodes result) (hroom : nodes.length ≤ room) :
    w.stretch limit room index s clips = result := by
  induction h generalizing room with
  | missing absent =>
    cases room with
    | zero => rw [stretch_zero, absent]
    | succ room => rw [stretch_succ, turn, absent]
  | fails present taken =>
    obtain ⟨room, rfl⟩ := Nat.exists_eq_succ_of_ne_zero (Nat.ne_of_gt hroom)
    rw [stretch_succ, taken]
  | rests present taken =>
    obtain ⟨room, rfl⟩ := Nat.exists_eq_succ_of_ne_zero (Nat.ne_of_gt hroom)
    rw [stretch_succ, taken]
  | moves present taken onward ih =>
    cases room with
    | zero => cases hroom
    | succ room =>
      rw [stretch_succ, taken]
      exact ih (Nat.le_of_succ_le_succ hroom)

/-- A stretch whose room is used up stops at the node it has come to. -/
theorem stretch_of_visited? {n : Node}
    (h : visited? w.runtime w.graph room index s = some n) :
    w.stretch limit room index s clips = .error (.depthExceeded n.id limit) := by
  induction room generalizing index s clips with
  | zero =>
    rw [visited?] at h
    rw [stretch_zero, h]
  | succ room ih =>
    rw [visited?] at h
    rw [stretch_succ]
    cases hturn : turn w.runtime w.graph index s with
    | moves clip next s' =>
      rw [hturn] at h
      exact ih h
    | _ =>
      rw [hturn] at h
      cases h

/-- A stretch that ends does not come to as many nodes as the bound that stands for no limit. -/
theorem length_le_stretchBound {nodes : List Node} {result : Except (WalkError α) (Walk α)}
    (h : Unguarded w.runtime w.graph index s clips nodes result) :
    nodes.length ≤ stretchBound w.graph s.variables := by
  by_contra hlong
  -- If it did, the bound would stop it, and then it would go on for ever.
  have hvisited := h.visited?_eq (stretchBound w.graph s.variables)
  rw [List.getElem?_eq_getElem (Nat.lt_of_not_le hlong)] at hvisited
  have hstopped : w.stretch 0 _ index s clips = .error (.depthExceeded _ 0) :=
    stretch_of_visited? hvisited
  obtain ⟨-, place, n, hplace, hn, -⟩ := stretch_eq_depthExceeded_iff.1 hstopped
  obtain ⟨k, hk⟩ := h.not_total
  have htotal := Graph.orbit_total_of_bound (Nat.le_refl _) hplace hn k
  rw [hk] at htotal
  cases htotal

/-! ## What begins a stretch -/

/-- The walker with another limit on stretches. -/
def withDepth {α : Type} (w : Walker α) (limit : Option Nat) : Walker α :=
  { w with runtime.settings.walkDepth := limit }

omit [Scalar α] in
@[simp] theorem graph_withDepth (w : Walker α) (l : Option Nat) :
    (w.withDepth l).graph = w.graph := rfl

/-- A turn does not depend on the limit. -/
@[simp] theorem turn_withDepth (w : Walker α) (l : Option Nat) (g : Graph) (index : Nat)
    (s : Situation α) : turn (w.withDepth l).runtime g index s = turn w.runtime g index s := rfl

/-- What begins a stretch: an entry, or an option picked after a suspension. -/
inductive Call (α : Type) where
  | start (entry : String)
  | resume (s : Suspension α) (option : Nat)

/-- The stretch that is begun. -/
def call (w : Walker α) : Call α → Except (WalkError α) (Walk α)
  | .start entry => w.start entry
  | .resume s option => w.resume s option

/-- Where a stretch begins and how, unless it is refused; an option may lead nowhere. -/
def beginning {α : Type} [Scalar α] (w : Walker α) :
    Call α → Except (WalkError α) (Option Nat × Situation α)
  | .start entry =>
    match w.graph.entry? entry with
    | none => .error (.missingEntry entry)
    | some index => .ok (some index, ⟨.origin, w.variables⟩)
  | .resume s option =>
    if (w.graph.node? s.node).map (·.id) ≠ some s.nodeId then .error (.staleSuspension s.nodeId)
    else if s.options.length ≤ option then
      .error (.invalidOption s.nodeId option s.options.length)
    else .ok (w.graph.follow? s.node option, ⟨s.moment, s.variables⟩)

/-- The stretch that is begun and that nothing stops: its nodes and its result. -/
def CallUnguarded (w : Walker α) (c : Call α) (nodes : List Node)
    (result : Except (WalkError α) (Walk α)) : Prop :=
  match w.beginning c with
  | .error e => nodes = [] ∧ result = .error e
  | .ok (none, s) => nodes = [] ∧ result = .ok ⟨[], .finished, s.variables⟩
  | .ok (some index, s) => Unguarded w.runtime w.graph index s #[] nodes result

/-- The node to which the stretch that is begun comes after as many others, if nothing stops it. -/
def callVisited? (w : Walker α) (c : Call α) (k : Nat) : Option Node :=
  match w.beginning c with
  | .ok (some index, s) => visited? w.runtime w.graph k index s
  | _ => none

/-- The limit is the room that a stretch begins with, and nothing else in it. -/
theorem stretch_withDepth (l : Option Nat) :
    (w.withDepth l).stretch limit room index s clips = w.stretch limit room index s clips := by
  induction room generalizing index s clips with
  | zero => rw [stretch_zero, stretch_zero, graph_withDepth]
  | succ room ih =>
    rw [stretch_succ, stretch_succ, graph_withDepth, turn_withDepth]
    cases turn w.runtime w.graph index s with
    | moves clip next s' => exact ih
    | _ => rfl

theorem walkFrom_withDepth (w : Walker α) (l : Option Nat) (index : Nat) (s : Situation α) :
    (w.withDepth l).walkFrom index s
      = w.stretch (l.getD (stretchBound w.graph s.variables))
          (l.getD (stretchBound w.graph s.variables)) index s #[] :=
  stretch_withDepth l

/-- A stretch is refused, or leads nowhere, or is walked with the room that the limit gives it. -/
theorem call_withDepth (w : Walker α) (l : Option Nat) (c : Call α) :
    (w.withDepth l).call c
      = match w.beginning c with
        | .error e => .error e
        | .ok (none, s) => .ok ⟨[], .finished, s.variables⟩
        | .ok (some index, s) => (w.withDepth l).walkFrom index s := by
  cases c with
  | start entry =>
    rw [call, start, beginning, graph_withDepth]
    cases w.graph.entry? entry <;> rfl
  | resume s option =>
    rw [call, resume, beginning, graph_withDepth]
    split
    · rfl
    · split
      · rfl
      · cases w.graph.follow? s.node option <;> rfl

theorem call_eq (w : Walker α) (c : Call α) :
    w.call c
      = match w.beginning c with
        | .error e => .error e
        | .ok (none, s) => .ok ⟨[], .finished, s.variables⟩
        | .ok (some index, s) => w.walkFrom index s :=
  call_withDepth w w.runtime.settings.walkDepth c

/-! ## The guard -/

variable {c : Call α} {nodes : List Node} {result : Except (WalkError α) (Walk α)}

/-- A stretch that ends before it comes to the limit, or that has none, is the one that nothing
stops. -/
theorem call_of_unguarded {l : Option Nat} (h : w.CallUnguarded c nodes result)
    (hroom : ∀ limit ∈ l, nodes.length ≤ limit) : (w.withDepth l).call c = result := by
  rw [call_withDepth]
  rw [CallUnguarded] at h
  split at h
  · exact h.2.symm
  · exact h.2.symm
  · rw [walkFrom_withDepth]
    refine stretch_of_unguarded h ?_
    cases l with
    | none => exact length_le_stretchBound h
    | some limit => exact hroom limit rfl

/-- A stretch that comes to a node beyond the limit stops there. -/
theorem call_of_visited? {n : Node} (h : w.callVisited? c limit = some n) :
    (w.withDepth (some limit)).call c = .error (.depthExceeded n.id limit) := by
  rw [call_withDepth]
  rw [callVisited?] at h
  split at h
  · next hbegin =>
    rw [hbegin]
    exact (walkFrom_withDepth w _ _ _).trans (stretch_of_visited? h)
  · cases h

theorem CallUnguarded.visited?_eq (h : w.CallUnguarded c nodes result) (k : Nat) :
    w.callVisited? c k = nodes[k]? := by
  rw [CallUnguarded] at h
  rw [callVisited?]
  split at h
  · next hbegin => rw [hbegin, h.1, List.getElem?_nil]
  · next hbegin => rw [hbegin, h.1, List.getElem?_nil]
  · next hbegin =>
    rw [hbegin]
    exact h.visited?_eq k

theorem CallUnguarded.not_tooLong (h : w.CallUnguarded c nodes result) : ¬TooLong result := by
  have hbegin : ∀ {e}, w.beginning c = .error e → ¬TooLong (.error e : Except _ (Walk α)) := by
    rintro e hbegin ⟨id, limit, heq⟩
    cases heq
    cases c with
    | start entry =>
      rw [beginning] at hbegin
      split at hbegin <;> cases hbegin
    | resume s option =>
      rw [beginning] at hbegin
      split at hbegin
      · cases hbegin
      · split at hbegin <;> cases hbegin
  rw [CallUnguarded] at h
  split at h
  · next herror =>
    rw [h.2]
    exact hbegin herror
  · rw [h.2]
    exact not_tooLong_ok
  · exact h.not_tooLong

/-- A stretch that does not come to a further node has ended. -/
theorem exists_callUnguarded {k : Nat} (h : w.callVisited? c k = none) :
    ∃ nodes result, w.CallUnguarded c nodes result := by
  simp only [CallUnguarded]
  rw [callVisited?] at h
  split
  · exact ⟨_, _, rfl, rfl⟩
  · exact ⟨_, _, rfl, rfl⟩
  · next hbegin =>
    rw [hbegin] at h
    exact exists_unguarded_of_visited? h

/-- With a limit, a stretch is too long exactly if it comes to a node beyond it. -/
theorem tooLong_iff_visited? :
    TooLong ((w.withDepth (some limit)).call c) ↔ ∃ n, w.callVisited? c limit = some n := by
  constructor
  · intro hlong
    cases hvisited : w.callVisited? c limit with
    | some n => exact ⟨n, rfl⟩
    | none =>
      -- The stretch ends in time, and then not for its length.
      obtain ⟨nodes, result, hends⟩ := exists_callUnguarded hvisited
      have hlen : nodes.length ≤ limit := by
        rw [hends.visited?_eq] at hvisited
        exact List.getElem?_eq_none_iff.1 hvisited
      rw [call_of_unguarded hends fun _ h => Option.mem_some.1 h ▸ hlen] at hlong
      exact absurd hlong hends.not_tooLong
  · rintro ⟨n, hn⟩
    exact ⟨n.id, limit, call_of_visited? hn⟩

/-- A larger limit changes nothing for a stretch that is not too long. -/
theorem call_eq_of_le {limit' : Nat} (hle : limit ≤ limit')
    (hshort : ¬TooLong ((w.withDepth (some limit)).call c)) :
    (w.withDepth (some limit')).call c = (w.withDepth (some limit)).call c := by
  rw [tooLong_iff_visited?] at hshort
  have hvisited : w.callVisited? c limit = none :=
    Option.eq_none_iff_forall_ne_some.2 fun n hn => hshort ⟨n, hn⟩
  obtain ⟨nodes, result, hends⟩ := exists_callUnguarded hvisited
  have hlen : nodes.length ≤ limit := by
    rw [hends.visited?_eq] at hvisited
    exact List.getElem?_eq_none_iff.1 hvisited
  rw [call_of_unguarded hends fun _ h => Option.mem_some.1 h ▸ hlen,
    call_of_unguarded hends fun _ h => Option.mem_some.1 h ▸ hlen.trans hle]

/-- Where no output leads back, no stretch comes to more nodes than there are. -/
theorem not_tooLong_of_acyclic (hacyclic : Acyclic w.graph.Leads)
    (hlimit : w.graph.nodes.size ≤ limit) :
    ¬TooLong ((w.withDepth (some limit)).call c) := by
  rw [tooLong_iff_visited?]
  rintro ⟨n, hn⟩
  rw [callVisited?] at hn
  split at hn
  · obtain ⟨p, hleads, hin, -⟩ := exists_way_of_visited? hn
    have hcard := lt_card_of_acyclic hacyclic hleads (T := Finset.range w.graph.nodes.size)
      fun i hi => Finset.mem_range.2 (hin i hi)
    rw [Finset.card_range] at hcard
    omega
  · cases hn

end Walker

end BranchingDialogue
