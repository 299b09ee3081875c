import BranchingDialogue.Processor.Pull
import BranchingDialogue.Proofs.Processor.Applying

/-!
# Answers as strict evaluation

What a graph answers is laid down without a measure of how much room is left: `Graph.Answers` gives
the rules of a strict evaluation that asks for the inputs of a processor from left to right, stops
at the first error, counts how deep it is and heeds a limit if there is one. Without a limit some
requests have no answer: the evaluation of a node that feeds itself never ends.

Under a limit the rules and the evaluation by room agree (`answers_iff`), so there every request
has exactly one answer, also where processors feed one another in a circle. An answer that the
limit has not cut off does not depend on it (`Answers.mono`), and an answer without a limit is the
answer under every limit that leaves enough room (`Answers.eventually`).
-/

namespace BranchingDialogue

/-- What may be asked of a graph. -/
inductive Request where
  /-- The value of a node at an output. -/
  | value (node : Nat) (port : Int)
  /-- The value of what feeds an input. -/
  | input (node : Nat) (port : Int)

/-- The node that a request names. -/
def Request.node : Request → Nat
  | .value i _ | .input i _ => i

/-- Whether the limit has cut an evaluation off. -/
def Cut (r : Except ProcessorError Value) : Prop :=
  ∃ id limit, r = .error (.depthExceeded id limit)

theorem not_cut_ok (v : Value) : ¬Cut (.ok v) := nofun

theorem not_cut_of_applies {n : Node} {vars : Variables} {inputs : List Value} {port : Int}
    {r : Except ProcessorError Value} (h : n.Applies vars inputs port r) : ¬Cut r := by
  rintro ⟨id, limit, hr⟩
  exact h.ne_depthExceeded id limit hr

/-- Whether a limit, if there is one, allows a depth. -/
def Allows (limit : Option Nat) (depth : Nat) : Prop := ∀ L, limit = some L → depth ≤ L

theorem allows_some {L depth : Nat} : Allows (some L) depth ↔ depth ≤ L :=
  ⟨fun h => h L rfl, fun h _ hL => Option.some.inj hL ▸ h⟩

theorem allows_none (depth : Nat) : Allows none depth := nofun

namespace Graph

/-- What a graph answers. -/
def answer (g : Graph) (vars : Variables) (limit : Option Nat) :
    Request → Except ProcessorError Value
  | .value i port => g.getValue vars limit i port
  | .input i port => g.pullInput vars limit i port

/-- The rules of evaluation. A node is evaluated at some depth, and what feeds its inputs one level
deeper. -/
inductive Answers (g : Graph) (vars : Variables) (limit : Option Nat) :
    Nat → Request → Except ProcessorError Value → Prop
  /-- There is no such node. -/
  | unknownNode {depth : Nat} {q : Request} (hi : g.node? q.node = none) :
    Answers g vars limit depth q (.error (.unknownNode q.node))
  /-- Nothing feeds the input. -/
  | unconnected {depth i : Nat} {port : Int} {n : Node} (hi : g.node? i = some n)
    (hs : g.source? i port = none) :
    Answers g vars limit depth (.input i port) (.error (.missingInput n.id port))
  /-- What feeds the input is evaluated. -/
  | fed {depth i : Nat} {port : Int} {n : Node} {s : PortRef} {r : Except ProcessorError Value}
    (hi : g.node? i = some n) (hs : g.source? i port = some s)
    (hr : Answers g vars limit (depth + 1) (.value s.node s.number) r) :
    Answers g vars limit depth (.input i port) r
  /-- The node is deeper than allowed. -/
  | deep {depth i L : Nat} {port : Int} {n : Node} (hi : g.node? i = some n)
    (hlimit : limit = some L) (hdeep : L < depth) :
    Answers g vars limit depth (.value i port) (.error (.depthExceeded n.id L))
  /-- The node computes nothing. -/
  | flow {depth i : Nat} {port : Int} {n : Node} (hi : g.node? i = some n)
    (hdepth : Allows limit depth) (hkind : n.kind.isProcessor = false) :
    Answers g vars limit depth (.value i port) (.error (.notAProcessor n.id n.kind))
  /-- Input `k` is the first that has no value, and its error counts. -/
  | fails {depth i k : Nat} {port : Int} {n : Node} {value : Nat → Value} {e : ProcessorError}
    (hi : g.node? i = some n) (hdepth : Allows limit depth) (hkind : n.kind.isProcessor = true)
    (hk : k < n.layout.inputs)
    (hbefore : ∀ m < k, Answers g vars limit depth (.input i m) (.ok (value m)))
    (he : Answers g vars limit depth (.input i k) (.error e)) :
    Answers g vars limit depth (.value i port) (.error e)
  /-- Every input has a value, and the processor is applied. -/
  | computes {depth i : Nat} {port : Int} {n : Node} {value : Nat → Value}
    {r : Except ProcessorError Value} (hi : g.node? i = some n) (hdepth : Allows limit depth)
    (hkind : n.kind.isProcessor = true)
    (hall : ∀ m < n.layout.inputs, Answers g vars limit depth (.input i m) (.ok (value m)))
    (hr : n.Applies vars ((List.range n.layout.inputs).map value) port r) :
    Answers g vars limit depth (.value i port) r

/-! ## Inputs in order -/

section InOrder

variable {α : Type} {f : Nat → Except ProcessorError α}

theorem inOrder_ok {value : Nat → α} {ks : List Nat} (h : ∀ k ∈ ks, f k = .ok (value k)) :
    inOrder f ks = .ok (ks.map value) := by
  induction ks with
  | nil => rfl
  | cons k ks ih =>
    have hk := h k List.mem_cons_self
    have hks := ih fun m hm => h m (List.mem_cons_of_mem k hm)
    simp only [inOrder, hk, hks, List.map_cons]

theorem inOrder_error {value : Nat → α} {before after : List Nat} {k : Nat} {e : ProcessorError}
    (h : ∀ m ∈ before, f m = .ok (value m)) (hk : f k = .error e) :
    inOrder f (before ++ k :: after) = .error e := by
  induction before with
  | nil => simp only [List.nil_append, inOrder, hk]
  | cons m before ih =>
    have hm := h m List.mem_cons_self
    have hrest := ih fun m' hm' => h m' (List.mem_cons_of_mem m hm')
    simp only [List.cons_append, inOrder, hm, hrest]

theorem inOrder_range_error {value : Nat → α} {count k : Nat} {e : ProcessorError}
    (hk : k < count) (h : ∀ m < k, f m = .ok (value m)) (he : f k = .error e) :
    inOrder f (List.range count) = .error e := by
  obtain ⟨rest, rfl⟩ := Nat.exists_eq_add_of_lt hk
  rw [Nat.add_assoc, List.range_add, List.range_succ_eq_map, List.map_cons]
  exact inOrder_error (fun m hm => h m (List.mem_range.1 hm)) he

/-- Results in order are as many as have been asked for. -/
theorem length_of_inOrder {ks : List Nat} {values : List α} (h : inOrder f ks = .ok values) :
    values.length = ks.length := by
  induction ks generalizing values with
  | nil =>
    cases h
    rfl
  | cons k ks ih =>
    rw [inOrder] at h
    split at h
    · cases h
    · split at h
      · cases h
      · next rest hrest =>
        cases h
        rw [List.length_cons, List.length_cons, ih hrest]

/-- Either all inputs have values or there is a first one that has none. -/
theorem all_or_first_error [Inhabited α] (f : Nat → Except ProcessorError α) (count : Nat) :
    (∃ value : Nat → α, ∀ m < count, f m = .ok (value m))
      ∨ ∃ k < count, ∃ e, ∃ value : Nat → α, (∀ m < k, f m = .ok (value m)) ∧ f k = .error e := by
  induction count with
  | zero => exact .inl ⟨fun _ => default, nofun⟩
  | succ count ih =>
    rcases ih with ⟨value, hall⟩ | ⟨k, hk, herror⟩
    · cases hlast : f count with
      | error e => exact .inr ⟨count, Nat.lt_succ_self count, e, value, hall, hlast⟩
      | ok v =>
        refine .inl ⟨fun m => if m = count then v else value m, fun m hm => ?_⟩
        dsimp only
        split
        · next h => rw [h, hlast]
        · exact hall m (by omega)
    · exact .inr ⟨k, by omega, herror⟩

end InOrder

/-! ## Evaluation by room -/

/-- What a graph answers to a request that is met at some depth. -/
def answerAt (g : Graph) (vars : Variables) (L depth : Nat) :
    Request → Except ProcessorError Value
  | .value i port => g.valueWithin vars L (L + 1 - depth) i port
  | .input i port => g.inputFrom (g.valueWithin vars L (L - depth)) i port

variable {g : Graph} {vars : Variables} {L depth i : Nat} {port : Int} {n : Node} {q : Request}
  {r : Except ProcessorError Value}

theorem answer_some (g : Graph) (vars : Variables) (L : Nat) (q : Request) :
    g.answer vars (some L) q = g.answerAt vars L 0 q := by
  cases q <;> rfl

theorem answer_none (g : Graph) (vars : Variables) (q : Request) :
    g.answer vars none q = g.answerAt vars g.nodes.size 0 q := by
  cases q <;> rfl

theorem answerAt_unknownNode (hi : g.node? q.node = none) :
    g.answerAt vars L depth q = .error (.unknownNode q.node) := by
  cases q with
  | value i port =>
    replace hi : g.node? i = none := hi
    rw [answerAt, valueWithin, hi]
    rfl
  | input i port =>
    replace hi : g.node? i = none := hi
    rw [answerAt, inputFrom, hi]
    rfl

theorem answerAt_unconnected (hi : g.node? i = some n) (hs : g.source? i port = none) :
    g.answerAt vars L depth (.input i port) = .error (.missingInput n.id port) := by
  simp only [answerAt, inputFrom, hi, hs]

theorem answerAt_fed {s : PortRef} (hi : g.node? i = some n) (hs : g.source? i port = some s) :
    g.answerAt vars L depth (.input i port)
      = g.answerAt vars L (depth + 1) (.value s.node s.number) := by
  simp only [answerAt, inputFrom, hi, hs, Nat.add_sub_add_right]

theorem answerAt_deep (hi : g.node? i = some n) (hdeep : L < depth) :
    g.answerAt vars L depth (.value i port) = .error (.depthExceeded n.id L) := by
  have hroom : L + 1 - depth = 0 := by omega
  rw [answerAt, hroom, valueWithin, hi]

theorem answerAt_flow (hi : g.node? i = some n) (hdepth : depth ≤ L)
    (hkind : n.kind.isProcessor = false) :
    g.answerAt vars L depth (.value i port) = .error (.notAProcessor n.id n.kind) := by
  have hroom : L + 1 - depth = L - depth + 1 := by omega
  rw [answerAt, hroom, valueWithin, hi]
  simp only [hkind, Bool.false_eq_true, if_false]

theorem answerAt_processor (hi : g.node? i = some n) (hdepth : depth ≤ L)
    (hkind : n.kind.isProcessor = true) :
    g.answerAt vars L depth (.value i port)
      = match inOrder (fun k => g.answerAt vars L depth (.input i k))
            (List.range n.layout.inputs) with
        | .error e => .error e
        | .ok inputs => n.process inputs port vars := by
  have hroom : L + 1 - depth = L - depth + 1 := by omega
  rw [answerAt, hroom, valueWithin, hi]
  simp only [hkind, if_true]
  rfl

/-- A processor whose input `k` is the first without a value has that input's error. -/
theorem answerAt_fails {k : Nat} {value : Nat → Value} {e : ProcessorError}
    (hi : g.node? i = some n) (hdepth : depth ≤ L) (hkind : n.kind.isProcessor = true)
    (hk : k < n.layout.inputs)
    (hbefore : ∀ m < k, g.answerAt vars L depth (.input i m) = .ok (value m))
    (he : g.answerAt vars L depth (.input i k) = .error e) :
    g.answerAt vars L depth (.value i port) = .error e := by
  rw [answerAt_processor hi hdepth hkind, inOrder_range_error hk hbefore he]

/-- A processor whose inputs have values is applied to them. -/
theorem answerAt_computes {value : Nat → Value} (hi : g.node? i = some n) (hdepth : depth ≤ L)
    (hkind : n.kind.isProcessor = true)
    (hall : ∀ m < n.layout.inputs, g.answerAt vars L depth (.input i m) = .ok (value m)) :
    g.answerAt vars L depth (.value i port)
      = n.process ((List.range n.layout.inputs).map value) port vars := by
  rw [answerAt_processor hi hdepth hkind,
    inOrder_ok fun m hm => hall m (List.mem_range.1 hm)]

/-! ## Under a limit -/

/-- Evaluation by room follows the rules. The induction is on the room that is left. -/
theorem answers_value {room : Nat} (hroom : L + 1 - depth = room) (i : Nat) (port : Int) :
    g.Answers vars (some L) depth (.value i port) (g.answerAt vars L depth (.value i port)) := by
  induction room generalizing depth i port with
  | zero =>
    cases hi : g.node? i with
    | none =>
      rw [answerAt_unknownNode hi]
      exact .unknownNode hi
    | some n =>
      rw [answerAt_deep hi (by omega)]
      exact .deep hi rfl (by omega)
  | succ room ih =>
    have hdepth : depth ≤ L := by omega
    cases hi : g.node? i with
    | none =>
      rw [answerAt_unknownNode hi]
      exact .unknownNode hi
    | some n =>
      cases hkind : n.kind.isProcessor with
      | false =>
        rw [answerAt_flow hi hdepth hkind]
        exact .flow hi (allows_some.2 hdepth) hkind
      | true =>
        -- An input has less room than the node it feeds, so the induction covers it.
        have hinput : ∀ k : Nat, g.Answers vars (some L) depth (.input i k)
            (g.answerAt vars L depth (.input i k)) := by
          intro k
          cases hs : g.source? i k with
          | none =>
            rw [answerAt_unconnected hi hs]
            exact .unconnected hi hs
          | some s =>
            rw [answerAt_fed hi hs]
            exact .fed hi hs (ih (by omega) s.node s.number)
        rcases all_or_first_error (fun k : Nat => g.answerAt vars L depth (.input i k))
            n.layout.inputs with ⟨value, hall⟩ | ⟨k, hk, e, value, hbefore, he⟩
        · rw [answerAt_computes hi hdepth hkind hall]
          exact .computes hi (allows_some.2 hdepth) hkind
            (fun m hm => hall m hm ▸ hinput m)
            (Node.applies_process hkind (by rw [List.length_map, List.length_range]) vars port)
        · rw [answerAt_fails hi hdepth hkind hk hbefore he]
          exact .fails hi (allows_some.2 hdepth) hkind hk
            (fun m hm => hbefore m hm ▸ hinput m) (he ▸ hinput k)

theorem answers_answerAt (g : Graph) (vars : Variables) (L depth : Nat) (q : Request) :
    g.Answers vars (some L) depth q (g.answerAt vars L depth q) := by
  cases q with
  | value i port => exact answers_value rfl i port
  | input i port =>
    cases hi : g.node? i with
    | none =>
      rw [answerAt_unknownNode hi]
      exact .unknownNode hi
    | some n =>
      cases hs : g.source? i port with
      | none =>
        rw [answerAt_unconnected hi hs]
        exact .unconnected hi hs
      | some s =>
        rw [answerAt_fed hi hs]
        exact .fed hi hs (answers_value rfl s.node s.number)

/-- The rules allow no other answer. -/
theorem Answers.eq_answerAt (h : g.Answers vars (some L) depth q r) :
    g.answerAt vars L depth q = r := by
  induction h with
  | unknownNode hi => exact answerAt_unknownNode hi
  | unconnected hi hs => exact answerAt_unconnected hi hs
  | fed hi hs _ ih => rw [answerAt_fed hi hs, ih]
  | deep hi hlimit hdeep =>
    cases hlimit
    exact answerAt_deep hi hdeep
  | flow hi hdepth hkind => exact answerAt_flow hi (allows_some.1 hdepth) hkind
  | fails hi hdepth hkind hk _ _ ihbefore ihe =>
    exact answerAt_fails hi (allows_some.1 hdepth) hkind hk ihbefore ihe
  | computes hi hdepth hkind _ hr ihall =>
    rw [answerAt_computes hi (allows_some.1 hdepth) hkind ihall, hr.eq_process hkind]

theorem answers_iff :
    g.Answers vars (some L) depth q r ↔ g.answerAt vars L depth q = r :=
  ⟨Answers.eq_answerAt, fun h => h ▸ answers_answerAt g vars L depth q⟩

/-! ## From limit to limit -/

/-- An answer that was not cut off stands wherever at least as much room is left. -/
theorem Answers.mono {limit limit' : Option Nat} (h : g.Answers vars limit depth q r)
    (hcut : ¬Cut r) {depth' : Nat}
    (hroom : ∀ k, Allows limit (depth + k) → Allows limit' (depth' + k)) :
    g.Answers vars limit' depth' q r := by
  induction h generalizing depth' with
  | unknownNode hi => exact .unknownNode hi
  | unconnected hi hs => exact .unconnected hi hs
  | @fed depth _ _ _ _ _ hi hs _ ih =>
    -- What feeds the input is one level deeper on both sides.
    refine .fed hi hs (ih hcut fun k hk => ?_)
    rw [Nat.add_assoc, Nat.add_comm 1] at hk ⊢
    exact hroom (k + 1) hk
  | deep => exact absurd ⟨_, _, rfl⟩ hcut
  | flow hi hdepth hkind => exact .flow hi (hroom 0 hdepth) hkind
  | fails hi hdepth hkind hk _ _ ihbefore ihe =>
    exact .fails hi (hroom 0 hdepth) hkind hk (fun m hm => ihbefore m hm (not_cut_ok _) hroom)
      (ihe hcut hroom)
  | computes hi hdepth hkind _ hr ihall =>
    exact .computes hi (hroom 0 hdepth) hkind (fun m hm => ihall m hm (not_cut_ok _) hroom) hr

/-- Without a limit nothing is cut off. -/
theorem Answers.not_cut (h : g.Answers vars none depth q r) : ¬Cut r := by
  induction h with
  | unknownNode | unconnected | flow => nofun
  | fed _ _ _ ih => exact ih
  | deep _ hlimit => cases hlimit
  | fails _ _ _ _ _ _ _ ihe => exact ihe
  | computes _ _ _ _ hr => exact not_cut_of_applies hr

theorem exists_common_bound {p : Nat → Nat → Prop} {count : Nat}
    (hup : ∀ m a b, a ≤ b → p m a → p m b) (h : ∀ m < count, ∃ a, p m a) :
    ∃ b, ∀ m < count, p m b := by
  induction count with
  | zero => exact ⟨0, nofun⟩
  | succ count ih =>
    obtain ⟨b, hb⟩ := ih fun m hm => h m (by omega)
    obtain ⟨a, ha⟩ := h count (Nat.lt_succ_self count)
    refine ⟨max a b, fun m hm => ?_⟩
    by_cases hlast : m = count
    · exact hup m a _ (Nat.le_max_left a b) (hlast ▸ ha)
    · exact hup m b _ (Nat.le_max_right a b) (hb m (by omega))

/-- An answer without a limit is found with room enough. -/
theorem Answers.eventually (h : g.Answers vars none depth q r) :
    ∃ height, ∀ L d, d + height ≤ L → g.Answers vars (some L) d q r := by
  -- Each input has a height of its own, and the largest of them serves all.
  have hcommon : ∀ {i count : Nat} {value : Nat → Value},
      (∀ m < count, ∃ height, ∀ L d, d + height ≤ L →
        g.Answers vars (some L) d (.input i m) (.ok (value m))) →
      ∃ height, ∀ m < count, ∀ L d, d + height ≤ L →
        g.Answers vars (some L) d (.input i m) (.ok (value m)) := fun h =>
    exists_common_bound (fun m a b hab ha L d hd => ha L d (by omega)) h
  induction h with
  | unknownNode hi => exact ⟨0, fun L d _ => .unknownNode hi⟩
  | unconnected hi hs => exact ⟨0, fun L d _ => .unconnected hi hs⟩
  | fed hi hs _ ih =>
    obtain ⟨height, hheight⟩ := ih
    exact ⟨height + 1, fun L d hd => .fed hi hs (hheight L (d + 1) (by omega))⟩
  | deep _ hlimit => cases hlimit
  | flow hi _ hkind => exact ⟨0, fun L d hd => .flow hi (allows_some.2 hd) hkind⟩
  | fails hi _ hkind hk _ _ ihbefore ihe =>
    obtain ⟨a, ha⟩ := hcommon ihbefore
    obtain ⟨b, hb⟩ := ihe
    exact ⟨max a b, fun L d hd => .fails hi (allows_some.2 (by omega)) hkind hk
      (fun m hm => ha m hm L d (by omega)) (hb L d (by omega))⟩
  | computes hi _ hkind _ hr ihall =>
    obtain ⟨a, ha⟩ := hcommon ihall
    exact ⟨a, fun L d hd => .computes hi (allows_some.2 (by omega)) hkind
      (fun m hm => ha m hm L d hd) hr⟩

/-- Without a limit there is at most one answer. -/
theorem Answers.unique {r' : Except ProcessorError Value} {depth' : Nat}
    (h : g.Answers vars none depth q r) (h' : g.Answers vars none depth' q r') : r = r' := by
  obtain ⟨a, ha⟩ := h.eventually
  obtain ⟨b, hb⟩ := h'.eventually
  rw [← (ha (a + b) 0 (by omega)).eq_answerAt, ← (hb (a + b) 0 (by omega)).eq_answerAt]

/-- What is not cut off under a limit is the answer without one. -/
theorem answers_none_of_not_cut (hcut : ¬Cut (g.answerAt vars L depth q)) (d : Nat) :
    g.Answers vars none d q (g.answerAt vars L depth q) :=
  (answers_answerAt g vars L depth q).mono hcut fun _ _ => allows_none _

end Graph

end BranchingDialogue
