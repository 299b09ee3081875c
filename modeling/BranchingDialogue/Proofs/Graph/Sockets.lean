import BranchingDialogue.Graph.Node

/-!
# Declared sockets

Which ports the layout of a node declares, for all kinds at once. No kind has data outputs, so an
output port is an output of the flow or the one of a processor, and its number says which.
-/

namespace BranchingDialogue.Node

variable {n : Node} {port : Int}

theorem dataOutputs_eq (n : Node) : n.layout.dataOutputs = 0 := by
  rw [layout]
  cases n.kind <;> rfl

/-- The output ports of a node are numbered from zero on. -/
theorem contains_output_iff :
    n.layout.contains .output port = true ↔ ∃ p < n.layout.outputs, port = (p : Int) := by
  unfold PortLayout.contains PortLayout.declared PortSlot.ofNumber
  by_cases hport : 0 ≤ port
  · simp only [if_pos hport, decide_eq_true_eq]
    constructor
    · intro h
      exact ⟨port.toNat, h, by omega⟩
    · rintro ⟨p, hp, rfl⟩
      rwa [Int.toNat_natCast]
  · simp only [if_neg hport, dataOutputs_eq, decide_eq_true_eq]
    constructor
    · intro h
      omega
    · rintro ⟨p, -, rfl⟩
      omega

theorem contains_input_of_lt {k : Nat} (h : k < n.layout.inputs) :
    n.layout.contains .input k = true := by
  have hk : (0 : Int) ≤ k := by omega
  unfold PortLayout.contains PortLayout.declared PortSlot.ofNumber
  simp only [if_pos hk, Int.toNat_natCast]
  exact decide_eq_true h

/-- Nodes that take a value have a socket for it. -/
theorem contains_dataSocket (hkind : n.kind = .set ∨ n.kind = .condition ∨ n.kind = .blend) :
    n.layout.contains .input dataSocket = true := by
  rw [layout]
  rcases hkind with hkind | hkind | hkind <;> rw [hkind] <;> rfl

/-- A processor has one output. -/
theorem outputs_of_isProcessor (hkind : n.kind.isProcessor = true) : n.layout.outputs = 1 := by
  rw [layout]
  cases h : n.kind <;> rw [h] at hkind <;> first | rfl | cases hkind

end BranchingDialogue.Node
