/-!
# Ports

A node is connected through numbered ports. Numbers from zero on are primary sockets, which carry
the flow; negative numbers are secondary sockets, which carry data: secondary socket `i` has the
number `-(i + 1)`. `flip` translates in both directions.
-/

namespace BranchingDialogue

/-- The port by which a walk goes on from a node without branches. -/
def continuePort : Int := 0

/-- Exchanges the numbering of primary sockets and that of secondary sockets. -/
def flip (n : Int) : Int := -(n + 1)

@[simp] theorem flip_flip (n : Int) : flip (flip n) = n := by unfold flip; omega

theorem flip_neg_iff (n : Int) : flip n < 0 ↔ 0 ≤ n := by unfold flip; omega

/-- The data input of a node that takes a value. -/
def dataSocket : Int := flip 0

/-- Which way a port faces. -/
inductive Direction where
  | input
  | output
  deriving DecidableEq, Repr

/-- The name of a direction. -/
def Direction.name : Direction → String
  | .input => "input"
  | .output => "output"

/-- A port number taken apart. -/
inductive PortSlot where
  /-- A socket of the flow. -/
  | primary (index : Nat)
  /-- A socket for data. -/
  | secondary (index : Nat)
  deriving DecidableEq, Repr

namespace PortSlot

/-- The socket that a number stands for. -/
def ofNumber (n : Int) : PortSlot :=
  if 0 ≤ n then .primary n.toNat else .secondary (flip n).toNat

/-- The number that stands for a socket. -/
def number : PortSlot → Int
  | .primary i => i
  | .secondary i => flip i

/-- Whether a socket carries data. -/
def isSecondary : PortSlot → Bool
  | .primary _ => false
  | .secondary _ => true

/-- A socket as it stands in messages. -/
def display : PortSlot → String
  | .primary i => toString i
  | .secondary i => "secondary " ++ toString i

@[simp] theorem number_ofNumber (n : Int) : (ofNumber n).number = n := by
  unfold ofNumber
  split <;> simp only [number, flip] <;> omega

end PortSlot

/-- How many edges a port takes. -/
inductive Capacity where
  | single
  | multi
  deriving DecidableEq, Repr

/-- The name of a capacity. -/
def Capacity.name : Capacity → String
  | .single => "single"
  | .multi => "multi"

/-- A port of a node of a graph; nodes and edges are named by their positions in the graph. -/
structure PortRef where
  node : Nat
  direction : Direction
  number : Int
  deriving DecidableEq, Repr

/-- An output of a node. -/
def PortRef.output (node : Nat) (number : Int) : PortRef := ⟨node, .output, number⟩

/-- An input of a node. -/
def PortRef.input (node : Nat) (number : Int) : PortRef := ⟨node, .input, number⟩

/-- A port that exists, with its edges in the order in which they were connected. -/
structure Port where
  direction : Direction
  number : Int
  capacity : Capacity
  edges : List Nat
  deriving DecidableEq, Repr

namespace Port

/-- A port without edges. -/
def new (direction : Direction) (number : Int) (capacity : Capacity) : Port :=
  ⟨direction, number, capacity, []⟩

/-- The socket of a port. -/
def slot (p : Port) : PortSlot := .ofNumber p.number

/-- Whether an edge is connected. -/
def isConnected (p : Port) : Bool := !p.edges.isEmpty

/-- Whether one more edge fits. -/
def accepts (p : Port) : Bool := p.capacity == .multi || p.edges.isEmpty

/-- Connects an edge. -/
def attach (p : Port) (edge : Nat) : Port := { p with edges := p.edges ++ [edge] }

end Port

/-- A connection from an output to an input. -/
structure Edge where
  id : Nat
  output : PortRef
  input : PortRef
  deriving DecidableEq, Repr

end BranchingDialogue
