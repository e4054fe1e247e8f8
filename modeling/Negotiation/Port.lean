import Negotiation.Text.Digits

/-!
Nodes, edges and ports by number.
-/

namespace Negotiation

/-- A node of a graph, by its position. -/
structure NodeId where
  index : Nat
deriving DecidableEq, Inhabited

/-- An edge of a graph, by its position. -/
structure EdgeId where
  index : Nat
deriving DecidableEq, Inhabited

def NodeId.text (n : NodeId) : String :=
  "n" ++ Text.decimal n.index

def EdgeId.text (e : EdgeId) : String :=
  "e" ++ Text.decimal e.index

/-- The two sides of a node: edges arrive at inputs and leave from outputs. -/
inductive Side where
  | input
  | output
deriving DecidableEq, Inhabited

namespace Side

def opposite : Side → Side
  | input => output
  | output => input

/-- The short form that stands in the text of a port. -/
def text : Side → String
  | input => "in"
  | output => "out"

/-- The word for a port of this side. -/
def word : Side → String
  | input => "input"
  | output => "output"

/-- The name of a side in stored records. -/
def name : Side → String
  | input => "Input"
  | output => "Output"

/-- The place of a side in the order of ports: inputs come first. -/
def rank : Side → Nat
  | input => 0
  | output => 1

end Side

/-- A port: one of the inputs or outputs of a node. -/
structure Port where
  node : NodeId
  side : Side
  index : Nat
deriving DecidableEq, Inhabited

namespace Port

def text (p : Port) : String :=
  p.node.text ++ "." ++ p.side.text ++ Text.decimal p.index

/-- Ports are ordered by node, then inputs before outputs, then by index. -/
def order (p q : Port) : Ordering :=
  (compare p.node.index q.node.index).then
    ((compare p.side.rank q.side.rank).then (compare p.index q.index))

end Port

def NodeId.input (n : NodeId) (index : Nat) : Port := ⟨n, .input, index⟩

def NodeId.output (n : NodeId) (index : Nat) : Port := ⟨n, .output, index⟩

end Negotiation
