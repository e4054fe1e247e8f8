import Negotiation.Parameter
import Negotiation.Port

/-!
Bound graphs: what a negotiation hands out.

A bound graph owns its data: every reachable node with the edges attached to it, and every
reachable edge with the parameters that met on it and what they settled to.
-/

namespace Negotiation

/-- A settled edge. -/
structure BoundEdge where
  id : EdgeId
  output : Port
  input : Port
  protocol : String
  downward : Parameter
  upward : Parameter
  resolved : Parameter
deriving DecidableEq

/-- A node and the settled edges attached to it, port by port. -/
structure BoundNode where
  id : NodeId
  name : String
  inward : List EdgeId
  outward : List EdgeId
deriving DecidableEq

/-- Nodes and edges, each ascending by number. -/
structure BoundGraph where
  nodes : List BoundNode
  edges : List BoundEdge
deriving DecidableEq

/-- The entry of a number between two places of an array in which the numbers ascend: the half that
cannot hold it is left out until it is found or nothing is left. -/
def bisect {α : Type} (number : α → Nat) (entries : Array α) (wanted low high : Nat) : Option α :=
  if low < high then
    let middle := (low + high) / 2
    match entries[middle]? with
    | none => none
    | some entry =>
        if number entry = wanted then some entry
        else if number entry < wanted then bisect number entries wanted (middle + 1) high
        else bisect number entries wanted low middle
  else none
termination_by high - low

/-- The entry of a number in a list in which the numbers ascend. -/
def lookup {α : Type} (number : α → Nat) (entries : List α) (wanted : Nat) : Option α :=
  bisect number entries.toArray wanted 0 entries.length

namespace BoundGraph

def node? (g : BoundGraph) (n : NodeId) : Option BoundNode :=
  lookup (·.id.index) g.nodes n.index

/-- The first node of a name. -/
def nodeNamed? (g : BoundGraph) (name : String) : Option BoundNode :=
  g.nodes.find? (·.name = name)

def edge? (g : BoundGraph) (e : EdgeId) : Option BoundEdge :=
  lookup (·.id.index) g.edges e.index

/-- The settled parameters of some edges. -/
def settled (g : BoundGraph) (edges : List EdgeId) : List Parameter :=
  edges.filterMap fun e => (g.edge? e).map (·.resolved)

/-- The settled parameters of the edges that arrive at a node. -/
def inward (g : BoundGraph) (n : NodeId) : List Parameter :=
  match g.node? n with
  | some node => g.settled node.inward
  | none => []

/-- The settled parameters of the edges that leave a node. -/
def outward (g : BoundGraph) (n : NodeId) : List Parameter :=
  match g.node? n with
  | some node => g.settled node.outward
  | none => []

end BoundGraph

end Negotiation
