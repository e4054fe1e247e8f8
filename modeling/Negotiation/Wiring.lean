import Negotiation.Failure
import Negotiation.Node

/-!
Wiring: nodes, the edges between their ports, and what depends on what.

A wiring holds its nodes and edges by number, and for every port the edges attached to it in the
order in which they were bound.  `Wiring.dependencies` says which keys a key needs.
-/

namespace Negotiation

/-- A binding of an output port to an input port. -/
structure Edge where
  id : EdgeId
  output : Port
  input : Port
  protocol : Protocol
  adapter : Adapter
  /-- Settles the edge in place of the protocol's own rule. -/
  policy : Option Policy

namespace Edge

/-- How the two parameters that meet on the edge are merged. -/
def rule (e : Edge) : MergeRule :=
  match e.policy with
  | some policy => .policy policy
  | none => e.protocol.merge

/-- The port from which parameters travel in a direction. -/
def origin (e : Edge) : Direction → Port
  | .down => e.output
  | .up => e.input

end Edge

/-- A node in a wiring: per input and per output the edges attached to it, in order of binding. -/
structure Slot where
  node : Node
  inEdges : List (List EdgeId)
  outEdges : List (List EdgeId)

namespace Slot

/-- How many ports of one side can be numbered. -/
def maxPorts : Nat := 65535

/-- What keeps a node out of every wiring, if anything: a port that no number of edges would
satisfy, or more ports than can be numbered. -/
def fault (node : Node) : Option NodeFault :=
  match node.ports.find? (·.cardinality.isEmpty) with
  | some port => some (.emptyRange node.name port.name)
  | none =>
      if (node.sidePorts .input).length > maxPorts ∨ (node.sidePorts .output).length > maxPorts
      then some (.tooManyPorts node.name)
      else none

def ofNode (node : Node) : Slot :=
  ⟨node, (node.sidePorts .input).map fun _ => [], (node.sidePorts .output).map fun _ => []⟩

def ports (s : Slot) (side : Side) : List PortSpec :=
  s.node.sidePorts side

/-- The edges of one side, per port. -/
def edges (s : Slot) : Side → List (List EdgeId)
  | .input => s.inEdges
  | .output => s.outEdges

def port? (s : Slot) (side : Side) (index : Nat) : Option PortSpec :=
  (s.ports side)[index]?

def portEdges (s : Slot) (side : Side) (index : Nat) : List EdgeId :=
  (s.edges side)[index]?.getD []

/-- The edges that arrive, port by port. -/
def inward (s : Slot) : List EdgeId :=
  s.inEdges.flatten

/-- The edges that leave, port by port. -/
def outward (s : Slot) : List EdgeId :=
  s.outEdges.flatten

/-- How many edges are attached to the node. -/
def connectionCount (s : Slot) : Nat :=
  s.inward.length + s.outward.length

def attach (s : Slot) (side : Side) (index : Nat) (edge : EdgeId) : Slot :=
  match side with
  | .input => { s with inEdges := s.inEdges.modify index (· ++ [edge]) }
  | .output => { s with outEdges := s.outEdges.modify index (· ++ [edge]) }

end Slot

/-- Nodes and edges, each by its number. -/
structure Wiring where
  slots : Array Slot
  edges : Array Edge

namespace Wiring

def empty : Wiring := ⟨#[], #[]⟩

instance : Inhabited Wiring := ⟨empty⟩

def slot? (w : Wiring) (n : NodeId) : Option Slot :=
  w.slots[n.index]?

def edge? (w : Wiring) (e : EdgeId) : Option Edge :=
  w.edges[e.index]?

/-- The numbers of the nodes, ascending. -/
def nodeIds (w : Wiring) : List NodeId :=
  (List.range w.slots.size).map NodeId.mk

/-- The numbers of the edges, ascending. -/
def edgeIds (w : Wiring) : List EdgeId :=
  (List.range w.edges.size).map EdgeId.mk

/-- How many keys there are: two per node and one per edge. -/
def keyCount (w : Wiring) : Nat :=
  2 * w.slots.size + w.edges.size

/-- How many edges are attached to a port; none to a port that does not exist. -/
def connectionCount (w : Wiring) (port : Port) : Nat :=
  match w.slot? port.node with
  | some slot => (slot.portEdges port.side port.index).length
  | none => 0

def addSlot (w : Wiring) (slot : Slot) : Wiring :=
  { w with slots := w.slots.push slot }

def attach (w : Wiring) (port : Port) (edge : EdgeId) : Wiring :=
  { w with slots := w.slots.modify port.node.index (·.attach port.side port.index edge) }

/-- Add an edge and attach it to both of its ports. -/
def addEdge (w : Wiring) (edge : Edge) : Wiring :=
  let attached := (w.attach edge.output edge.id).attach edge.input edge.id
  { attached with edges := attached.edges.push edge }

/-- The downward values of the nodes from which edges come. -/
def sources (w : Wiring) (edges : List EdgeId) : List FlowKey :=
  edges.filterMap fun e => (w.edge? e).map fun edge => .down edge.output.node

/-- The upward values of the nodes to which edges go. -/
def sinks (w : Wiring) (edges : List EdgeId) : List FlowKey :=
  edges.filterMap fun e => (w.edge? e).map fun edge => .up edge.input.node

/-- The keys that the downward values of a node need. -/
def downDependencies (w : Wiring) (slot : Slot) : List FlowKey :=
  let flow := slot.node.flow
  (if flow.downReadsInward then
    if flow.downReadsResolved then slot.inward.map .edge else w.sources slot.inward
  else []) ++
  (if flow.downReadsOutwardUp then w.sinks slot.outward else [])

/-- The keys that the upward values of a node need. -/
def upDependencies (w : Wiring) (slot : Slot) : List FlowKey :=
  let flow := slot.node.flow
  (if flow.upReadsOutward then
    if flow.upReadsResolved then slot.outward.map .edge else w.sinks slot.outward
  else []) ++
  (if flow.upReadsInwardDown then w.sources slot.inward else [])

/-- The keys that must be resolved before a key can be evaluated, in order of ports and binding. -/
def dependencies (w : Wiring) : FlowKey → List FlowKey
  | .edge e =>
      match w.edge? e with
      | some edge => [.down edge.output.node, .up edge.input.node]
      | none => []
  | .down n =>
      match w.slot? n with
      | some slot => w.downDependencies slot
      | none => []
  | .up n =>
      match w.slot? n with
      | some slot => w.upDependencies slot
      | none => []

/-- The edge to which a failure at a key is attributed: the edge itself, the first edge that leaves
a node whose downward values fail, the first that arrives at one whose upward values fail. -/
def locate (w : Wiring) : FlowKey → Option EdgeId
  | .edge e => some e
  | .down n => (w.slot? n).bind fun slot => slot.outward.head?
  | .up n => (w.slot? n).bind fun slot => slot.inward.head?

end Wiring

end Negotiation
