import Negotiation.Graph.Basic

/-!
Building a graph: nodes, roots, single bindings and groups.

Every request is checked as a whole before anything is recorded; a refused request leaves nodes,
edges and roots as they are.  A group joins one port to many through a nexus node that is added for
it.
-/

namespace Negotiation

/-- A request to join one port to many. -/
structure FanGroup where
  mode : GroupMode
  /-- The port on the single side. -/
  single : Port
  /-- The ports on the many side. -/
  many : List Port
  policy : Policy
  /-- For the edges that lead to the nexus. -/
  pre : Adapter
  /-- For the edges that leave the nexus. -/
  post : Adapter

namespace GroupMode

/-- The side of the single port of a group. -/
def singleSide : GroupMode → Side
  | .fanOut => .output
  | .fanIn => .input

def ending : GroupMode → String
  | .fanOut => "-fanout"
  | .fanIn => "-fanin"

/-- The output and the input of a binding between the single port and another port. -/
def oriented (mode : GroupMode) (single other : Port) : Port × Port :=
  match mode with
  | .fanOut => (single, other)
  | .fanIn => (other, single)

end GroupMode

/-- What a group consists of once it is bound. -/
structure BoundGroup where
  nexus : NodeId
  /-- The edge on the single side. -/
  trunk : EdgeId
  /-- The edges on the many side, in the order of the ports. -/
  branches : List EdgeId
deriving DecidableEq

namespace Graph

/-- Requests that change the wiring are refused once the graph is sealed. -/
def ensureOpen (g : Graph) : Except GraphError Unit :=
  if g.isSealed then .error .sealed else .ok ()

/-- What keeps two declared ports from being bound to one another, if anything. -/
def obstacle (output input : Port) (outputSpec inputSpec : PortSpec) : Option Obstacle :=
  let ours := outputSpec.protocol
  let theirs := inputSpec.protocol
  if output.side ≠ .output then some (.wrongSide output .output)
  else if input.side ≠ .input then some (.wrongSide input .input)
  else if output.node = input.node then some .sameNode
  else if ours.name ≠ theirs.name then some (.otherProtocol ours.name theirs.name)
  else if !ours.isCompatible theirs then some (.otherSchemas ours.name)
  else if !ours.settlesLike theirs then some (.otherPolicy ours.name)
  else none

/-- Two ports can be bound to one another: both exist, they face the right way, belong to different
nodes, and their protocols agree. -/
def checkPair (g : Graph) (output input : Port) : Except GraphError Unit := do
  let outputSpec ← g.portSpec output
  let inputSpec ← g.portSpec input
  match obstacle output input outputSpec inputSpec with
  | some found => .error (.capability output input found)
  | none => .ok ()

/-- A port takes another edge, on top of `extra` edges that the same request brings. -/
def checkCapacity (g : Graph) (port : Port) (extra : Nat) : Except GraphError Unit := do
  let spec ← g.portSpec port
  let count := g.wiring.connectionCount port + extra
  if spec.cardinality.isFull count then .error (.cardinality port count spec.cardinality)
  else .ok ()

/-- A single binding can be made; its edge has the protocol of the output. -/
def checkBinding (g : Graph) (output input : Port) : Except GraphError Protocol := do
  g.checkPair output input
  g.checkCapacity output 0
  g.checkCapacity input 0
  return (← g.portSpec output).protocol

def pushEdge (g : Graph) (output input : Port) (protocol : Protocol) (adapter : Adapter)
    (policy : Option Policy) : EdgeId × Graph :=
  let id : EdgeId := ⟨g.wiring.edges.size⟩
  let grown := { g with wiring := g.wiring.addEdge ⟨id, output, input, protocol, adapter, policy⟩ }
  (id, grown.note (.edgeBound output input id protocol.name))

def pushNode (g : Graph) (node : Node) : NodeId × Graph :=
  let id : NodeId := ⟨g.wiring.slots.size⟩
  let grown := { g with wiring := g.wiring.addSlot (.ofNode node) }
  (id, grown.note (.nodeAdded id node.name (node.sidePorts .input).length
    (node.sidePorts .output).length))

/-- Add a node to an open graph. -/
def addNode (g : Graph) (node : Node) : Except GraphError NodeId × Graph :=
  match g.ensureOpen with
  | .error e => (.error e, g)
  | .ok () =>
      match Slot.fault node with
      | some fault => (.error (.invalidNode fault), g)
      | none => (g.pushNode node).map .ok id

def markRoot (g : Graph) (n : NodeId) : Except GraphError Unit × Graph :=
  match (do g.ensureOpen; let _ ← g.slot n : Except GraphError Unit) with
  | .error e => (.error e, g)
  | .ok () =>
      if g.markedRoots.contains n then (.ok (), g)
      else (.ok (), { g with markedRoots := g.markedRoots ++ [n] })

/-- Bind an output to an input through an adapter. -/
def bindThrough (g : Graph) (output input : Port) (adapter : Adapter) :
    Except GraphError EdgeId × Graph :=
  match g.ensureOpen with
  | .error e => (.error e, g)
  | .ok () =>
      match g.checkBinding output input with
      | .error e => (.error e, g.note (.bindingRejected e))
      | .ok protocol => (g.pushEdge output input protocol adapter none).map .ok id

def bind (g : Graph) (output input : Port) : Except GraphError EdgeId × Graph :=
  g.bindThrough output input .identity

/-- The protocol of a group: that of its single port, which must face the right way. -/
def groupProtocol (g : Graph) (group : FanGroup) : Except GraphError Protocol :=
  match group.many with
  | [] => .error (.invalidNode (.noCounterpart group.single))
  | first :: _ => do
      let spec ← g.portSpec group.single
      let wanted := group.mode.singleSide
      if group.single.side ≠ wanted then
        let (output, input) := group.mode.oriented group.single first
        .error (.capability output input (.wrongSide group.single wanted))
      else .ok spec.protocol

/-- The ports of the many side can be bound one after another; a port that is named again finds
the edges that its earlier mentions bring. -/
def checkMany (g : Graph) (group : FanGroup) (earlier : List Port) :
    List Port → Except GraphError Unit
  | [] => .ok ()
  | port :: rest => do
      let (output, input) := group.mode.oriented group.single port
      g.checkPair output input
      g.checkCapacity port (earlier.count port)
      g.checkMany group (port :: earlier) rest

/-- A group can be bound; its edges have the protocol of its single port. -/
def checkGroup (g : Graph) (group : FanGroup) : Except GraphError Protocol := do
  let protocol ← g.groupProtocol group
  g.checkCapacity group.single 0
  g.checkMany group [] group.many
  return protocol

/-- The node that joins the edges of a group. -/
def groupNexus (g : Graph) (group : FanGroup) (protocol : Protocol) : Node :=
  .nexus ((g.nodeName? group.single.node).getD "" ++ group.mode.ending) group.mode protocol
    group.many.length group.policy

/-- Add the edge between the single port of a group and its nexus. -/
def pushTrunk (g : Graph) (group : FanGroup) (protocol : Protocol) (nexus : NodeId) :
    EdgeId × Graph :=
  match group.mode with
  | .fanOut => g.pushEdge group.single (nexus.input 0) protocol group.pre none
  | .fanIn => g.pushEdge (nexus.output 0) group.single protocol group.post none

/-- Add the edge between the nexus of a group and one port of its many side. -/
def pushBranch (g : Graph) (group : FanGroup) (protocol : Protocol) (nexus : NodeId) (port : Port) :
    EdgeId × Graph :=
  match group.mode with
  | .fanOut => g.pushEdge (nexus.output 0) port protocol group.post (some group.policy)
  | .fanIn => g.pushEdge port (nexus.input 0) protocol group.pre (some group.policy)

/-- Add the edges between the nexus of a group and the ports of its many side. -/
def pushBranches (g : Graph) (group : FanGroup) (protocol : Protocol) (nexus : NodeId) :
    List Port → List EdgeId × Graph
  | [] => ([], g)
  | port :: rest =>
      let (edge, g) := g.pushBranch group protocol nexus port
      let (edges, g) := g.pushBranches group protocol nexus rest
      (edge :: edges, g)

/-- Add the nexus and the edges of a group, edges in the direction in which they lead. -/
def pushGroup (g : Graph) (group : FanGroup) (protocol : Protocol) : BoundGroup × Graph :=
  let (nexus, g) := g.pushNode (g.groupNexus group protocol)
  match group.mode with
  | .fanOut =>
      let (trunk, g) := g.pushTrunk group protocol nexus
      let (branches, g) := g.pushBranches group protocol nexus group.many
      (⟨nexus, trunk, branches⟩, g)
  | .fanIn =>
      let (branches, g) := g.pushBranches group protocol nexus group.many
      let (trunk, g) := g.pushTrunk group protocol nexus
      (⟨nexus, trunk, branches⟩, g)

def bindGroup (g : Graph) (group : FanGroup) : Except GraphError BoundGroup × Graph :=
  match g.ensureOpen with
  | .error e => (.error e, g)
  | .ok () =>
      match g.checkGroup group with
      | .error e => (.error e, g.note (.groupRejected e))
      | .ok protocol => (g.pushGroup group protocol).map .ok id

end Graph

end Negotiation
