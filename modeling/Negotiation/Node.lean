import Negotiation.Adapter
import Negotiation.Protocol

/-!
Nodes: what they read, and what they emit.

A node emits one parameter per output downward and one per input upward.  Which values it reads to
do so is fixed by its `Flow`, so the dependencies between nodes are known before anything is
computed.
-/

namespace Negotiation

/-- Which values a node reads in each direction.  The resolved flags replace the values that the
neighbours emit by the settled parameters of the edges. -/
structure Flow where
  downReadsInward : Bool
  downReadsOutwardUp : Bool
  upReadsOutward : Bool
  upReadsInwardDown : Bool
  downReadsResolved : Bool
  upReadsResolved : Bool
deriving DecidableEq

namespace Flow

/-- Downward from what arrives at the inputs, upward from what arrives at the outputs. -/
def passing : Flow := ⟨true, false, true, false, false, false⟩

instance : Inhabited Flow := ⟨passing⟩

/-- Downward from nothing, upward from what arrives at the outputs. -/
def detachedDownward : Flow := { passing with downReadsInward := false }

/-- From nothing, in both directions. -/
def detached : Flow := ⟨false, false, false, false, false, false⟩

end Flow

/-- How a node counts in reachability and in the search for stray nodes. -/
inductive Role where
  | interior
  | root
  | sinkOnly
deriving DecidableEq, Inhabited

/-- The values that a node reads, per port: those of the direction it computes, and those that flow
against it. -/
structure Readings where
  values : List (List Parameter)
  feedback : List (List Parameter)
deriving DecidableEq

namespace Readings

/-- How many ports have values in the direction that is computed. -/
def portCount (r : Readings) : Nat :=
  r.values.length

/-- The values on a port, in the direction that is computed. -/
def port (r : Readings) (index : Nat) : List Parameter :=
  r.values[index]?.getD []

/-- The values on a port, against the direction that is computed. -/
def against (r : Readings) (index : Nat) : List Parameter :=
  r.feedback[index]?.getD []

/-- The value of a port that has exactly one. -/
def single (r : Readings) (index : Nat) : Except Reason Parameter :=
  match r.port index with
  | [value] => .ok value
  | [] => .error (.noValue index)
  | many => .error (.manyValues index many.length)

end Readings

/-- A group joins one port to many: one source to many sinks, or many sources to one sink. -/
inductive GroupMode where
  | fanOut
  | fanIn
deriving DecidableEq, Inhabited

/-- A node by an author of nodes. -/
structure AuthorNode where
  name : String
  ports : List PortSpec
  flow : Flow
  role : Role
  downward : Readings → Except Reason (List Parameter)
  upward : Readings → Except Reason (List Parameter)

inductive Node where
  /-- Offers a parameter downward. -/
  | source (name : String) (protocol : Protocol) (cardinality : Cardinality) (offer : Parameter)
  /-- Demands a parameter upward. -/
  | sink (name : String) (protocol : Protocol) (cardinality : Cardinality) (demand : Parameter)
  /-- Passes parameters through. -/
  | identity (name : String) (protocol : Protocol)
  /-- Passes parameters through an adapter, from one protocol to another. -/
  | adapter (name : String) (inner outer : Protocol) (adapter : Adapter)
  /-- Stands between two protocols but passes nothing: it offers and demands on its own account. -/
  | detached (name : String) (inner outer : Protocol) (offer demand : Parameter)
  /-- Joins the edges of a group. -/
  | nexus (name : String) (mode : GroupMode) (protocol : Protocol) (branches : Nat)
      (policy : Policy)
  /-- Behaves as its author says. -/
  | author (node : AuthorNode)

namespace Node

def name : Node → String
  | source name .. | sink name .. | identity name .. | adapter name .. | detached name ..
  | nexus name .. => name
  | author node => node.name

/-- The one input and the one output of a node in the middle. -/
def throughPorts (inner : Protocol) (inward : Cardinality) (outer : Protocol)
    (outward : Cardinality) : List PortSpec :=
  [⟨"in", .input, inner, inward⟩, ⟨"out", .output, outer, outward⟩]

/-- The ports of a node, in order of declaration. -/
def ports : Node → List PortSpec
  | source _ protocol cardinality _ => [⟨"out", .output, protocol, cardinality⟩]
  | sink _ protocol cardinality _ => [⟨"in", .input, protocol, cardinality⟩]
  | identity _ protocol => throughPorts protocol (.exactly 1) protocol (.exactly 1)
  | adapter _ inner outer _ => throughPorts inner (.exactly 1) outer (.exactly 1)
  | detached _ inner outer _ _ => throughPorts inner (.exactly 1) outer (.exactly 1)
  | nexus _ .fanOut protocol branches _ =>
      throughPorts protocol (.exactly 1) protocol (.exactly branches)
  | nexus _ .fanIn protocol branches _ =>
      throughPorts protocol (.exactly branches) protocol (.exactly 1)
  | author node => node.ports

/-- The ports of one side, in order of declaration. -/
def sidePorts (node : Node) (side : Side) : List PortSpec :=
  node.ports.filter fun port => port.side = side

/-- What a node reads.  The single side of a nexus is read settled, so that every edge of the many
side sees what was agreed there. -/
def flow : Node → Flow
  | source .. => .detachedDownward
  | detached .. => .detached
  | nexus _ .fanOut .. => { Flow.passing with downReadsResolved := true }
  | nexus _ .fanIn .. => { Flow.passing with upReadsResolved := true }
  | author node => node.flow
  | _ => .passing

/-- How a node counts in reachability. -/
def role : Node → Role
  | source .. => .root
  | sink .. => .sinkOnly
  | author node => node.role
  | _ => .interior

/-- The one value of the many side of a nexus. -/
def aggregate (policy : Policy) (values : List Parameter) : Except Reason Parameter :=
  (policy.reduce values).mapError (.aggregation policy)

/-- What a node emits downward, one parameter per output. -/
def downward (node : Node) (readings : Readings) : Except Reason (List Parameter) :=
  match node with
  | source _ _ _ offer => .ok [offer]
  | sink .. => .ok []
  | identity .. => (readings.single 0).map ([·])
  | adapter _ _ _ crossing => do
      let value ← readings.single 0
      return [← crossing.apply .down value]
  | detached _ _ _ offer _ => .ok [offer]
  | nexus _ .fanOut .. => (readings.single 0).map ([·])
  | nexus _ .fanIn _ _ policy => (aggregate policy (readings.port 0)).map ([·])
  | author node => node.downward readings

/-- What a node emits upward, one parameter per input. -/
def upward (node : Node) (readings : Readings) : Except Reason (List Parameter) :=
  match node with
  | source .. => .ok []
  | sink _ _ _ demand => .ok [demand]
  | identity .. => (readings.single 0).map ([·])
  | adapter _ _ _ crossing => do
      let value ← readings.single 0
      return [← crossing.apply .up value]
  | detached _ _ _ _ demand => .ok [demand]
  | nexus _ .fanOut _ _ policy => (aggregate policy (readings.port 0)).map ([·])
  | nexus _ .fanIn .. => (readings.single 0).map ([·])
  | author node => node.upward readings

end Node

end Negotiation
