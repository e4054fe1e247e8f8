import Negotiation.Cardinality
import Negotiation.FlowKey
import Negotiation.Reason

/-!
What can go wrong while a graph is built and resolved.

Each failure carries its cause; its wording is in its `message`.
-/

namespace Negotiation

/-- Values that a key computes, or needs, do not fit.  The failure is attributed to an edge: the
key itself if it is an edge, otherwise the edge that can get no value because of it. -/
structure Mismatch where
  key : FlowKey
  edge : Option EdgeId
  reason : Reason
deriving DecidableEq

namespace Mismatch

/-- The edge that a failure at a key is attributed to without further knowledge. -/
def edgeOf (key : FlowKey) : Option EdgeId :=
  match key with
  | .edge e => some e
  | _ => none

def ofKey (key : FlowKey) (reason : Reason) : Mismatch :=
  ⟨key, edgeOf key, reason⟩

/-- Attribute a failure to an edge, unless it is attributed already. -/
def onEdge (m : Mismatch) (edge : Option EdgeId) : Mismatch :=
  { m with edge := m.edge.or edge }

/-- The addition to the place of a failure that is not at an edge but attributed to one. -/
def located (m : Mismatch) : String :=
  match m.key, m.edge with
  | .edge _, _ => ""
  | _, none => ""
  | _, some e => " (on " ++ e.text ++ ")"

def message (m : Mismatch) : String :=
  "Parameter mismatch at " ++ m.key.text ++ m.located ++ ": " ++ m.reason.message

end Mismatch

/-- Keys that depend on one another in a circle, in order of dependency: the first key is met again
as the last. -/
structure Cycle where
  chain : List FlowKey
deriving DecidableEq

/-- Place a number in an ascending list, once. -/
def insertIndex (n : Nat) : List Nat → List Nat
  | [] => [n]
  | m :: rest =>
      if n < m then n :: m :: rest else if n = m then m :: rest else m :: insertIndex n rest

namespace Cycle

/-- Whether a key is part of the circle. -/
def involves (c : Cycle) (key : FlowKey) : Bool :=
  c.chain.contains key

/-- The nodes of the circle, ascending and each once. -/
def nodes (c : Cycle) : List NodeId :=
  ((c.chain.filterMap fun key => key.node?.map NodeId.index).foldr insertIndex []).map NodeId.mk

def message (c : Cycle) : String :=
  "Dependency cycle in parameter flow: " ++ Text.joined " -> " (c.chain.map FlowKey.text)

end Cycle

/-- Why a key could not be resolved. -/
inductive ResolveError where
  | mismatch (mismatch : Mismatch)
  | cycle (cycle : Cycle)
deriving DecidableEq

namespace ResolveError

/-- The failure of a key, attributed to an edge where it is a mismatch without one. -/
def onEdge (edge : Option EdgeId) : ResolveError → ResolveError
  | mismatch m => mismatch (m.onEdge edge)
  | cycle c => cycle c

def message : ResolveError → String
  | mismatch m => m.message
  | cycle c => c.message

end ResolveError

/-- Why two ports cannot be bound to one another. -/
inductive Obstacle where
  /-- The words of a caller. -/
  | said (text : String)
  /-- The port is not on the side where one is wanted. -/
  | wrongSide (port : Port) (wanted : Side)
  /-- Both ports belong to one node. -/
  | sameNode
  /-- The protocols have different names. -/
  | otherProtocol (output input : String)
  /-- The protocols share a name but not what flows along them. -/
  | otherSchemas (name : String)
  /-- The protocols merge differently, or show different things to unconnected ports. -/
  | otherPolicy (name : String)
deriving DecidableEq

def Obstacle.message : Obstacle → String
  | said text => text
  | wrongSide port wanted => port.text ++ " is not an " ++ wanted.word ++ " port"
  | sameNode => "a node cannot bind to itself"
  | otherProtocol output input => "protocol '" ++ output ++ "' does not match '" ++ input ++ "'"
  | otherSchemas name =>
      "protocol '" ++ name ++ "' is declared with different parameter schemas"
  | otherPolicy name =>
      "protocol '" ++ name ++ "' is declared with a different merge or default policy"

/-- Why a node, or a group, cannot become part of a graph. -/
inductive NodeFault where
  /-- The words of a caller. -/
  | said (text : String)
  /-- A port takes at most fewer edges than it wants at least. -/
  | emptyRange (node port : String)
  /-- A side of the node has more ports than can be numbered. -/
  | tooManyPorts (node : String)
  /-- A group names no port on its many side. -/
  | noCounterpart (port : Port)
deriving DecidableEq

def NodeFault.message : NodeFault → String
  | said text => text
  | emptyRange node port => node ++ ": port '" ++ port ++ "' has an empty cardinality range"
  | tooManyPorts node => node ++ ": too many ports"
  | noCounterpart port => "group on " ++ port.text ++ " needs at least one counterpart"

/-- Why a request to a graph is refused. -/
inductive GraphError where
  | cardinality (port : Port) (count : Nat) (cardinality : Cardinality)
  | capability (output input : Port) (obstacle : Obstacle)
  | unknownNode (node : NodeId)
  | unknownPort (port : Port)
  | unknownEdge (edge : EdgeId)
  | sealed
  | invalidNode (fault : NodeFault)
  | resolve (error : ResolveError)
deriving DecidableEq

def GraphError.message : GraphError → String
  | cardinality port count allowed =>
      "Cardinality error: " ++ port.text ++ " already has " ++ Text.decimal count ++
        " connection(s), allowed " ++ allowed.text
  | capability output input obstacle =>
      "Capability error: cannot bind " ++ output.text ++ " to " ++ input.text ++ ": " ++
        obstacle.message
  | unknownNode node => "Unknown node " ++ node.text
  | unknownPort port => "Unknown port " ++ port.text
  | unknownEdge edge => "Unknown edge " ++ edge.text
  | sealed => "Graph is sealed: resolution has started"
  | invalidNode fault => "Invalid node: " ++ fault.message
  | resolve error => error.message

end Negotiation
