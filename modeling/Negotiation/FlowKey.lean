import Negotiation.Port

/-!
Flow keys: the quantities that a negotiation computes.
-/

namespace Negotiation

/-- What a negotiation computes: the values a node emits downward, one per output; the values it
emits upward, one per input; the settled parameter of an edge. -/
inductive FlowKey where
  | down (node : NodeId)
  | up (node : NodeId)
  | edge (edge : EdgeId)
deriving DecidableEq, Inhabited

namespace FlowKey

/-- The node whose values a key stands for. -/
def node? : FlowKey → Option NodeId
  | down n | up n => some n
  | edge _ => none

def text : FlowKey → String
  | down n => "down(" ++ n.text ++ ")"
  | up n => "up(" ++ n.text ++ ")"
  | edge e => "edge(" ++ e.text ++ ")"

end FlowKey

/-- How far the computation of a key has come. -/
inductive Progress where
  | unresolved
  | resolving
  | resolved
  | failed
deriving DecidableEq, Inhabited

namespace Progress

def text : Progress → String
  | unresolved => "unresolved"
  | resolving => "resolving"
  | resolved => "resolved"
  | failed => "failed"

def name : Progress → String
  | unresolved => "Unresolved"
  | resolving => "Resolving"
  | resolved => "Resolved"
  | failed => "Failed"

end Progress

end Negotiation
