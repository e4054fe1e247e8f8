import Negotiation.Cardinality
import Negotiation.Merge
import Negotiation.Port

/-!
Protocols: what flows along an edge, and how the two directions meet.

Two ports may be bound to one another if their protocols have the same signature, merge alike and
show the same to an unconnected port.
-/

namespace Negotiation

/-- The part of a protocol that can be compared: its name and what flows each way. -/
structure Signature where
  name : String
  down : Schema
  up : Schema
deriving DecidableEq

/-- What a node sees on a port without edges: nothing, a fixed parameter, or the zero parameter of
the schema. -/
inductive Fallback where
  | absent
  | value (p : Parameter)
  | zeroed
deriving DecidableEq

instance : Inhabited Fallback := ⟨.absent⟩

/-- The parameter that a fallback stands for. -/
def Fallback.materialize (fallback : Fallback) (schema : Schema) : Option Parameter :=
  match fallback with
  | .absent => none
  | .value p => some p
  | .zeroed => some (.zeroed schema)

/-- How the downward and the upward parameter of an edge become one: by a policy, or by a function
of the author's.  A function has an identity, by which it is compared. -/
inductive MergeRule where
  | policy (policy : Policy)
  | author (identity : Nat) (run : Parameter → Parameter → Except Reason Parameter)

namespace MergeRule

instance : Inhabited MergeRule := ⟨.policy default⟩

def merge : MergeRule → Parameter → Parameter → Except Reason Parameter
  | policy p => p.merge
  | author _ run => run

/-- The policy, where the rule is one. -/
def policy? : MergeRule → Option Policy
  | policy p => some p
  | author _ _ => none

/-- Whether two rules are the same policy or the same function. -/
def agrees : MergeRule → MergeRule → Bool
  | policy p, policy q => p = q
  | author i _, author j _ => i = j
  | _, _ => false

end MergeRule

/-- The type of an edge. -/
structure Protocol where
  signature : Signature
  merge : MergeRule
  downFallback : Fallback
  upFallback : Fallback

namespace Protocol

def name (p : Protocol) : String :=
  p.signature.name

/-- What flows in a direction. -/
def schema (p : Protocol) : Direction → Schema
  | .down => p.signature.down
  | .up => p.signature.up

/-- What an unconnected port shows in a direction. -/
def fallback (p : Protocol) : Direction → Fallback
  | .down => p.downFallback
  | .up => p.upFallback

/-- The parameter that an unconnected port shows in a direction, if any. -/
def fallbackValue (p : Protocol) (direction : Direction) : Option Parameter :=
  (p.fallback direction).materialize (p.schema direction)

/-- Whether two protocols have the same signature. -/
def isCompatible (p q : Protocol) : Bool :=
  p.signature = q.signature

/-- Whether two protocols merge alike and show the same to unconnected ports. -/
def settlesLike (p q : Protocol) : Bool :=
  p.merge.agrees q.merge && p.downFallback = q.downFallback && p.upFallback = q.upFallback

end Protocol

/-- The declaration of a port of a node. -/
structure PortSpec where
  name : String
  side : Side
  protocol : Protocol
  cardinality : Cardinality

end Negotiation
