import Negotiation.Failure

/-!
Violations: what keeps a graph from being frozen.
-/

namespace Negotiation

/-- A requirement that a graph does not meet. -/
inductive Violation where
  | resolution (error : ResolveError)
  | unresolved (edge : EdgeId) (progress : Progress)
  | cardinality (port : Port) (name : String) (count : Nat) (cardinality : Cardinality)
  | orphan (node : NodeId) (name : String)
  | unreachable (edge : EdgeId)
deriving DecidableEq

namespace Violation

def message : Violation → String
  | resolution error => error.message
  | unresolved edge progress => edge.text ++ " is " ++ progress.text
  | cardinality port name count wanted =>
      port.text ++ " ('" ++ name ++ "') has " ++ Text.decimal count ++
        " connection(s), requires " ++ wanted.text
  | orphan node name => "node " ++ node.text ++ " ('" ++ name ++ "') has no connections"
  | unreachable edge => edge.text ++ " is not reachable from any root"

def cycle? : Violation → Option Cycle
  | resolution (.cycle c) => some c
  | _ => none

def mismatch? : Violation → Option Mismatch
  | resolution (.mismatch m) => some m
  | _ => none

def unresolvedEdge? : Violation → Option EdgeId
  | unresolved e _ => some e
  | _ => none

/-- The wording of all violations of a graph: their number, and one line for each. -/
def summary (violations : List Violation) : String :=
  Text.decimal violations.length ++ " validation error(s)" ++
    String.join (violations.map fun v => "\n  - " ++ v.message)

end Violation

end Negotiation
