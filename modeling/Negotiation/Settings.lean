/-!
Settings of a negotiation.
-/

namespace Negotiation

/-- What becomes of an interior node without edges when a graph is frozen. -/
inductive OrphanRule where
  /-- It is a violation. -/
  | error
  /-- It is noted. -/
  | warn
deriving DecidableEq

def OrphanRule.name : OrphanRule → String
  | .error => "error"
  | .warn => "warn"

/-- The choices that a negotiation leaves open. -/
structure Settings where
  /-- Without any root, nodes without inputs are roots. -/
  implicitRoots : Bool := true
  /-- What becomes of interior nodes without edges. -/
  orphans : OrphanRule := .error
  /-- Edges that no root reaches are violations. -/
  strictReachability : Bool := false
  /-- Every evaluation is noted. -/
  traceEvaluations : Bool := false
deriving DecidableEq

instance : Inhabited Settings := ⟨{}⟩

end Negotiation
