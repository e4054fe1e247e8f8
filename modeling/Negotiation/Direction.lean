/-!
The two directions in which parameters travel along an edge.
-/

namespace Negotiation

/-- Downward runs from the source of an edge to its sink, upward the other way. -/
inductive Direction where
  | down
  | up
deriving DecidableEq, Inhabited

namespace Direction

def text : Direction → String
  | down => "downward"
  | up => "upward"

/-- The name of a direction in stored records. -/
def name : Direction → String
  | down => "Down"
  | up => "Up"

end Direction

end Negotiation
