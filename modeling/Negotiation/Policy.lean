/-!
The ready-made ways to merge two parameters.
-/

namespace Negotiation

/-- How two parameters become one.  `intersect` settles what satisfies both; `maximum` and
`minimum` take the larger or smaller number of each numeric field, all else must agree;
`mustEqual` wants both sides to settle to the same record. -/
inductive Policy where
  | intersect
  | maximum
  | minimum
  | mustEqual
deriving DecidableEq

instance : Inhabited Policy := ⟨.intersect⟩

def Policy.text : Policy → String
  | .intersect => "intersect"
  | .maximum => "maximum"
  | .minimum => "minimum"
  | .mustEqual => "must-equal"

end Negotiation
