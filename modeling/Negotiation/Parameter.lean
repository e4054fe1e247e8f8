import Negotiation.Fields
import Negotiation.Value

/-!
Parameters and schemas.

A parameter is a record of values; a schema is a record of kinds.
-/

namespace Negotiation

/-- A record of named values. -/
abbrev Parameter := Fields Value

/-- The declared kind of each field of a parameter. -/
abbrev Schema := Fields Kind

namespace Parameter

/-- The parameter of a schema in which every field has the zero value of its kind. -/
def zeroed (schema : Schema) : Parameter :=
  Fields.map (fun _ kind => Value.zero kind) schema

/-- The number that a field settles to, if it has one. -/
def number? (p : Parameter) (name : String) : Option UInt64 :=
  (p.get? name).bind Value.toNumber?

/-- Whether no field is left open. -/
def isConcrete (p : Parameter) : Bool :=
  p.values.all Value.isConcrete

def text (p : Parameter) : String :=
  "\x7b" ++ Text.joined ", " (p.entries.map fun entry => entry.1 ++ "=" ++ entry.2.text) ++ "\x7d"

end Parameter

end Negotiation
