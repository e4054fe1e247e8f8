import Negotiation.Direction
import Negotiation.Parameter
import Negotiation.Policy

/-!
Why a value is refused.

Every check on values answers with a `Reason`; its wording is in `Reason.message` and nowhere
else.
-/

namespace Negotiation

/-- Why a value, or a set of values, is refused. -/
inductive Reason where
  /-- The words of a function that the author of a protocol or node supplied. -/
  | said (text : String)
  /-- A constraint has nothing to settle on. -/
  | unsatisfiable (value : Value)
  /-- A refusal that concerns one field. -/
  | inField (name : String) (reason : Reason)
  /-- Nothing satisfies both values. -/
  | nothingInCommon (ours theirs : Value)
  /-- Two settled values differ where they must agree. -/
  | conflict (ours theirs : Value)
  /-- Two settled parameters differ where they must be equal. -/
  | unequal (down up : Parameter)
  /-- There is no value to aggregate. -/
  | nothingToAggregate
  /-- The values on the many side of a group do not aggregate. -/
  | aggregation (policy : Policy) (reason : Reason)
  /-- A declared field is missing. -/
  | missingField (name : String)
  /-- A field has another kind than the declared one. -/
  | wrongKind (name : String) (found expected : Kind)
  /-- A field of the declared kind admits nothing. -/
  | emptyField (name : String) (value : Value)
  /-- A field is not declared. -/
  | undeclaredField (name : String)
  /-- A field that is to be scaled is no number. -/
  | notNumeric (name : String)
  /-- A number cannot be scaled by the given ratio. -/
  | unscalable (name : String) (n num den : UInt64)
  /-- A port of a node has no value where one is read. -/
  | noValue (port : Nat)
  /-- A port of a node has several values where one is read. -/
  | manyValues (port count : Nat)
  /-- The adapter of an edge refuses the value that crosses it. -/
  | adapter (direction : Direction) (reason : Reason)
  /-- The value that crosses an edge does not fit the schema of its protocol. -/
  | illShaped (direction : Direction) (value : Parameter) (reason : Reason)
  /-- A node emits another number of values than it has ports. -/
  | emitted (count : Nat) (direction : Direction) (ports : Nat)
  /-- The value that a node emits on a port does not fit the schema of the port. -/
  | onPort (name : String) (reason : Reason)
  /-- No value was computed for a direction of an edge. -/
  | notComputed (direction : Direction)
  /-- An edge has no settled value yet. -/
  | notResolved
  /-- A failure left no cause behind. -/
  | noRecord
deriving DecidableEq

instance : Inhabited Reason := ⟨.noRecord⟩

namespace Reason

def message : Reason → String
  | said text => text
  | unsatisfiable value => value.text ++ " admits no value"
  | inField name reason => "field '" ++ name ++ "': " ++ reason.message
  | nothingInCommon ours theirs =>
      ours.text ++ " and " ++ theirs.text ++ " have no common value"
  | conflict ours theirs => ours.text ++ " conflicts with " ++ theirs.text
  | unequal down up => down.text ++ " does not equal " ++ up.text
  | nothingToAggregate => "no values to aggregate"
  | aggregation policy reason => policy.text ++ " aggregation failed: " ++ reason.message
  | missingField name => "missing field '" ++ name ++ "'"
  | wrongKind name found expected =>
      "field '" ++ name ++ "' is " ++ found.name ++ ", expected " ++ expected.name
  | emptyField name value => "field '" ++ name ++ "' admits no value: " ++ value.text
  | undeclaredField name => "undeclared field '" ++ name ++ "'"
  | notNumeric name => "field '" ++ name ++ "' is not numeric"
  | unscalable name n num den =>
      "cannot scale " ++ name ++ "=" ++ Text.decimal n.toNat ++ " by " ++
        Text.decimal num.toNat ++ "/" ++ Text.decimal den.toNat
  | noValue port => "port " ++ Text.decimal port ++ " has no value"
  | manyValues port count =>
      "port " ++ Text.decimal port ++ " has " ++ Text.decimal count ++ " values, expected one"
  | adapter direction reason => direction.text ++ " adapter failed: " ++ reason.message
  | illShaped direction value reason =>
      direction.text ++ " value " ++ value.text ++ ": " ++ reason.message
  | emitted count direction ports =>
      "emitted " ++ Text.decimal count ++ " " ++ direction.text ++ " value(s) for " ++
        Text.decimal ports ++ " port(s)"
  | onPort name reason => "port '" ++ name ++ "': " ++ reason.message
  | notComputed direction => "no " ++ direction.text ++ " value was computed"
  | notResolved => "edge was not resolved"
  | noRecord => "failed without a recorded error"

end Reason

end Negotiation
