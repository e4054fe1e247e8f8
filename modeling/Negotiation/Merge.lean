import Negotiation.Reason

/-!
Checking, settling and merging parameters.

`Schema.check` compares a parameter with its declaration, `Parameter.settle` narrows every field,
`Parameter.intersect` finds what satisfies two parameters, and `Policy.merge` turns the two
parameters that meet on an edge into one.  `Policy.reduce` folds many parameters into one.
-/

namespace Negotiation

/-- Narrow a value to a concrete one. -/
def Value.settle (v : Value) : Except Reason Value :=
  match v.settle? with
  | some settled => .ok settled
  | none => .error (.unsatisfiable v)

/-- Put the name of a field before a refusal. -/
def inField {α : Type} (name : String) : Except Reason α → Except Reason α :=
  Except.mapError (Reason.inField name)

namespace Schema

/-- Why one declared field is not as declared, if it is not. -/
def fieldFault (p : Parameter) (name : String) (kind : Kind) : Option Reason :=
  match p.get? name with
  | none => some (.missingField name)
  | some value =>
      if value.kind ≠ kind then some (.wrongKind name value.kind kind)
      else if value.isUnsatisfiable then some (.emptyField name value)
      else none

/-- Why a parameter does not fit a schema, if it does not: the first declared field in order of
name that is not as declared, or else the first field that is not declared. -/
def fault (schema : Schema) (p : Parameter) : Option Reason :=
  (schema.entries.findSome? fun entry => fieldFault p entry.1 entry.2).or
    ((p.keys.find? fun name => !schema.contains name).map .undeclaredField)

/-- A parameter fits a schema if it has exactly the declared fields, each of the declared kind
and satisfiable. -/
def check (schema : Schema) (p : Parameter) : Except Reason Unit :=
  match schema.fault p with
  | some reason => .error reason
  | none => .ok ()

/-- Whether a parameter fits a schema. -/
def admits (schema : Schema) (p : Parameter) : Bool :=
  (schema.fault p).isNone

end Schema

namespace Parameter

/-- Settle every field; the first that admits no value is the refusal. -/
def settle (p : Parameter) : Except Reason Parameter :=
  Fields.traverse (fun name value => inField name value.settle) p

/-- What becomes of the field `name` of one side where the other side has it too or has not. -/
def meetField (ours : Parameter) (name : String) (theirs : Value) : Except Reason Value :=
  match ours.get? name with
  | none => .ok theirs
  | some value =>
      match value.intersect? theirs with
      | some both => .ok both
      | none => .error (.inField name (.nothingInCommon value theirs))

/-- What satisfies both parameters.  A field of one side only is carried over. -/
def intersect (p q : Parameter) : Except Reason Parameter :=
  Fields.absorb (meetField p) p q

end Parameter

namespace Policy

/-- The value of a field that both sides have: the larger or smaller number under `maximum` and
`minimum`, otherwise the value on which both sides agree. -/
def pick (policy : Policy) (ours theirs : Value) : Except Reason Value := do
  let a ← ours.settle
  let b ← theirs.settle
  match policy, a, b with
  | .maximum, .num x, .num y => .ok (.num (max x y))
  | .minimum, .num x, .num y => .ok (.num (min x y))
  | _, _, _ => if a = b then .ok a else .error (.conflict a b)

/-- The value of the field `name` of the upward side beside the downward side. -/
def pickField (policy : Policy) (down : Parameter) (name : String) (theirs : Value) :
    Except Reason Value :=
  inField name <|
    match down.get? name with
    | none => theirs.settle
    | some ours => policy.pick ours theirs

/-- Settle the downward side, then take in the upward side field by field. -/
def combine (policy : Policy) (down up : Parameter) : Except Reason Parameter := do
  let settled ← down.settle
  Fields.absorb (policy.pickField down) settled up

/-- Merge the downward and the upward parameter that meet on an edge. -/
def merge (policy : Policy) (down up : Parameter) : Except Reason Parameter :=
  match policy with
  | .intersect => do (← down.intersect up).settle
  | .maximum | .minimum => policy.combine down up
  | .mustEqual => do
      let d ← down.settle
      let u ← up.settle
      if d = u then .ok d else .error (.unequal d u)

/-- Fold many parameters into one. -/
def reduce (policy : Policy) : List Parameter → Except Reason Parameter
  | [] => .error .nothingToAggregate
  | first :: rest => do
      let settled ← first.settle
      rest.foldlM policy.merge settled

end Policy

end Negotiation
