import Negotiation.Merge

/-!
Adapters: what happens to a parameter as it crosses an edge.
-/

namespace Negotiation

/-- A function from parameters to parameters that may refuse. -/
abbrev Transform := Parameter → Except Reason Parameter

def Transform.setField (name : String) (value : Value) : Transform :=
  fun p => .ok (p.insert name value)

/-- Scale the number in one field by `num / den`.  The field must settle to a number whose
product with `num` fits into 64 bits and is a multiple of `den`. -/
def Transform.scaleField (name : String) (num den : UInt64) : Transform := fun p =>
  match p.get? name with
  | none => .error (.missingField name)
  | some value =>
      if value.kind ≠ .number then .error (.notNumeric name)
      else match value.toNumber? with
        | none => .error (.emptyField name value)
        | some n =>
            let product := n.toNat * num.toNat
            if product < UInt64.size ∧ den ≠ 0 ∧ product % den.toNat = 0 then
              .ok (p.insert name (.num (.ofNat (product / den.toNat))))
            else .error (.unscalable name n num den)

/-- What an edge does to the parameters that cross it, per direction; a direction without a
transform passes parameters unchanged. -/
structure Adapter where
  down : Option Transform
  up : Option Transform

namespace Adapter

def identity : Adapter := ⟨none, none⟩

instance : Inhabited Adapter := ⟨identity⟩

/-- Whether the adapter has no transform at all. -/
def isIdentity (a : Adapter) : Bool :=
  a.down.isNone && a.up.isNone

/-- The transform of one direction. -/
def transform? (a : Adapter) : Direction → Option Transform
  | .down => a.down
  | .up => a.up

/-- An adapter that sets one field of every parameter that travels in one direction. -/
def setField (direction : Direction) (name : String) (value : Value) : Adapter :=
  match direction with
  | .down => ⟨some (.setField name value), none⟩
  | .up => ⟨none, some (.setField name value)⟩

/-- What becomes of a parameter that crosses the edge in one direction. -/
def apply (a : Adapter) (direction : Direction) (p : Parameter) : Except Reason Parameter :=
  match a.transform? direction with
  | some transform => transform p
  | none => .ok p

/-- Which directions have a transform, as a text for inspection. -/
def inspect (a : Adapter) : String :=
  "EdgeAdapter \x7b down: " ++ toString a.down.isSome ++ ", up: " ++ toString a.up.isSome ++
    " \x7d"

@[simp] theorem apply_identity (direction : Direction) (p : Parameter) :
    identity.apply direction p = .ok p := by
  cases direction <;> rfl

end Adapter

end Negotiation
