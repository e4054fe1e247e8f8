import Negotiation.BoundGraph
import Negotiation.FlowKey
import Negotiation.Json.Reader
import Negotiation.Json.Writer
import Negotiation.Protocol
import Negotiation.Settings

/-!
Stored records: the JSON form of values, parameters and what surrounds them.

Each type has a `toJson` and an `ofJson?`.  A record is written as an object with its fields in a
fixed order.  It is read from an object in which each field stands once, in any order, beside
fields of other names, or from an array of the fields in order.  A choice is written as its name,
a value as an object whose only member is named for the form of the value.  Nothing is put into
normal form.
-/

namespace Negotiation

namespace Json

/-- The number that digits stand for. -/
def digitsValue (digits : List Char) : Nat :=
  digits.foldl (fun n c => 10 * n + (c.toNat - 48)) 0

/-- A natural number below a bound. -/
def natBelow? (bound : Nat) : Json → Option Nat
  | number written =>
      let digits := written.toList
      if digits.all Char.isDigit ∧ digitsValue digits < bound then some (digitsValue digits)
      else none
  | _ => none

/-- A number of 64 bits. -/
def word? (j : Json) : Option UInt64 :=
  (j.natBelow? UInt64.size).map UInt64.ofNat

def bool? : Json → Option Bool
  | bool b => some b
  | _ => none

def string? : Json → Option String
  | text (.whole s) => some s
  | _ => none

def items? : Json → Option (List Json)
  | array items => some items
  | _ => none

/-- The members of an object, where every name is a sequence of characters. -/
def members? : Json → Option (List (String × Json))
  | object members =>
      members.mapM fun
        | (.whole name, value) => some (name, value)
        | (.broken _, _) => none
  | _ => none

/-- The only value of a name, or a stand-in if there is none. -/
def member? (members : List (String × Json)) (name : String) (absent : Option Json) :
    Option Json :=
  match members.filter fun member => member.1 = name with
  | [] => absent
  | [(_, value)] => some value
  | _ => none

/-- The fields of a record, given by name and with what stands in for an absent one: by name from
an object, or by position from an array of all of them. -/
def fields? (names : List (String × Option Json)) : Json → Option (List Json)
  | array items => if items.length = names.length then some items else none
  | j => do
      let members ← j.members?
      names.mapM fun (name, absent) => member? members name absent

/-- A choice by name: the name, or an object with the name and nothing else. -/
def choice? : Json → Option String
  | text (.whole name) => some name
  | object [(.whole name, .null)] => some name
  | _ => none

/-- The first of some choices that has the given name. -/
def oneOf? {α : Type} (name : α → String) (choices : List α) (j : Json) : Option α := do
  let found ← j.choice?
  choices.find? fun choice => name choice = found

end Json

namespace Kind

def toJson (k : Kind) : Json := .ofString k.name

def ofJson? : Json → Option Kind :=
  Json.oneOf? Kind.name [.number, .symbol, .flag, .address]

end Kind

namespace Direction

def toJson (d : Direction) : Json := .ofString d.name

def ofJson? : Json → Option Direction :=
  Json.oneOf? Direction.name [.down, .up]

end Direction

namespace Side

def toJson (s : Side) : Json := .ofString s.name

def ofJson? : Json → Option Side :=
  Json.oneOf? Side.name [.input, .output]

end Side

namespace OrphanRule

def toJson (r : OrphanRule) : Json := .ofString r.name

def ofJson? : Json → Option OrphanRule :=
  Json.oneOf? OrphanRule.name [.error, .warn]

end OrphanRule

namespace Window

/-- A window as a record of base and size. -/
def toJson (w : Window) : Json :=
  .ofMembers [("base", .ofNat w.base.toNat), ("size", .ofNat w.size.toNat)]

def ofJson? (j : Json) : Option Window := do
  match ← j.fields? [("base", none), ("size", none)] with
  | [base, size] => return ⟨← base.word?, ← size.word?⟩
  | _ => none

end Window

namespace WindowSet

/-- A window set as the array of its windows. -/
def toJson (s : WindowSet) : Json :=
  .array (s.windows.map Window.toJson)

/-- Read a window set as it is. -/
def ofJson? (j : Json) : Option WindowSet := do
  return ⟨← (← j.items?).mapM Window.ofJson?⟩

end WindowSet

namespace Value

/-- A value as an object with one member. -/
def toJson : Value → Json
  | num n => .ofMembers [("num", .ofNat n.toNat)]
  | oneOf set => .ofMembers [("one_of", .array (set.members.map fun n => .ofNat n.toNat))]
  | span lo hi =>
      .ofMembers [("span", .ofMembers [("lo", .ofNat lo.toNat), ("hi", .ofNat hi.toNat)])]
  | sym s => .ofMembers [("sym", .ofString s)]
  | flag b => .ofMembers [("flag", .bool b)]
  | addr set => .ofMembers [("addr", set.toJson)]

def spanOfJson? (j : Json) : Option Value := do
  match ← j.fields? [("lo", none), ("hi", none)] with
  | [lo, hi] => return span (← lo.word?) (← hi.word?)
  | _ => none

/-- Read the content of a value whose form is given by name. -/
def ofMember? (name : String) (content : Json) : Option Value :=
  if name = "num" then content.word?.map num
  else if name = "one_of" then do
    return oneOf (.ofList (← (← content.items?).mapM Json.word?))
  else if name = "span" then spanOfJson? content
  else if name = "sym" then content.string?.map sym
  else if name = "flag" then content.bool?.map flag
  else if name = "addr" then (WindowSet.ofJson? content).map addr
  else none

/-- Read a value as it is. -/
def ofJson? : Json → Option Value
  | .object [(.whole name, content)] => ofMember? name content
  | _ => none

end Value

namespace Fields

/-- A record of fields as an object, ascending by name. -/
def toJsonWith {α : Type} (field : α → Json) (p : Fields α) : Json :=
  .ofMembers (p.entries.map fun entry => (entry.1, field entry.2))

/-- Read a record of fields; of two fields of one name the later counts. -/
def ofJsonWith? {α : Type} (field : Json → Option α) (j : Json) : Option (Fields α) := do
  let members ← j.members?
  let entries ← members.mapM fun (name, value) => (field value).map fun v => (name, v)
  return .ofList entries

end Fields

def Parameter.toJson (p : Parameter) : Json :=
  Fields.toJsonWith Value.toJson p

def Parameter.ofJson? (j : Json) : Option Parameter :=
  Fields.ofJsonWith? Value.ofJson? j

def Schema.toJson (s : Schema) : Json :=
  Fields.toJsonWith Kind.toJson s

def Schema.ofJson? (j : Json) : Option Schema :=
  Fields.ofJsonWith? Kind.ofJson? j

namespace Cardinality

/-- A cardinality as a record; without a maximum there stands null. -/
def toJson (c : Cardinality) : Json :=
  .ofMembers [("min", .ofNat c.min), ("max", match c.max with
    | some max => .ofNat max
    | none => .null)]

def maxOfJson? : Json → Option (Option Nat)
  | .null => some none
  | j => (j.natBelow? UInt64.size).map some

/-- Read a cardinality; an absent maximum is none. -/
def ofJson? (j : Json) : Option Cardinality := do
  match ← j.fields? [("min", none), ("max", some .null)] with
  | [min, max] => return ⟨← min.natBelow? UInt64.size, ← maxOfJson? max⟩
  | _ => none

end Cardinality

namespace Signature

def toJson (s : Signature) : Json :=
  .ofMembers [("name", .ofString s.name), ("down", s.down.toJson), ("up", s.up.toJson)]

def ofJson? (j : Json) : Option Signature := do
  match ← j.fields? [("name", none), ("down", none), ("up", none)] with
  | [name, down, up] => return ⟨← name.string?, ← Schema.ofJson? down, ← Schema.ofJson? up⟩
  | _ => none

end Signature

/-- A node as its number. -/
def NodeId.toJson (n : NodeId) : Json := .ofNat n.index

/-- Read a node number of 32 bits. -/
def NodeId.ofJson? (j : Json) : Option NodeId :=
  (j.natBelow? UInt32.size).map NodeId.mk

/-- An edge as its number. -/
def EdgeId.toJson (e : EdgeId) : Json := .ofNat e.index

/-- Read an edge number of 32 bits. -/
def EdgeId.ofJson? (j : Json) : Option EdgeId :=
  (j.natBelow? UInt32.size).map EdgeId.mk

namespace Port

def toJson (p : Port) : Json :=
  .ofMembers [("node", p.node.toJson), ("direction", p.side.toJson), ("index", .ofNat p.index)]

/-- Read a port, with an index of 16 bits. -/
def ofJson? (j : Json) : Option Port := do
  match ← j.fields? [("node", none), ("direction", none), ("index", none)] with
  | [node, side, index] =>
      return ⟨← NodeId.ofJson? node, ← Side.ofJson? side, ← index.natBelow? UInt16.size⟩
  | _ => none

end Port

/-- A key as an object whose only member is named for the sort of the key. -/
def FlowKey.toJson : FlowKey → Json
  | .down n => .ofMembers [("Down", n.toJson)]
  | .up n => .ofMembers [("Up", n.toJson)]
  | .edge e => .ofMembers [("Edge", e.toJson)]

namespace Settings

/-- The fields of settings, by name. -/
def members (s : Settings) : List (String × Json) :=
  [("implicit_roots", .bool s.implicitRoots), ("orphans", s.orphans.toJson),
    ("strict_reachability", .bool s.strictReachability),
    ("trace_evaluations", .bool s.traceEvaluations)]

def toJson (s : Settings) : Json :=
  .ofMembers s.members

/-- Settings from their fields in order. -/
def ofFields? : List Json → Option Settings
  | [roots, orphans, strict, trace] => do
      return ⟨← roots.bool?, ← OrphanRule.ofJson? orphans, ← strict.bool?, ← trace.bool?⟩
  | _ => none

/-- Read settings; an absent field has its usual value, and an array may end early. -/
def ofJson? (j : Json) : Option Settings := do
  let usual := (default : Settings).members
  match j with
  | .array items => ofFields? (items ++ (usual.drop items.length).map Prod.snd)
  | j => ofFields? (← j.fields? (usual.map fun member => (member.1, some member.2)))

end Settings

def BoundEdge.toJson (e : BoundEdge) : Json :=
  .ofMembers [("id", e.id.toJson), ("output", e.output.toJson), ("input", e.input.toJson),
    ("protocol", .ofString e.protocol), ("downward", e.downward.toJson),
    ("upward", e.upward.toJson), ("resolved", e.resolved.toJson)]

def BoundNode.toJson (n : BoundNode) : Json :=
  .ofMembers [("id", n.id.toJson), ("name", .ofString n.name),
    ("inward", .array (n.inward.map EdgeId.toJson)),
    ("outward", .array (n.outward.map EdgeId.toJson))]

def BoundGraph.toJson (g : BoundGraph) : Json :=
  .ofMembers [("nodes", .array (g.nodes.map BoundNode.toJson)),
    ("edges", .array (g.edges.map BoundEdge.toJson))]

end Negotiation
