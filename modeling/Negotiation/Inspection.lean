import Negotiation.Port
import Negotiation.Protocol
import Negotiation.Text.Quoted

/-!
Inspection: the inner form of values, protocols and numbers as a text for their authors.

A record is written with its name and its fields in order, a choice with its name and content in
parentheses, collections between brackets.
-/

namespace Negotiation

namespace Text

/-- A choice with its content. -/
def wrapped (name content : String) : String :=
  name ++ "(" ++ content ++ ")"

/-- A record with its fields. -/
def recordText (name : String) (fields : List (String × String)) : String :=
  name ++ " \x7b " ++ joined ", " (fields.map fun field => field.1 ++ ": " ++ field.2) ++ " \x7d"

/-- Items between braces. -/
def braced (items : List String) : String :=
  "\x7b" ++ joined ", " items ++ "\x7d"

end Text

def Window.inspect (w : Window) : String :=
  Text.recordText "AddressRange"
    [("base", Text.decimal w.base.toNat), ("size", Text.decimal w.size.toNat)]

def Value.inspect : Value → String
  | num n => Text.wrapped "Num" (Text.decimal n.toNat)
  | oneOf set =>
      Text.wrapped "OneOf" (Text.braced (set.members.map fun n => Text.decimal n.toNat))
  | span lo hi =>
      Text.recordText "Span" [("lo", Text.decimal lo.toNat), ("hi", Text.decimal hi.toNat)]
  | sym s => Text.wrapped "Sym" (Text.quoted s)
  | flag b => Text.wrapped "Flag" (if b then "true" else "false")
  | addr set =>
      Text.wrapped "Addr" (Text.wrapped "AddressSet"
        ("[" ++ Text.joined ", " (set.windows.map Window.inspect) ++ "]"))

def Fields.inspect {α : Type} (field : α → String) (p : Fields α) : String :=
  Text.braced (p.entries.map fun entry => Text.quoted entry.1 ++ ": " ++ field entry.2)

def Schema.inspect (s : Schema) : String :=
  Text.wrapped "Schema" (Fields.inspect Kind.name s)

def Parameter.inspect (p : Parameter) : String :=
  Text.wrapped "Parameter" (Fields.inspect Value.inspect p)

def Signature.inspect (s : Signature) : String :=
  Text.recordText "Signature"
    [("name", Text.quoted s.name), ("down", s.down.inspect), ("up", s.up.inspect)]

def Fallback.inspect : Fallback → String
  | absent => "Absent"
  | value p => Text.wrapped "Value" p.inspect
  | zeroed => "Zeroed"

/-- The inner form of a protocol, without its rule. -/
def Protocol.inspect (p : Protocol) : String :=
  "Protocol \x7b signature: " ++ p.signature.inspect ++ ", down_default: " ++
    p.downFallback.inspect ++ ", up_default: " ++ p.upFallback.inspect ++ ", .. \x7d"

def NodeId.inspect (n : NodeId) : String :=
  Text.wrapped "NodeId" (Text.decimal n.index)

def EdgeId.inspect (e : EdgeId) : String :=
  Text.wrapped "EdgeId" (Text.decimal e.index)

def Port.inspect (p : Port) : String :=
  Text.wrapped "PortRef"
    ("node=" ++ Text.decimal p.node.index ++ ", " ++ p.side.name ++ "[" ++
      Text.decimal p.index ++ "]")

end Negotiation
