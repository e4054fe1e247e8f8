import Negotiation.Text.Digits

/-!
JSON documents.

A number is kept as it is written.  A text that holds half of a surrogate pair stands for no
sequence of characters; such a text is kept by its pieces, so that a reader can pass over it.
-/

namespace Negotiation

/-- A part of a JSON text: a character, or a code unit given by an escape. -/
inductive Json.Piece where
  | char (c : Char)
  | unit (code : Nat)
deriving DecidableEq

/-- The content of a JSON text. -/
inductive Json.Content where
  /-- A sequence of characters. -/
  | whole (text : String)
  /-- Something else, because half of a surrogate pair is missing. -/
  | broken (pieces : List Json.Piece)
deriving DecidableEq

inductive Json where
  | null
  | bool (value : Bool)
  | number (written : String)
  | text (content : Json.Content)
  | array (items : List Json)
  | object (members : List (Json.Content × Json))

namespace Json

instance : Inhabited Json := ⟨null⟩

def ofNat (n : Nat) : Json :=
  number (Text.decimal n)

def ofString (s : String) : Json :=
  text (.whole s)

/-- An object with members in the given order. -/
def ofMembers (members : List (String × Json)) : Json :=
  object (members.map fun member => (.whole member.1, member.2))

end Json

end Negotiation
