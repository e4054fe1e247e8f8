import Negotiation.Json.Basic

/-!
Reading JSON.

Readers take a list of characters and give what they read together with the rest, or nothing where
the text is no JSON.  A whole text is one document between blanks.
-/

namespace Negotiation.Json

/-- The blanks of JSON: space, tab, line feed, carriage return. -/
def isBlank (c : Char) : Bool :=
  c = ' ' || c = '\x09' || c = '\x0a' || c = '\x0d'

/-- Pass over blanks. -/
def skipBlanks (cs : List Char) : List Char :=
  cs.dropWhile isBlank

/-- The number that four hexadecimal digits stand for. -/
def hexFour? (a b c d : Char) : Option Nat := do
  return 4096 * (← Text.hexDigit? a) + 256 * (← Text.hexDigit? b) + 16 * (← Text.hexDigit? c) +
    (← Text.hexDigit? d)

/-- The character that a letter stands for after a backslash. -/
def escaped? (c : Char) : Option Char :=
  if c = '\x22' ∨ c = '\\' ∨ c = '/' then some c
  else if c = 'b' then some '\x08'
  else if c = 'f' then some '\x0c'
  else if c = 'n' then some '\x0a'
  else if c = 'r' then some '\x0d'
  else if c = 't' then some '\x09'
  else none

/-- The pieces of a text, up to and over its closing quote. -/
def readPieces : List Char → Option (List Piece × List Char)
  | [] => none
  | '\x22' :: rest => some ([], rest)
  | '\\' :: 'u' :: a :: b :: c :: d :: rest => do
      let code ← hexFour? a b c d
      let (pieces, rest) ← readPieces rest
      return (.unit code :: pieces, rest)
  | '\\' :: c :: rest => do
      let c ← escaped? c
      let (pieces, rest) ← readPieces rest
      return (.char c :: pieces, rest)
  | c :: rest =>
      if c = '\\' ∨ c.toNat < 32 then none
      else do
        let (pieces, rest) ← readPieces rest
        return (.char c :: pieces, rest)

/-- The first half of a surrogate pair. -/
def isHighHalf (code : Nat) : Bool :=
  0xD800 ≤ code && code < 0xDC00

/-- The second half of a surrogate pair. -/
def isLowHalf (code : Nat) : Bool :=
  0xDC00 ≤ code && code < 0xE000

/-- The characters that pieces stand for: an escape stands for its code point, two halves of a
surrogate pair together for one. -/
def joinPieces : List Piece → Option (List Char)
  | [] => some []
  | .char c :: rest => (joinPieces rest).map (c :: ·)
  | [.unit code] => if isHighHalf code || isLowHalf code then none else some [Char.ofNat code]
  | .unit code :: .char c :: rest =>
      if isHighHalf code || isLowHalf code then none
      else (joinPieces rest).map fun cs => Char.ofNat code :: c :: cs
  | .unit code :: .unit next :: rest =>
      if isLowHalf code then none
      else if isHighHalf code then
        if isLowHalf next then
          (joinPieces rest).map
            (Char.ofNat (0x10000 + (code - 0xD800) * 0x400 + (next - 0xDC00)) :: ·)
        else none
      else (joinPieces (.unit next :: rest)).map (Char.ofNat code :: ·)

/-- The content that pieces make up. -/
def Content.ofPieces (pieces : List Piece) : Content :=
  match joinPieces pieces with
  | some cs => .whole (String.ofList cs)
  | none => .broken pieces

/-- A text, after its opening quote. -/
def readContent (cs : List Char) : Option (Content × List Char) :=
  (readPieces cs).map fun (pieces, rest) => (.ofPieces pieces, rest)

/-- One digit or more. -/
def readDigits (cs : List Char) : Option (List Char × List Char) :=
  match cs.span Char.isDigit with
  | ([], _) => none
  | result => some result

/-- The whole part of a number: zero, or digits that do not start with zero. -/
def readWhole : List Char → Option (List Char × List Char)
  | '0' :: rest => if (rest.head?.any Char.isDigit) then none else some (['0'], rest)
  | cs => readDigits cs

/-- The fraction of a number, if there is one. -/
def readFraction : List Char → Option (List Char × List Char)
  | '.' :: rest => (readDigits rest).map fun (digits, rest) => ('.' :: digits, rest)
  | cs => some ([], cs)

/-- The sign of an exponent, if there is one. -/
def splitSign : List Char → List Char × List Char
  | '+' :: rest => (['+'], rest)
  | '-' :: rest => (['-'], rest)
  | cs => ([], cs)

/-- The exponent of a number, if there is one. -/
def readExponent : List Char → Option (List Char × List Char)
  | [] => some ([], [])
  | c :: rest =>
      if c = 'e' ∨ c = 'E' then
        let (sign, rest) := splitSign rest
        (readDigits rest).map fun (digits, rest) => (c :: sign ++ digits, rest)
      else some ([], c :: rest)

/-- A number without its sign. -/
def readUnsigned (cs : List Char) : Option (List Char × List Char) := do
  let (whole, rest) ← readWhole cs
  let (fraction, rest) ← readFraction rest
  let (exponent, rest) ← readExponent rest
  return (whole ++ fraction ++ exponent, rest)

def readNumber : List Char → Option (List Char × List Char)
  | '-' :: rest => (readUnsigned rest).map fun (written, rest) => ('-' :: written, rest)
  | cs => readUnsigned cs

mutual

/-- A value, by at most so many nested readings. -/
def readValue : Nat → List Char → Option (Json × List Char)
  | 0, _ => none
  | fuel + 1, cs =>
      match skipBlanks cs with
      | 'n' :: 'u' :: 'l' :: 'l' :: rest => some (.null, rest)
      | 't' :: 'r' :: 'u' :: 'e' :: rest => some (.bool true, rest)
      | 'f' :: 'a' :: 'l' :: 's' :: 'e' :: rest => some (.bool false, rest)
      | '\x22' :: rest => (readContent rest).map fun (content, rest) => (.text content, rest)
      | '[' :: rest =>
          match skipBlanks rest with
          | ']' :: rest => some (.array [], rest)
          | rest => (readItems fuel rest).map fun (items, rest) => (.array items, rest)
      | '{' :: rest =>
          match skipBlanks rest with
          | '}' :: rest => some (.object [], rest)
          | rest => (readMembers fuel rest).map fun (members, rest) => (.object members, rest)
      | rest =>
          (readNumber rest).map fun (written, rest) => (.number (String.ofList written), rest)

/-- One item or more, up to and over the closing bracket. -/
def readItems : Nat → List Char → Option (List Json × List Char)
  | 0, _ => none
  | fuel + 1, cs =>
      match readValue fuel cs with
      | none => none
      | some (item, rest) =>
          match skipBlanks rest with
          | ']' :: rest => some ([item], rest)
          | ',' :: rest => (readItems fuel rest).map fun (items, rest) => (item :: items, rest)
          | _ => none

/-- One member or more, up to and over the closing brace. -/
def readMembers : Nat → List Char → Option (List (Content × Json) × List Char)
  | 0, _ => none
  | fuel + 1, cs =>
      match skipBlanks cs with
      | '\x22' :: rest =>
          match readContent rest with
          | none => none
          | some (name, rest) =>
              match skipBlanks rest with
              | ':' :: rest =>
                  match readValue fuel rest with
                  | none => none
                  | some (value, rest) =>
                      match skipBlanks rest with
                      | '}' :: rest => some ([(name, value)], rest)
                      | ',' :: rest =>
                          (readMembers fuel rest).map fun (members, rest) =>
                            ((name, value) :: members, rest)
                      | _ => none
              | _ => none
      | _ => none

end

/-- How many nested readings are enough for so many characters: every other one takes at least
one of them. -/
def depthFor (length : Nat) : Nat :=
  2 * length + 2

/-- The document that a text holds. -/
def parse? (text : String) : Option Json :=
  let cs := text.toList
  match readValue (depthFor cs.length) cs with
  | some (value, rest) => if skipBlanks rest = [] then some value else none
  | none => none

end Negotiation.Json
