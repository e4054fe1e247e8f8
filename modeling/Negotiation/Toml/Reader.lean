import Negotiation.Toml.Scalar

/-!
Reading TOML documents: keys, arrays, inline tables, and the lines of a document.

A document is read line by line into `Document`, which decides what each line may still add.
-/

namespace Negotiation.Toml

/-- How deep arrays and inline tables may stand within each other, and how many parts a key may
have. -/
def depthLimit : Nat := 79

/-! ### Keys -/

/-- The characters of a key without quotes. -/
def isBare (c : Char) : Bool :=
  c.isAlphanum || c = '_' || c = '-'

/-- One part of a key, in quotes or without. -/
def readPart (cs : List Char) : Option (String × List Char) :=
  match cs.span isBare with
  | ([], _) => readShortText cs
  | (part, rest) => some (String.ofList part, rest)

/-- A key of at most so many parts with points between them, and the spaces around them. -/
def readKey : Nat → List Char → Option (List String × List Char)
  | 0, _ => none
  | parts + 1, cs =>
      match readPart (skipSpaces cs) with
      | none => none
      | some (part, rest) =>
          match skipSpaces rest with
          | '.' :: rest => (readKey parts rest).map fun (keys, rest) => (part :: keys, rest)
          | rest => some ([part], rest)

/-! ### Values -/

/-- Pass over a comment, up to the end of its line. -/
def skipComment : List Char → List Char
  | '#' :: rest => rest.dropWhile isPlain
  | cs => cs

/-- Pass over spaces, comments and ends of lines. -/
def skipFiller : Nat → List Char → List Char
  | 0, cs => cs
  | fuel + 1, cs =>
      let cs := skipComment (skipSpaces cs)
      match newline? cs with
      | some rest => skipFiller fuel rest
      | none => cs

/-- The items of an array, up to and over its closing bracket; a comma may follow the last. -/
def readItems (readItem : List Char → Option (Toml × List Char)) :
    Nat → List Char → Option (List Toml × List Char)
  | 0, _ => none
  | fuel + 1, cs =>
      match skipFiller cs.length cs with
      | ']' :: rest => some ([], rest)
      | cs =>
          match readItem cs with
          | none => none
          | some (item, rest) =>
              match skipFiller rest.length rest with
              | ']' :: rest => some ([item], rest)
              | ',' :: rest =>
                  (readItems readItem fuel rest).map fun (items, rest) => (item :: items, rest)
              | _ => none

/-- A key, the sign that follows it, and a value. -/
def readPair (readItem : List Char → Option (Toml × List Char)) (cs : List Char) :
    Option ((List String × Toml) × List Char) := do
  let (keys, rest) ← readKey depthLimit cs
  let rest ← readChar '=' rest
  let (value, rest) ← readItem (skipSpaces rest)
  return ((keys, value), rest)

/-- The pairs of an inline table after those that were read, up to and over its closing brace. -/
def readPairs (readItem : List Char → Option (Toml × List Char)) :
    Nat → Entries → List Char → Option (Entries × List Char)
  | 0, _, _ => none
  | fuel + 1, entries, cs =>
      match readPair readItem cs with
      | none => none
      | some ((keys, value), rest) =>
          match addDotted value keys entries with
          | none => none
          | some entries =>
              match skipSpaces rest with
              | '}' :: rest => some (entries, rest)
              | ',' :: rest => readPairs readItem fuel entries rest
              | _ => none

/-- A value in which arrays and inline tables stand at most so deep within each other. -/
def readValue : Nat → List Char → Option (Toml × List Char)
  | _, 't' :: 'r' :: 'u' :: 'e' :: rest => some (boolean true, rest)
  | _, 'f' :: 'a' :: 'l' :: 's' :: 'e' :: rest => some (boolean false, rest)
  | depth + 1, '[' :: rest =>
      (readItems (readValue depth) (rest.length + 1) rest).map fun (items, rest) =>
        (array items, rest)
  | depth + 1, '{' :: rest =>
      match skipSpaces rest with
      | '}' :: rest => some (table .inline [], rest)
      | rest =>
          (readPairs (readValue depth) (rest.length + 1) [] rest).map fun (entries, rest) =>
            (table .inline entries, rest)
  | _, cs =>
      match readText cs with
      | some (body, rest) => some (text body, rest)
      | none => readNumeric cs

/-! ### Documents -/

/-- Pass over the rest of a line on which nothing but a comment stands any more. -/
def endLine? (cs : List Char) : Option (List Char) :=
  match skipComment (skipSpaces cs) with
  | [] => some []
  | cs => newline? cs

/-- A line that adds to a document: a header or a pair. -/
def readLine (d : Document) : List Char → Option (Document × List Char)
  | '[' :: '[' :: rest => do
      let (keys, rest) ← readKey depthLimit rest
      let rest ← readChar ']' (← readChar ']' rest)
      return (← d.nextHeader keys, ← endLine? rest)
  | '[' :: rest => do
      let (keys, rest) ← readKey depthLimit rest
      let rest ← readChar ']' rest
      return (← d.header keys, ← endLine? rest)
  | cs => do
      let ((keys, value), rest) ← readPair (readValue depthLimit) cs
      return (← d.add keys value, ← endLine? rest)

/-- The lines of a document, at most so many. -/
def readLines : Nat → Document → List Char → Option Document
  | 0, _, _ => none
  | lines + 1, d, cs =>
      match skipSpaces cs with
      | [] => some d
      | cs =>
          match endLine? cs with
          | some rest => readLines lines d rest
          | none =>
              match readLine d cs with
              | some (d, rest) => readLines lines d rest
              | none => none

/-- A text without the mark that may stand before all else in it. -/
def dropMark : List Char → List Char
  | '\ufeff' :: rest => rest
  | cs => cs

/-- The entries of the document that a text holds. -/
def parse? (document : String) : Option Entries :=
  let cs := dropMark document.toList
  (readLines (cs.length + 1) .blank cs).map Document.entries

end Negotiation.Toml
