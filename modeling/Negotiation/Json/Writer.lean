import Negotiation.Json.Basic

/-!
Writing JSON, compactly or with one item per line.

Quotes, backslashes and control characters are escaped, controls by a letter where there is one;
all other characters are written as they are.
-/

namespace Negotiation.Json

/-- The last four hexadecimal digits of a number. -/
def hexFour (n : Nat) : List Char :=
  [(n / 4096) % 16, (n / 256) % 16, (n / 16) % 16, n % 16].map Nat.digitChar

/-- An escape by number. -/
def unitEscape (code : Nat) : List Char :=
  '\\' :: 'u' :: hexFour code

/-- How a character is written inside a text. -/
def escapeChar (c : Char) : List Char :=
  if c = '\x22' then ['\\', '\x22']
  else if c = '\\' then ['\\', '\\']
  else if c = '\x08' then ['\\', 'b']
  else if c = '\x09' then ['\\', 't']
  else if c = '\x0a' then ['\\', 'n']
  else if c = '\x0c' then ['\\', 'f']
  else if c = '\x0d' then ['\\', 'r']
  else if c.toNat < 32 then unitEscape c.toNat
  else [c]

/-- How a piece is written inside a text. -/
def Piece.write : Piece → List Char
  | char c => escapeChar c
  | unit code => unitEscape code

/-- What stands between the quotes of a text. -/
def Content.body : Content → List Char
  | whole s => s.toList.flatMap escapeChar
  | broken pieces => pieces.flatMap Piece.write

/-- A text with its quotes. -/
def Content.write (content : Content) : List Char :=
  '\x22' :: content.body ++ ['\x22']

mutual

/-- A document without any blanks. -/
def write : Json → List Char
  | null => "null".toList
  | bool value => (if value then "true" else "false").toList
  | number written => written.toList
  | text content => content.write
  | array items => '[' :: writeItems items ++ [']']
  | object members => '{' :: writeMembers members ++ ['}']

/-- Items, separated by commas. -/
def writeItems : List Json → List Char
  | [] => []
  | [item] => write item
  | item :: rest => write item ++ ',' :: writeItems rest

def writeMembers : List (Content × Json) → List Char
  | [] => []
  | [(name, value)] => name.write ++ ':' :: write value
  | (name, value) :: rest => name.write ++ ':' :: write value ++ ',' :: writeMembers rest

end

/-- A new line, indented by two blanks per level. -/
def newline (level : Nat) : List Char :=
  '\n' :: List.replicate (2 * level) ' '

mutual

/-- A document with one item per line, at some level of indentation.  What is empty stays on its
line. -/
def writeIndented (level : Nat) : Json → List Char
  | array [] => ['[', ']']
  | array items => '[' :: writeIndentedItems (level + 1) items ++ newline level ++ [']']
  | object [] => ['{', '}']
  | object members => '{' :: writeIndentedMembers (level + 1) members ++ newline level ++ ['}']
  | null => "null".toList
  | bool value => (if value then "true" else "false").toList
  | number written => written.toList
  | text content => content.write

/-- Items, each on a line of its own. -/
def writeIndentedItems (level : Nat) : List Json → List Char
  | [] => []
  | [item] => newline level ++ writeIndented level item
  | item :: rest =>
      newline level ++ writeIndented level item ++ ',' :: writeIndentedItems level rest

/-- Members, each on a line of its own. -/
def writeIndentedMembers (level : Nat) : List (Content × Json) → List Char
  | [] => []
  | [(name, value)] => newline level ++ name.write ++ ':' :: ' ' :: writeIndented level value
  | (name, value) :: rest =>
      newline level ++ name.write ++ ':' :: ' ' :: writeIndented level value ++
        ',' :: writeIndentedMembers level rest

end

def compact (j : Json) : String :=
  String.ofList j.write

/-- The text of a document with one item per line. -/
def indented (j : Json) : String :=
  String.ofList (j.writeIndented 0)

end Negotiation.Json
