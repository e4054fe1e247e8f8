import Negotiation.Text.Digits
import Negotiation.Text.Shapeless

/-!
Quoted text for messages.

A quoted text stands between double quotes.  Inside, a backslash introduces the characters that
could not be told apart otherwise: the quote, the backslash, the common controls by a letter, and
every character without a shape of its own by its code point.
-/

namespace Negotiation.Text

/-- How one character is written in quoted text. -/
def quotedChar (c : Char) : String :=
  if c = '\x00' then "\\0"
  else if c = '\t' then "\\t"
  else if c = '\n' then "\\n"
  else if c = '\r' then "\\r"
  else if c = '\\' then "\\\\"
  else if c = '\x22' then "\\\""
  else if isShapeless c then "\\u\x7b" ++ hexadecimal c.toNat ++ "\x7d"
  else String.singleton c

/-- A text in quotes. -/
def quoted (text : String) : String :=
  "\"" ++ String.join (text.toList.map quotedChar) ++ "\""

end Negotiation.Text
