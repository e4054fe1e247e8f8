/-!
Numbers as text: decimal, and lower-case hexadecimal, without leading zeros; and the values of
hexadecimal digits of either case.
-/

namespace Negotiation.Text

def decimal (n : Nat) : String :=
  String.ofList (Nat.toDigits 10 n)

/-- Lower-case hexadecimal digits. -/
def hexadecimal (n : Nat) : String :=
  String.ofList (Nat.toDigits 16 n)

def hexDigit? (c : Char) : Option Nat :=
  if '0' ≤ c ∧ c ≤ '9' then some (c.toNat - 48)
  else if 'a' ≤ c ∧ c ≤ 'f' then some (c.toNat - 87)
  else if 'A' ≤ c ∧ c ≤ 'F' then some (c.toNat - 55)
  else none

/-- The items one after another with a separator between each two. -/
def joined (separator : String) (items : List String) : String :=
  separator.intercalate items

end Negotiation.Text
