import Negotiation.NumberSet
import Negotiation.Window
import Negotiation.Text.Digits

/-!
Values of record fields.

A value is concrete (a number, a symbol, a flag, an address set) or a constraint on numbers that
is still open (one of a set, an interval).  Settling narrows a constraint to the largest number
that it admits; the intersection of two values is what satisfies both.
-/

namespace Negotiation

/-- What a field holds. -/
inductive Kind where
  | number
  | symbol
  | flag
  | address
deriving DecidableEq, Inhabited

def Kind.name : Kind → String
  | .number => "Number"
  | .symbol => "Symbol"
  | .flag => "Flag"
  | .address => "Address"

/-- The value of one field. -/
inductive Value where
  | num (n : UInt64)
  | oneOf (set : NumberSet)
  | span (lo hi : UInt64)
  | sym (text : String)
  | flag (set : Bool)
  | addr (set : WindowSet)
deriving DecidableEq, Inhabited

namespace Value

/-- One of the members of a set; a set of one member is that number. -/
def ofSet (set : NumberSet) : Value :=
  match set.members with
  | [n] => num n
  | _ => oneOf set

/-- A number from `lo` to `hi`, both included; an interval of one number is that number. -/
def between (lo hi : UInt64) : Value :=
  if lo = hi then num lo else span lo hi

def kind : Value → Kind
  | num _ | oneOf _ | span _ _ => .number
  | sym _ => .symbol
  | flag _ => .flag
  | addr _ => .address

/-- Whether nothing is left open. -/
def isConcrete : Value → Bool
  | oneOf _ | span _ _ => false
  | _ => true

/-- Whether no number satisfies the constraint. -/
def isUnsatisfiable : Value → Bool
  | oneOf set => set.isEmpty
  | span lo hi => hi < lo
  | _ => false

/-- Whether the value, read as a constraint on numbers, admits `n`.  A value of another kind
admits no number. -/
def admits : Value → UInt64 → Bool
  | num m, n => m == n
  | oneOf set, n => set.contains n
  | span lo hi, n => lo ≤ n && n ≤ hi
  | _, _ => false

/-- Narrow a constraint to the largest number it admits; nothing if it admits none. -/
def settle? : Value → Option Value
  | oneOf set => set.max?.map num
  | span lo hi => if lo ≤ hi then some (num hi) else none
  | v => some v

/-- The number that a value settles to, if it is a number. -/
def toNumber? (v : Value) : Option UInt64 :=
  match v.settle? with
  | some (num n) => some n
  | _ => none

/-- The members of a set that a constraint admits; nothing if there are none. -/
def restrict? (set : NumberSet) (v : Value) : Option Value :=
  let kept := set.filter v.admits
  if kept.isEmpty then none else some (ofSet kept)

/-- What satisfies both values; nothing if they have nothing in common. -/
def intersect? : Value → Value → Option Value
  | num n, v => if v.admits n then some (num n) else none
  | v, num n => if v.admits n then some (num n) else none
  | oneOf set, v => restrict? set v
  | v, oneOf set => restrict? set v
  | span lo hi, span lo' hi' =>
      if max lo lo' ≤ min hi hi' then some (between (max lo lo') (min hi hi')) else none
  | sym a, sym b => if a = b then some (sym a) else none
  | flag a, flag b => if a = b then some (flag a) else none
  | addr a, addr b => if (a.intersect b).isEmpty then none else some (addr (a.intersect b))
  | _, _ => none

/-- The zero value of a kind: no number, no text, not set, no addresses. -/
def zero : Kind → Value
  | .number => num 0
  | .symbol => sym ""
  | .flag => flag false
  | .address => addr .empty

/-- The text of one address window: base and size in hexadecimal. -/
def windowText (w : Window) : String :=
  "0x" ++ Text.hexadecimal w.base.toNat ++ "+0x" ++ Text.hexadecimal w.size.toNat

def text : Value → String
  | num n => Text.decimal n.toNat
  | oneOf set =>
      "\x7b" ++ Text.joined "," (set.members.map fun n => Text.decimal n.toNat) ++ "\x7d"
  | span lo hi => Text.decimal lo.toNat ++ "..=" ++ Text.decimal hi.toNat
  | sym s => s
  | flag b => if b then "true" else "false"
  | addr set => "[" ++ Text.joined ", " (set.windows.map windowText) ++ "]"

theorem isConcrete_of_settle? {v w : Value} (h : v.settle? = some w) : w.isConcrete = true := by
  cases v with
  | oneOf set =>
      obtain ⟨n, _, rfl⟩ := Option.map_eq_some_iff.mp h
      rfl
  | span lo hi =>
      simp only [settle?] at h
      split at h
      · cases h; rfl
      · cases h
  | num n => cases h; rfl
  | sym s => cases h; rfl
  | flag b => cases h; rfl
  | addr s => cases h; rfl

theorem kind_of_settle? {v w : Value} (h : v.settle? = some w) : w.kind = v.kind := by
  cases v with
  | oneOf set =>
      obtain ⟨n, _, rfl⟩ := Option.map_eq_some_iff.mp h
      rfl
  | span lo hi =>
      simp only [settle?] at h
      split at h
      · cases h; rfl
      · cases h
  | num n => cases h; rfl
  | sym s => cases h; rfl
  | flag b => cases h; rfl
  | addr s => cases h; rfl

/-- Settling fails on the unsatisfiable constraints and nowhere else. -/
theorem settle?_eq_none_iff {v : Value} : v.settle? = none ↔ v.isUnsatisfiable = true := by
  cases v with
  | oneOf set =>
      simp [settle?, isUnsatisfiable, NumberSet.max?, NumberSet.isEmpty, List.getLast?_eq_none_iff]
  | span lo hi => simp [settle?, isUnsatisfiable]
  | num n => simp [settle?, isUnsatisfiable]
  | sym s => simp [settle?, isUnsatisfiable]
  | flag b => simp [settle?, isUnsatisfiable]
  | addr s => simp [settle?, isUnsatisfiable]

end Value

end Negotiation
