import Negotiation.Text.Digits

/-!
How many edges a port takes.
-/

namespace Negotiation

/-- The number of edges that a port wants at least and takes at most; without a maximum it takes
any number. -/
structure Cardinality where
  min : Nat
  max : Option Nat
deriving DecidableEq

namespace Cardinality

def exactly (n : Nat) : Cardinality := ⟨n, some n⟩

def range (min max : Nat) : Cardinality := ⟨min, some max⟩

def atMost (max : Nat) : Cardinality := range 0 max

def atLeast (min : Nat) : Cardinality := ⟨min, none⟩

def optional : Cardinality := range 0 1

/-- Any number of edges. -/
def star : Cardinality := atLeast 0

instance : Inhabited Cardinality := ⟨exactly 1⟩

/-- Whether a port with this many edges has enough and not too many. -/
def contains (c : Cardinality) (count : Nat) : Bool :=
  c.min ≤ count && c.max.all (count ≤ ·)

/-- Whether a port with this many edges takes no further one. -/
def isFull (c : Cardinality) (count : Nat) : Bool :=
  c.max.any (· ≤ count)

/-- Whether no number of edges is allowed. -/
def isEmpty (c : Cardinality) : Bool :=
  c.max.any (· < c.min)

def text (c : Cardinality) : String :=
  match c.max with
  | none => Text.decimal c.min ++ ".."
  | some max =>
      if max = c.min then Text.decimal max
      else Text.decimal c.min ++ "..=" ++ Text.decimal max

theorem isFull_iff {c : Cardinality} {count : Nat} :
    c.isFull count = true ↔ ∃ max, c.max = some max ∧ max ≤ count := by
  cases h : c.max <;> simp [isFull, h]

theorem contains_iff {c : Cardinality} {count : Nat} :
    c.contains count = true ↔ c.min ≤ count ∧ ∀ max, c.max = some max → count ≤ max := by
  cases h : c.max <;> simp [contains, h]

end Cardinality

end Negotiation
