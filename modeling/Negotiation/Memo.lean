import Negotiation.Failure

/-!
The memo: what is known of every key.

The memo has one entry per key of a wiring.  Everything about it is said through `Memo.get`: a
write changes the entry of one key (`Memo.get_set`), and marking an unresolved key lowers the
number of unresolved entries (`Memo.unresolved_set_lt`).
-/

namespace Negotiation

/-- What is known of a key.  The values of a node come one per port; an edge has one value. -/
inductive Entry where
  | unresolved
  | resolving
  | resolved (values : List Parameter)
  | failed (error : ResolveError)
deriving DecidableEq

namespace Entry

instance : Inhabited Entry := ⟨.unresolved⟩

def progress : Entry → Progress
  | unresolved => .unresolved
  | resolving => .resolving
  | resolved _ => .resolved
  | failed _ => .failed

def values? : Entry → Option (List Parameter)
  | resolved values => some values
  | _ => none

def failure? : Entry → Option ResolveError
  | failed error => some error
  | _ => none

/-- Whether nothing has been done yet. -/
def isUnresolved : Entry → Bool
  | unresolved => true
  | _ => false

end Entry

/-- One entry per key. -/
structure Memo where
  down : Array Entry
  up : Array Entry
  edge : Array Entry

namespace Memo

/-- Nothing is known of any key of so many nodes and edges. -/
def blank (nodes edges : Nat) : Memo :=
  ⟨.replicate nodes .unresolved, .replicate nodes .unresolved, .replicate edges .unresolved⟩

def size (m : Memo) : Nat :=
  m.down.size + m.up.size + m.edge.size

/-- What is known of a key, if the memo covers it. -/
def get? (m : Memo) : FlowKey → Option Entry
  | .down n => m.down[n.index]?
  | .up n => m.up[n.index]?
  | .edge e => m.edge[e.index]?

/-- The failure of a key that is not covered. -/
def notCovered (key : FlowKey) : ResolveError :=
  .mismatch (.ofKey key .noRecord)

/-- What is known of a key; a key that the memo does not cover counts as failed. -/
def get (m : Memo) (key : FlowKey) : Entry :=
  (m.get? key).getD (.failed (notCovered key))

def set (m : Memo) (key : FlowKey) (entry : Entry) : Memo :=
  match key with
  | .down n => { m with down := m.down.setIfInBounds n.index entry }
  | .up n => { m with up := m.up.setIfInBounds n.index entry }
  | .edge e => { m with edge := m.edge.setIfInBounds e.index entry }

def setAll (m : Memo) (keys : List FlowKey) (entry : Entry) : Memo :=
  keys.foldl (fun memo key => memo.set key entry) m

def values? (m : Memo) (key : FlowKey) : Option (List Parameter) :=
  (m.get key).values?

/-- The settled parameter of a resolved edge. -/
def settled? (m : Memo) (e : EdgeId) : Option Parameter :=
  (m.values? (.edge e)).bind List.head?

def unresolvedCount (m : Memo) : Nat :=
  m.down.countP Entry.isUnresolved + m.up.countP Entry.isUnresolved +
    m.edge.countP Entry.isUnresolved

theorem unresolvedCount_le_size (m : Memo) : m.unresolvedCount ≤ m.size := by
  have hdown : m.down.countP Entry.isUnresolved ≤ m.down.size := Array.countP_le_size
  have hup : m.up.countP Entry.isUnresolved ≤ m.up.size := Array.countP_le_size
  have hedge : m.edge.countP Entry.isUnresolved ≤ m.edge.size := Array.countP_le_size
  simp only [unresolvedCount, size]
  omega

theorem get?_set (m : Memo) (key other : FlowKey) (entry : Entry) :
    (m.set key entry).get? other =
      if other = key then (m.get? key).map fun _ => entry else m.get? other := by
  have harray : ∀ (xs : Array Entry) (i j : Nat),
      (xs.setIfInBounds i entry)[j]? = if j = i then xs[i]?.map fun _ => entry else xs[j]? := by
    intro xs i j
    rw [Array.getElem?_setIfInBounds]
    by_cases hij : i = j
    · subst hij
      by_cases hlt : i < xs.size <;> simp [hlt]
    · simp [hij, Ne.symm hij]
  cases key with
  | down n =>
      cases other with
      | down n' =>
          obtain ⟨i⟩ := n
          obtain ⟨j⟩ := n'
          simp [set, get?, harray]
      | up n' => simp [set, get?]
      | edge e => simp [set, get?]
  | up n =>
      cases other with
      | down n' => simp [set, get?]
      | up n' =>
          obtain ⟨i⟩ := n
          obtain ⟨j⟩ := n'
          simp [set, get?, harray]
      | edge e => simp [set, get?]
  | edge e =>
      cases other with
      | down n' => simp [set, get?]
      | up n' => simp [set, get?]
      | edge e' =>
          obtain ⟨i⟩ := e
          obtain ⟨j⟩ := e'
          simp [set, get?, harray]

def Covers (m : Memo) (key : FlowKey) : Prop :=
  (m.get? key).isSome

instance (m : Memo) (key : FlowKey) : Decidable (m.Covers key) :=
  inferInstanceAs (Decidable ((m.get? key).isSome = true))

theorem get_of_not_covers {m : Memo} {key : FlowKey} (h : ¬ m.Covers key) :
    m.get key = .failed (notCovered key) := by
  have hnone : m.get? key = none := by simpa [Covers] using h
  simp [get, hnone]

@[simp] theorem covers_set (m : Memo) (key other : FlowKey) (entry : Entry) :
    (m.set key entry).Covers other ↔ m.Covers other := by
  simp only [Covers, get?_set]
  split
  · rename_i h
    subst h
    cases m.get? other <;> simp
  · rfl

/-- Reading after a write. -/
theorem get_set (m : Memo) (key other : FlowKey) (entry : Entry) :
    (m.set key entry).get other =
      if other = key ∧ m.Covers key then entry else m.get other := by
  by_cases h : other = key
  · subst h
    cases hget : m.get? other <;> simp [get, get?_set, Covers, hget]
  · simp [get, get?_set, h]

theorem get_set_ne (m : Memo) {key other : FlowKey} (entry : Entry) (h : other ≠ key) :
    (m.set key entry).get other = m.get other := by
  simp [get_set, h]

theorem get_set_self {m : Memo} {key : FlowKey} (entry : Entry) (h : m.Covers key) :
    (m.set key entry).get key = entry := by
  simp [get_set, h]

theorem covers_of_get_unresolved {m : Memo} {key : FlowKey} (h : m.get key = .unresolved) :
    m.Covers key :=
  Classical.byContradiction fun hnot => by simp [get_of_not_covers hnot] at h

/-- Marking an unresolved key leaves fewer unresolved keys. -/
theorem unresolved_set_lt {m : Memo} {key : FlowKey} {entry : Entry}
    (h : m.get key = .unresolved) (hentry : entry.isUnresolved = false) :
    (m.set key entry).unresolvedCount < m.unresolvedCount := by
  have harray : ∀ (xs : Array Entry) (i : Nat), xs[i]? = some .unresolved →
      (xs.setIfInBounds i entry).countP Entry.isUnresolved <
        xs.countP Entry.isUnresolved := by
    intro xs i hi
    obtain ⟨hlt, hget⟩ := Array.getElem?_eq_some_iff.mp hi
    have hpos : 0 < xs.countP Entry.isUnresolved :=
      Array.countP_pos_iff.mpr ⟨.unresolved, Array.mem_of_getElem? hi, rfl⟩
    have hcount := Array.countP_set (p := Entry.isUnresolved) (i := i) (a := entry) hlt
    simp only [Array.setIfInBounds, hlt, ↓reduceDIte, hcount, hget, hentry]
    simp only [Entry.isUnresolved, ↓reduceIte, Bool.false_eq_true]
    omega
  have hcovers := covers_of_get_unresolved h
  have hsome : m.get? key = some .unresolved := by
    obtain ⟨found, hfound⟩ := Option.isSome_iff_exists.mp hcovers
    simpa [get, hfound] using h
  cases key with
  | down n =>
      have := harray m.down n.index hsome
      simp only [unresolvedCount, set]
      omega
  | up n =>
      have := harray m.up n.index hsome
      simp only [unresolvedCount, set]
      omega
  | edge e =>
      have := harray m.edge e.index hsome
      simp only [unresolvedCount, set]
      omega

end Memo

end Negotiation
