import Negotiation.Evaluation
import Negotiation.Event

/-!
Demand: resolving a key and everything it depends on.

A walk keeps the keys that are being resolved in a pile; each key in the pile is there because the
one below it needs it.  One step looks at the key on top: it piles up the first dependency about
which nothing is known, or evaluates the key and takes it off, or finds that the key cannot be
resolved, and then no key in the pile can.  Every step lowers `Walk.measure`, so the number of keys
bounds the number of steps (`Walk.run_isRight`).
-/

namespace Negotiation

/-- What is known of every key, and how many evaluations it took. -/
structure Ledger where
  memo : Memo
  evaluations : Nat

namespace Ledger

def blank (w : Wiring) : Ledger :=
  ⟨.blank w.slots.size w.edges.size, 0⟩

end Ledger

/-- What the first dependency of a key that is not resolved is like. -/
inductive Blocker where
  /-- Nothing is known of it. -/
  | fresh (key : FlowKey)
  /-- It is being resolved. -/
  | inProgress (key : FlowKey)
  /-- It failed. -/
  | failed (error : ResolveError)

namespace Blocker

/-- Whether, and how, a dependency stands in the way. -/
def ofEntry? (key : FlowKey) : Entry → Option Blocker
  | .resolved _ => none
  | .unresolved => some (.fresh key)
  | .resolving => some (.inProgress key)
  | .failed error => some (.failed error)

/-- The first of several dependencies that stands in the way. -/
def find? (memo : Memo) (dependencies : List FlowKey) : Option Blocker :=
  dependencies.findSome? fun key => ofEntry? key (memo.get key)

end Blocker

/-- A walk through the dependencies of a key.  The pile has the key on top first; the events are
in order. -/
structure Walk where
  ledger : Ledger
  pile : List FlowKey
  events : Array Event

/-- How a walk ends: resolved or not, what is known then, and what was noted. -/
structure Arrival where
  result : Except ResolveError Unit
  ledger : Ledger
  events : Array Event

namespace Walk

/-- The walk that sets out to resolve a key. -/
def start (ledger : Ledger) (key : FlowKey) : Walk :=
  ⟨{ ledger with memo := ledger.memo.set key .resolving }, [key], #[]⟩

/-- Twice the number of keys of which nothing is known, and the height of the pile. -/
def measure (walk : Walk) : Nat :=
  2 * walk.ledger.memo.unresolvedCount + walk.pile.length

/-- Put a dependency on the pile. -/
def push (walk : Walk) (key : FlowKey) : Walk :=
  { walk with
    ledger := { walk.ledger with memo := walk.ledger.memo.set key .resolving }
    pile := key :: walk.pile }

/-- No key in the pile can be resolved. -/
def fail (walk : Walk) (error : ResolveError) : Arrival :=
  { result := .error error
    ledger := { walk.ledger with memo := walk.ledger.memo.setAll walk.pile (.failed error) }
    events := walk.events.push (.resolutionFailed walk.pile.length error) }

/-- The circle that a key closes which is in the pile and is needed on top of it. -/
def circle (pile : List FlowKey) (key : FlowKey) : Cycle :=
  ⟨key :: (pile.takeWhile (· ≠ key)).reverse ++ [key]⟩

/-- What is noted before a key is evaluated. -/
def announce (trace : Bool) (key : FlowKey) : List Event :=
  if trace then [.evaluating key] else []

/-- What is noted after a key is evaluated. -/
def report (trace : Bool) (key : FlowKey) (values : List Parameter) : List Event :=
  match trace, key, values with
  | true, .edge e, [value] => [.edgeResolved e value]
  | _, _, _ => []

/-- Evaluate the key on top of the pile, all of whose dependencies are resolved. -/
def evaluate (w : Wiring) (trace : Bool) (key : FlowKey) (below : List FlowKey) (walk : Walk) :
    Walk ⊕ Arrival :=
  let counted : Walk :=
    { walk with
      ledger := { walk.ledger with evaluations := walk.ledger.evaluations + 1 }
      events := walk.events.appendList (announce trace key) }
  match w.evaluate counted.ledger.memo key with
  | .error error => .inr (counted.fail error)
  | .ok values =>
      .inl
        { ledger := { counted.ledger with memo := counted.ledger.memo.set key (.resolved values) }
          pile := below
          events := counted.events.appendList (report trace key values) }

/-- One step of a walk, or its end. -/
def step (w : Wiring) (trace : Bool) (walk : Walk) : Walk ⊕ Arrival :=
  match walk.pile with
  | [] => .inr ⟨.ok (), walk.ledger, walk.events⟩
  | key :: below =>
      match Blocker.find? walk.ledger.memo (w.dependencies key) with
      | some (.fresh dependency) => .inl (walk.push dependency)
      | some (.inProgress dependency) => .inr (walk.fail (.cycle (circle walk.pile dependency)))
      | some (.failed error) => .inr (walk.fail error)
      | none => walk.evaluate w trace key below

/-- At most so many steps of a walk. -/
def run (w : Wiring) (trace : Bool) : Nat → Walk → Walk ⊕ Arrival
  | 0, walk => .inl walk
  | n + 1, walk =>
      match walk.step w trace with
      | .inl next => run w trace n next
      | .inr arrival => .inr arrival

theorem get_eq_unresolved_of_find? {memo : Memo} {dependencies : List FlowKey} {key : FlowKey}
    (h : Blocker.find? memo dependencies = some (.fresh key)) :
    memo.get key = .unresolved ∧ key ∈ dependencies := by
  obtain ⟨found, hmem, hfound⟩ := List.exists_of_findSome?_eq_some h
  cases hentry : memo.get found with
  | unresolved =>
      rw [hentry] at hfound
      cases hfound
      exact ⟨hentry, hmem⟩
  | resolving => rw [hentry] at hfound; cases hfound
  | resolved values => rw [hentry] at hfound; cases hfound
  | failed error => rw [hentry] at hfound; cases hfound

theorem unresolvedCount_set_le {memo : Memo} {key : FlowKey} {entry : Entry}
    (hentry : entry.isUnresolved = false) :
    (memo.set key entry).unresolvedCount ≤ memo.unresolvedCount := by
  have harray : ∀ (xs : Array Entry) (i : Nat),
      (xs.setIfInBounds i entry).countP Entry.isUnresolved ≤ xs.countP Entry.isUnresolved := by
    intro xs i
    by_cases hlt : i < xs.size
    · have hcount := Array.countP_set (p := Entry.isUnresolved) (i := i) (a := entry) hlt
      simp only [Array.setIfInBounds, hlt, ↓reduceDIte, hcount, hentry]
      simp
    · simp [Array.setIfInBounds, hlt]
  cases key with
  | down n => have := harray memo.down n.index; simp only [Memo.unresolvedCount, Memo.set]; omega
  | up n => have := harray memo.up n.index; simp only [Memo.unresolvedCount, Memo.set]; omega
  | edge e => have := harray memo.edge e.index; simp only [Memo.unresolvedCount, Memo.set]; omega

/-- Every step that does not end the walk lowers its measure. -/
theorem measure_step_lt {w : Wiring} {trace : Bool} {walk next : Walk}
    (h : walk.step w trace = .inl next) : next.measure < walk.measure := by
  obtain ⟨ledger, pile, events⟩ := walk
  cases pile with
  | nil => simp [step] at h
  | cons key below =>
      simp only [step] at h
      split at h
      · rename_i dependency hfind
        cases h
        have hlt : (ledger.memo.set dependency .resolving).unresolvedCount <
            ledger.memo.unresolvedCount :=
          Memo.unresolved_set_lt (get_eq_unresolved_of_find? hfind).1 rfl
        simp only [measure, push, List.length_cons]
        omega
      · cases h
      · cases h
      · simp only [evaluate] at h
        split at h
        · cases h
        · rename_i values _
          cases h
          have hle : (ledger.memo.set key (.resolved values)).unresolvedCount ≤
              ledger.memo.unresolvedCount := unresolvedCount_set_le rfl
          simp only [measure, List.length_cons]
          omega

/-- A walk ends within as many steps as its measure, and one more. -/
theorem run_isRight {w : Wiring} {trace : Bool} {n : Nat} {walk : Walk}
    (h : walk.measure < n) : (run w trace n walk).isRight = true := by
  induction n generalizing walk with
  | zero => omega
  | succ n ih =>
      rw [run]
      cases hstep : walk.step w trace with
      | inr arrival => rfl
      | inl next =>
          have hlt := measure_step_lt hstep
          exact ih (by omega)

/-- How many steps are enough for a walk over so many keys. -/
def horizon (size : Nat) : Nat :=
  2 * size + 2

theorem measure_start_lt_horizon (ledger : Ledger) (key : FlowKey) :
    (start ledger key).measure < horizon ledger.memo.size := by
  have hle : (ledger.memo.set key .resolving).unresolvedCount ≤ ledger.memo.unresolvedCount :=
    unresolvedCount_set_le rfl
  have hsize := ledger.memo.unresolvedCount_le_size
  simp only [measure, start, horizon, List.length_singleton]
  omega

/-- Walk until everything that a key depends on, and the key itself, is resolved or has failed. -/
def toEnd (w : Wiring) (trace : Bool) (ledger : Ledger) (key : FlowKey) : Arrival :=
  (run w trace (horizon ledger.memo.size) (start ledger key)).getRight
    (run_isRight (measure_start_lt_horizon ledger key))

end Walk

namespace Ledger

/-- Resolve a key and everything it depends on.  A key that is resolved, or has failed, stays as it
is. -/
def demand (w : Wiring) (trace : Bool) (ledger : Ledger) (key : FlowKey) : Arrival :=
  match ledger.memo.get key with
  | .resolved _ => ⟨.ok (), ledger, #[]⟩
  | .failed error => ⟨.error error, ledger, #[]⟩
  | _ => Walk.toEnd w trace ledger key

end Ledger

end Negotiation
