import Negotiation.BoundGraph
import Negotiation.Demand
import Negotiation.Settings

/-!
Graphs: a wiring under negotiation.

A graph is open while nodes and edges are added.  The first request to resolve anything seals it:
from then on its wiring is fixed and a ledger keeps what is known of every key.
-/

namespace Negotiation

/-- A wiring under negotiation. -/
structure Graph where
  wiring : Wiring
  /-- The nodes that were declared roots. -/
  markedRoots : List NodeId
  settings : Settings
  /-- What is known of every key, once the graph is sealed. -/
  ledger : Option Ledger
  /-- What the first successful freeze handed out. -/
  frozen : Option BoundGraph
  /-- What was noted since the journal was last taken. -/
  journal : Array Event

namespace Graph

def empty (settings : Settings) : Graph :=
  ⟨.empty, [], settings, none, none, #[]⟩

instance : Inhabited Graph := ⟨empty {}⟩

def note (g : Graph) (event : Event) : Graph :=
  { g with journal := g.journal.push event }

def noteAll (g : Graph) (events : Array Event) : Graph :=
  { g with journal := g.journal ++ events }

def clearJournal (g : Graph) : Graph :=
  { g with journal := #[] }

/-- Whether resolution has started. -/
def isSealed (g : Graph) : Bool :=
  g.ledger.isSome

def nodeName? (g : Graph) (n : NodeId) : Option String :=
  (g.wiring.slot? n).map fun slot => slot.node.name

def slot (g : Graph) (n : NodeId) : Except GraphError Slot :=
  match g.wiring.slot? n with
  | some slot => .ok slot
  | none => .error (.unknownNode n)

def portSpec (g : Graph) (port : Port) : Except GraphError PortSpec := do
  let slot ← g.slot port.node
  match slot.port? port.side port.index with
  | some spec => .ok spec
  | none => .error (.unknownPort port)

def edge (g : Graph) (e : EdgeId) : Except GraphError Edge :=
  match g.wiring.edge? e with
  | some edge => .ok edge
  | none => .error (.unknownEdge e)

/-- Whether a node counts as a root, by its role or because it was declared one. -/
def isRoot (g : Graph) (n : NodeId) : Bool :=
  g.markedRoots.contains n ||
    (g.wiring.slot? n).any fun slot => slot.node.role = .root

def hasNoInputs (g : Graph) (n : NodeId) : Bool :=
  (g.wiring.slot? n).any fun slot => (slot.ports .input).isEmpty

/-- The roots, ascending.  Where there is none, and the settings allow it, the nodes without
inputs stand in. -/
def roots (g : Graph) : List NodeId :=
  let declared := g.wiring.nodeIds.filter g.isRoot
  if declared.isEmpty && g.settings.implicitRoots then g.wiring.nodeIds.filter g.hasNoInputs
  else declared

end Graph

end Negotiation
