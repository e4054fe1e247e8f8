import Negotiation.Memo
import Negotiation.Wiring

/-!
Evaluation: the value of one key from the values of its dependencies.

Nothing here decides in which order keys are evaluated; `Wiring.evaluate` reads the memo and
computes the value of a key whose dependencies are resolved there.
-/

namespace Negotiation

namespace Wiring

/-- The key whose values travel along an edge in a direction. -/
def emitter (edge : Edge) : Direction → FlowKey
  | .down => .down edge.output.node
  | .up => .up edge.input.node

/-- The parameter that crosses an edge in a direction: what was emitted at the port where it
starts, through the adapter, and fitting the schema of the protocol. -/
def crossing (memo : Memo) (edge : Edge) (direction : Direction) : Except Mismatch Parameter :=
  let fail := fun reason => Except.error (Mismatch.ofKey (.edge edge.id) reason)
  match (memo.values? (emitter edge direction)).bind (·[(edge.origin direction).index]?) with
  | none => fail (.notComputed direction)
  | some emitted =>
      match edge.adapter.apply direction emitted with
      | .error reason => fail (.adapter direction reason)
      | .ok value =>
          match (edge.protocol.schema direction).check value with
          | .error reason => fail (.illShaped direction value reason)
          | .ok () => .ok value

/-- The parameters that meet on an edge, downward and upward. -/
def flows (memo : Memo) (edge : Edge) : Except Mismatch (Parameter × Parameter) := do
  let down ← crossing memo edge .down
  let up ← crossing memo edge .up
  return (down, up)

/-- The parameter of an edge: what its rule makes of the two that meet on it. -/
def settle (memo : Memo) (edge : Edge) : Except Mismatch Parameter := do
  let (down, up) ← flows memo edge
  (edge.rule.merge down up).mapError (Mismatch.ofKey (.edge edge.id))

/-- What a node reads from one edge: the settled parameter, or what crosses the edge. -/
def readEdge (w : Wiring) (memo : Memo) (direction : Direction) (resolved : Bool) (e : EdgeId) :
    Except Mismatch Parameter :=
  if resolved then
    match memo.settled? e with
    | some value => .ok value
    | none => .error (.ofKey (.edge e) .notResolved)
  else
    match w.edge? e with
    | some edge => crossing memo edge direction
    | none => .error (.ofKey (.edge e) (.notComputed direction))

/-- What a node reads on one port: one parameter per attached edge, or the fallback of the protocol
where no edge is attached. -/
def readPort (w : Wiring) (memo : Memo) (direction : Direction) (resolved : Bool)
    (port : PortSpec) : List EdgeId → Except Mismatch (List Parameter)
  | [] => .ok (port.protocol.fallbackValue direction).toList
  | edges => edges.mapM (w.readEdge memo direction resolved)

/-- What a node reads on all ports of one side. -/
def gather (w : Wiring) (memo : Memo) (slot : Slot) (side : Side) (direction : Direction)
    (resolved : Bool) : Except Mismatch (List (List Parameter)) :=
  ((slot.ports side).zip (slot.edges side)).mapM fun (port, edges) =>
    w.readPort memo direction resolved port edges

/-- What a node sees on the ports of a side that it does not read. -/
def unread (slot : Slot) (side : Side) : List (List Parameter) :=
  (slot.ports side).map fun _ => []

/-- Everything that a node reads to compute its downward values. -/
def downReadings (w : Wiring) (memo : Memo) (slot : Slot) : Except Mismatch Readings := do
  let flow := slot.node.flow
  let values ←
    if flow.downReadsInward then w.gather memo slot .input .down flow.downReadsResolved
    else pure (unread slot .input)
  let feedback ←
    if flow.downReadsOutwardUp then w.gather memo slot .output .up false
    else pure (unread slot .output)
  return ⟨values, feedback⟩

/-- Everything that a node reads to compute its upward values. -/
def upReadings (w : Wiring) (memo : Memo) (slot : Slot) : Except Mismatch Readings := do
  let flow := slot.node.flow
  let values ←
    if flow.upReadsOutward then w.gather memo slot .output .up flow.upReadsResolved
    else pure (unread slot .output)
  let feedback ←
    if flow.upReadsInwardDown then w.gather memo slot .input .down false
    else pure (unread slot .input)
  return ⟨values, feedback⟩

/-- The first emitted value that does not fit the schema of its port, if any. -/
def portFault (direction : Direction) (values : List Parameter) (ports : List PortSpec) :
    Option Reason :=
  (values.zip ports).findSome? fun (value, port) =>
    ((port.protocol.schema direction).fault value).map (.onPort port.name)

/-- A node emits one value per port, each fitting the schema of its port. -/
def checkEmitted (key : FlowKey) (direction : Direction) (values : List Parameter)
    (ports : List PortSpec) : Except Mismatch (List Parameter) :=
  if values.length ≠ ports.length then
    .error (.ofKey key (.emitted values.length direction ports.length))
  else
    match portFault direction values ports with
    | some reason => .error (.ofKey key reason)
    | none => .ok values

/-- The downward values of a node. -/
def evaluateDown (w : Wiring) (memo : Memo) (n : NodeId) (slot : Slot) :
    Except Mismatch (List Parameter) := do
  let readings ← w.downReadings memo slot
  let values ← (slot.node.downward readings).mapError (Mismatch.ofKey (.down n))
  checkEmitted (.down n) .down values (slot.ports .output)

/-- The upward values of a node. -/
def evaluateUp (w : Wiring) (memo : Memo) (n : NodeId) (slot : Slot) :
    Except Mismatch (List Parameter) := do
  let readings ← w.upReadings memo slot
  let values ← (slot.node.upward readings).mapError (Mismatch.ofKey (.up n))
  checkEmitted (.up n) .up values (slot.ports .input)

/-- The values of a key whose dependencies are resolved.  A failure is attributed to the edge that
gets no value because of it. -/
def evaluate (w : Wiring) (memo : Memo) (key : FlowKey) : Except ResolveError (List Parameter) :=
  let values :=
    match key with
    | .edge e =>
        match w.edge? e with
        | some edge => (settle memo edge).map ([·])
        | none => .error (.ofKey key .noRecord)
    | .down n =>
        match w.slot? n with
        | some slot => w.evaluateDown memo n slot
        | none => .error (.ofKey key .noRecord)
    | .up n =>
        match w.slot? n with
        | some slot => w.evaluateUp memo n slot
        | none => .error (.ofKey key .noRecord)
  values.mapError fun mismatch => .mismatch (mismatch.onEdge (w.locate key))

end Wiring

end Negotiation
