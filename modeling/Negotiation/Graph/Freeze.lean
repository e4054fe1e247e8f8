import Negotiation.Graph.Resolution
import Negotiation.Reachability
import Negotiation.Violation

/-!
Freezing a graph: every edge is resolved and every requirement checked.

All violations are reported together, in a fixed order: failures to resolve, edges left without a
value, ports with the wrong number of edges, nodes without edges, edges that no root reaches.  A
graph without violations hands out its reachable part as a bound graph, and keeps it.
-/

namespace Negotiation

namespace Graph

/-- What is reachable from the roots of the graph. -/
def reachability (g : Graph) : Reachability :=
  .ofRoots g.wiring g.roots

/-- The edges without a settled parameter. -/
def unresolvedViolations (g : Graph) : List Violation :=
  g.wiring.edgeIds.filterMap fun e =>
    if g.progress (.edge e) = .resolved then none else some (.unresolved e (g.progress (.edge e)))

/-- The ports of one side of a node with the wrong number of edges; ports are numbered from
`index`. -/
def portViolations (n : NodeId) (side : Side) :
    Nat → List (PortSpec × List EdgeId) → List Violation
  | _, [] => []
  | index, (spec, edges) :: rest =>
      let others := portViolations n side (index + 1) rest
      if spec.cardinality.contains edges.length then others
      else .cardinality ⟨n, side, index⟩ spec.name edges.length spec.cardinality :: others

/-- The ports of a node with the wrong number of edges, inputs first. -/
def slotViolations (n : NodeId) (slot : Slot) : List Violation :=
  portViolations n .input 0 ((slot.ports .input).zip (slot.edges .input)) ++
    portViolations n .output 0 ((slot.ports .output).zip (slot.edges .output))

/-- The ports with the wrong number of edges. -/
def cardinalityViolations (g : Graph) : List Violation :=
  g.wiring.nodeIds.flatMap fun n =>
    match g.wiring.slot? n with
    | some slot => slotViolations n slot
    | none => []

/-- Whether a node is an interior node without edges that was not declared a root. -/
def isOrphan (g : Graph) (n : NodeId) : Bool :=
  (g.wiring.slot? n).any fun slot =>
    slot.node.role = .interior && !g.markedRoots.contains n && slot.connectionCount = 0

/-- The interior nodes without edges, with their names. -/
def orphans (g : Graph) : List (NodeId × String) :=
  (g.wiring.nodeIds.filter g.isOrphan).map fun n => (n, (g.nodeName? n).getD "")

/-- The interior nodes without edges, where the settings count them. -/
def orphanViolations (g : Graph) : List Violation :=
  match g.settings.orphans with
  | .error => g.orphans.map fun (n, name) => .orphan n name
  | .warn => []

/-- The interior nodes without edges, where the settings only note them. -/
def orphanEvents (g : Graph) : List Event :=
  match g.settings.orphans with
  | .error => []
  | .warn => g.orphans.map fun (n, name) => .strayNode n name

/-- The edges that no root reaches. -/
def unreachableEdges (g : Graph) (reach : Reachability) : List EdgeId :=
  g.wiring.edgeIds.filter fun e => !reach.edge e

/-- The edges that no root reaches, where the settings count them. -/
def unreachableViolations (g : Graph) (reach : Reachability) : List Violation :=
  if g.settings.strictReachability then (g.unreachableEdges reach).map .unreachable else []

/-- The edges that no root reaches, where the settings only note them. -/
def unreachableEvents (g : Graph) (reach : Reachability) : List Event :=
  if g.settings.strictReachability then [] else (g.unreachableEdges reach).map .edgeLeftOut

/-- A reachable edge as it is handed out; nothing if it has no settled parameter. -/
def boundEdge? (g : Graph) (e : EdgeId) : Option BoundEdge := do
  let edge ← g.wiring.edge? e
  let resolved ← g.resolved? e
  let (downward, upward) ← g.flows? edge
  return ⟨e, edge.output, edge.input, edge.protocol.name, downward, upward, resolved⟩

/-- A node as it is handed out, with its reachable edges. -/
def boundNode? (g : Graph) (reach : Reachability) (n : NodeId) : Option BoundNode := do
  let slot ← g.wiring.slot? n
  return ⟨n, slot.node.name, slot.inward.filter reach.edge, slot.outward.filter reach.edge⟩

/-- The reachable part of a resolved graph. -/
def elaborate (g : Graph) (reach : Reachability) : BoundGraph where
  nodes := (g.wiring.nodeIds.filter reach.node).filterMap (g.boundNode? reach)
  edges := (g.wiring.edgeIds.filter reach.edge).filterMap g.boundEdge?

/-- Everything that a graph does not meet, given the failures to resolve its edges. -/
def violations (g : Graph) (errors : List ResolveError) (reach : Reachability) : List Violation :=
  errors.map .resolution ++ g.unresolvedViolations ++ g.cardinalityViolations ++
    g.orphanViolations ++ g.unreachableViolations reach

/-- Hand out the reachable part of a graph without violations, and keep it. -/
def handOut (g : Graph) (reach : Reachability) : BoundGraph × Graph :=
  let bound := g.elaborate reach
  let noted := g.note (.frozen bound.nodes.length bound.edges.length g.evaluations)
  (bound, { noted with frozen := some bound })

/-- Seal the graph, resolve every edge, and check every requirement.  A graph that was frozen
before hands out what it handed out then. -/
def freeze (g : Graph) : Except (List Violation) BoundGraph × Graph :=
  match g.frozen with
  | some bound => (.ok bound, g)
  | none =>
      let (errors, g) := g.sealWiring.resolveAll
      let reach := g.reachability
      let found := g.violations errors reach
      let g := (g.noteAll g.orphanEvents.toArray).noteAll (g.unreachableEvents reach).toArray
      if found.isEmpty then (g.handOut reach).map .ok id
      else (.error found, g.note (.freezeFailed found.length))

end Graph

end Negotiation
