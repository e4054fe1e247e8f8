import Negotiation.Graph.Basic

/-!
Resolving the edges of a graph on demand.
-/

namespace Negotiation

namespace Graph

/-- Seal the graph; a sealed graph stays as it is. -/
def sealWiring (g : Graph) : Graph :=
  match g.ledger with
  | some _ => g
  | none =>
      { g with ledger := some (.blank g.wiring) }.note
        (.sealing g.wiring.slots.size g.wiring.edges.size)

/-- Resolve a key, sealing the graph first. -/
def demand (g : Graph) (key : FlowKey) : Except ResolveError Unit × Graph :=
  let g := g.sealWiring
  match g with
  | ⟨wiring, markedRoots, settings, some ledger, frozen, journal⟩ =>
      let arrival := ledger.demand wiring settings.traceEvaluations key
      (arrival.result,
        ⟨wiring, markedRoots, settings, some arrival.ledger, frozen, journal ++ arrival.events⟩)
  | g => (.ok (), g)

def resolved? (g : Graph) (e : EdgeId) : Option Parameter :=
  match g.wiring.edge? e with
  | some _ => g.ledger.bind fun ledger => ledger.memo.settled? e
  | none => none

def resolve (g : Graph) (e : EdgeId) : Except GraphError Parameter × Graph :=
  match g.edge e with
  | .error error => (.error error, g)
  | .ok _ =>
      match g.demand (.edge e) with
      | (.error error, g) => (.error (.resolve error), g)
      | (.ok (), g) =>
          match g.resolved? e with
          | some value => (.ok value, g)
          | none => (.error (.unknownEdge e), g)

/-- Add a failure to a list of failures, unless it is there. -/
def addDistinct (errors : List ResolveError) (error : ResolveError) : List ResolveError :=
  if error ∈ errors then errors else errors ++ [error]

/-- Resolve edges one after another and collect the distinct failures. -/
def demandEdges (g : Graph) (errors : List ResolveError) :
    List EdgeId → List ResolveError × Graph
  | [] => (errors, g)
  | e :: rest =>
      match g.demand (.edge e) with
      | (.ok (), g) => g.demandEdges errors rest
      | (.error error, g) => g.demandEdges (addDistinct errors error) rest

/-- Resolve every edge, in order; the distinct failures are the result. -/
def resolveAll (g : Graph) : List ResolveError × Graph :=
  g.demandEdges [] g.wiring.edgeIds

def hasKey (g : Graph) : FlowKey → Bool
  | .down n | .up n => n.index < g.wiring.slots.size
  | .edge e => e.index < g.wiring.edges.size

def progress (g : Graph) (key : FlowKey) : Progress :=
  match g.ledger with
  | some ledger => if g.hasKey key then (ledger.memo.get key).progress else .unresolved
  | none => .unresolved

def failure? (g : Graph) (e : EdgeId) : Option ResolveError :=
  match g.ledger with
  | some ledger => if g.hasKey (.edge e) then (ledger.memo.get (.edge e)).failure? else none
  | none => none

def evaluations (g : Graph) : Nat :=
  match g.ledger with
  | some ledger => ledger.evaluations
  | none => 0

/-- The parameters that meet on an edge, as far as they are known. -/
def flows? (g : Graph) (edge : Edge) : Option (Parameter × Parameter) :=
  g.ledger.bind fun ledger => (Wiring.flows ledger.memo edge).toOption

end Graph

end Negotiation
