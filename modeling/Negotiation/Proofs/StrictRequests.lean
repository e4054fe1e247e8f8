import Negotiation.Proofs.Snapshot
import Negotiation.Proofs.StrictDemand

/-!
Requests without fallbacks.

The requests to a graph, with a `Strict.Lapse` for every look-up that finds nothing: building looks
up the nodes and the ports that an edge joins, resolving an edge looks up its parameter afterwards,
the search for what the roots reach looks up every node that it comes to, and handing out looks up
what there is to hand out for every reachable edge.  On a sound graph every request does what it
does with fallbacks (`Graph.Sound.faithful`), so none is ever taken, whatever is requested in
whatever order (`Strict.never_lapses`).
-/

namespace Negotiation

namespace Strict

section Definitions

/-! ### Building -/

def portAt (slot : Slot) (side : Side) (index : Nat) : Except Lapse (List EdgeId) :=
  place (slot.edges side).toArray index

def pushEdge (g : Graph) (output input : Port) (protocol : Protocol) (adapter : Adapter)
    (policy : Option Policy) : Except Lapse (EdgeId × Graph) := do
  let source ← slotAt g.wiring output.node
  let _ ← portAt source .output output.index
  let sink ← slotAt g.wiring input.node
  let _ ← portAt sink .input input.index
  return g.pushEdge output input protocol adapter policy

def pushTrunk (g : Graph) (group : FanGroup) (protocol : Protocol) (nexus : NodeId) :
    Except Lapse (EdgeId × Graph) :=
  let ends := group.mode.oriented group.single (group.trunkPort nexus)
  pushEdge g ends.1 ends.2 protocol group.trunkAdapter none

/-- Add the edge between the nexus of a group and one port of its many side. -/
def pushBranch (g : Graph) (group : FanGroup) (protocol : Protocol) (nexus : NodeId) (port : Port) :
    Except Lapse (EdgeId × Graph) :=
  let ends := group.mode.oriented (group.branchPort nexus) port
  pushEdge g ends.1 ends.2 protocol group.branchAdapter (some group.policy)

/-- Add the edges between the nexus of a group and the ports of its many side. -/
def pushBranches (g : Graph) (group : FanGroup) (protocol : Protocol) (nexus : NodeId) :
    List Port → Except Lapse (List EdgeId × Graph)
  | [] => return ([], g)
  | port :: rest => do
      let (edge, g) ← pushBranch g group protocol nexus port
      let (edges, g) ← pushBranches g group protocol nexus rest
      return (edge :: edges, g)

/-- Add the nexus, which is named after the node of the single port, and the edges of a group. -/
def pushGroup (g : Graph) (group : FanGroup) (protocol : Protocol) :
    Except Lapse (BoundGroup × Graph) := do
  let _ ← slotAt g.wiring group.single.node
  let (nexus, g) := g.pushNode (g.groupNexus group protocol)
  match group.mode with
  | .fanOut =>
      let (trunk, g) ← pushTrunk g group protocol nexus
      let (branches, g) ← pushBranches g group protocol nexus group.many
      return (⟨nexus, trunk, branches⟩, g)
  | .fanIn =>
      let (branches, g) ← pushBranches g group protocol nexus group.many
      let (trunk, g) ← pushTrunk g group protocol nexus
      return (⟨nexus, trunk, branches⟩, g)

/-- The protocol of a group; a single port that faces the wrong way is reported with the first of
the many. -/
def groupProtocol (g : Graph) (group : FanGroup) : Except Lapse (Except GraphError Protocol) :=
  if group.many.isEmpty then return .error (.invalidNode (.noCounterpart group.single))
  else
    match g.portSpec group.single with
    | .error e => return .error e
    | .ok spec => do
        let wanted := group.mode.singleSide
        if group.single.side ≠ wanted then
          let first ← place group.many.toArray 0
          let (output, input) := group.mode.oriented group.single first
          return .error (.capability output input (.wrongSide group.single wanted))
        else return .ok spec.protocol

/-- A group can be bound; its edges have the protocol of its single port. -/
def checkGroup (g : Graph) (group : FanGroup) : Except Lapse (Except GraphError Protocol) := do
  let protocol ← groupProtocol g group
  return do
    let protocol ← protocol
    g.checkCapacity group.single 0
    g.checkMany group [] group.many
    return protocol

def bindThrough (g : Graph) (output input : Port) (adapter : Adapter) :
    Except Lapse (Except GraphError EdgeId × Graph) :=
  match g.ensureOpen with
  | .error e => return (.error e, g)
  | .ok () =>
      match g.checkBinding output input with
      | .error e => return (.error e, g.note (.bindingRejected e))
      | .ok protocol => return (← pushEdge g output input protocol adapter none).map .ok id

def bindGroup (g : Graph) (group : FanGroup) :
    Except Lapse (Except GraphError BoundGroup × Graph) :=
  match g.ensureOpen with
  | .error e => return (.error e, g)
  | .ok () => do
      match ← checkGroup g group with
      | .error e => return (.error e, g.note (.groupRejected e))
      | .ok protocol => return (← pushGroup g group protocol).map .ok id

/-! ### Resolving -/

def demandKey (g : Graph) (key : FlowKey) : Except Lapse (Except ResolveError Unit × Graph) := do
  let g := g.sealWiring
  let ledger ← found .ledger g.ledger
  let arrival ← demand g.wiring g.settings.traceEvaluations ledger key
  return (arrival.result,
    { g with ledger := some arrival.ledger, journal := g.journal ++ arrival.events })

def resolve (g : Graph) (e : EdgeId) : Except Lapse (Except GraphError Parameter × Graph) :=
  match g.edge e with
  | .error error => return (.error error, g)
  | .ok _ => do
      match ← demandKey g (.edge e) with
      | (.error error, g) => return (.error (.resolve error), g)
      | (.ok (), g) =>
          let value ← found (.answer e) (g.resolved? e)
          return (.ok value, g)

/-- Resolve edges one after another and collect the distinct failures. -/
def demandEdges (g : Graph) (errors : List ResolveError) :
    List EdgeId → Except Lapse (List ResolveError × Graph)
  | [] => return (errors, g)
  | e :: rest => do
      match ← demandKey g (.edge e) with
      | (.ok (), g) => demandEdges g errors rest
      | (.error error, g) => demandEdges g (Graph.addDistinct errors error) rest

def resolveAll (g : Graph) : Except Lapse (List ResolveError × Graph) :=
  demandEdges g [] g.wiring.edgeIds

def progress (g : Graph) (key : FlowKey) : Except Lapse Progress :=
  match g.ledger with
  | some ledger =>
      if g.hasKey key then return (← entryAt ledger.memo key).progress else return .unresolved
  | none => return .unresolved

def failureOf (g : Graph) (e : EdgeId) : Except Lapse (Option ResolveError) :=
  match g.ledger with
  | some ledger =>
      if g.hasKey (.edge e) then return (← entryAt ledger.memo (.edge e)).failure? else return none
  | none => return none

/-! ### What the roots reach -/

/-- Per node that is one end of an edge, the nodes that are the other end. -/
def neighbours (w : Wiring) (key target : Edge → NodeId) : Except Lapse (Array (List Nat)) :=
  w.edges.toList.foldlM
    (fun table edge => do
      let _ ← place table (key edge).index
      return table.modify (key edge).index ((target edge).index :: ·))
    (.replicate w.slots.size [])

def meet (s : Search) (node : Nat) : Except Lapse Search := do
  let _ ← place s.met node
  return s.meet node

def advance (neighbours : Array (List Nat)) (s : Search) : Except Lapse Search :=
  match s.waiting with
  | [] => return s
  | node :: rest => do
      (← place neighbours node).foldlM meet { s with waiting := rest }

/-- So many rounds of a search, at the end of which no node waits. -/
def rounds (neighbours : Array (List Nat)) : Nat → Search → Except Lapse Search
  | 0, s =>
      match s.waiting with
      | [] => return s
      | _ => .error .ending
  | n + 1, s =>
      match s.waiting with
      | [] => return s
      | _ => do rounds neighbours n (← advance neighbours s)

def search (neighbours : Array (List Nat)) (roots : List NodeId) : Except Lapse (Array Bool) := do
  let started := roots.foldl (fun s root => s.meet root.index) (Search.blank neighbours)
  return (← rounds neighbours neighbours.size started).met

/-- The nodes to which edges lead from some roots, from one end of each edge to the other. -/
def marks (w : Wiring) (key target : Edge → NodeId) (roots : List NodeId) :
    Except Lapse (Array Bool) := do
  search (← neighbours w key target) roots

/-- Whether an edge leaves a node that a root drives, or arrives at one that drives a root. -/
def crossed (forward backward : Array Bool) (edge : Edge) : Except Lapse Bool := do
  let driven ← place forward edge.output.node.index
  let drives ← place backward edge.input.node.index
  return driven || drives

def ofRoots (w : Wiring) (roots : List NodeId) : Except Lapse Reachability := do
  let forward ← marks w (·.output.node) (·.input.node) roots
  let backward ← marks w (·.input.node) (·.output.node) roots
  let edges ← w.edges.toList.mapM (crossed forward backward)
  return ⟨forward, backward, edges.toArray⟩

/-- The roots, ascending; every node is looked at. -/
def roots (g : Graph) : Except Lapse (List NodeId) := do
  let _ ← g.wiring.nodeIds.mapM (slotAt g.wiring)
  return g.roots

def reachability (g : Graph) : Except Lapse Reachability := do
  ofRoots g.wiring (← roots g)

/-! ### Freezing -/

def boundEdge (g : Graph) (e : EdgeId) : Except Lapse BoundEdge := do
  let edge ← edgeAt g.wiring e
  let ledger ← found .ledger g.ledger
  let _ ← (flows ledger.memo edge).run
  found (.bound e) (g.boundEdge? e)

def boundNode (g : Graph) (reach : Reachability) (n : NodeId) : Except Lapse BoundNode := do
  let slot ← slotAt g.wiring n
  return ⟨n, slot.node.name, slot.inward.filter reach.edge, slot.outward.filter reach.edge⟩

def elaborate (g : Graph) (reach : Reachability) : Except Lapse BoundGraph := do
  let nodes ← (g.wiring.nodeIds.filter reach.node).mapM (boundNode g reach)
  let edges ← (g.wiring.edgeIds.filter reach.edge).mapM (boundEdge g)
  return ⟨nodes, edges⟩

/-- Hand out the reachable part of a graph without violations, and keep it. -/
def handOut (g : Graph) (reach : Reachability) : Except Lapse (BoundGraph × Graph) := do
  let bound ← elaborate g reach
  let noted := g.note (.frozen bound.nodes.length bound.edges.length g.evaluations)
  return (bound, { noted with frozen := some bound })

/-- Seal the graph, resolve every edge, and check every requirement. -/
def freeze (g : Graph) : Except Lapse (Except (List Violation) BoundGraph × Graph) :=
  match g.frozen with
  | some bound => return (.ok bound, g)
  | none => do
      let (errors, g) ← resolveAll g.sealWiring
      let reach ← reachability g
      let _ ← g.wiring.edgeIds.mapM fun e => progress g (.edge e)
      let found := g.violations errors reach
      let g := (g.noteAll g.orphanEvents.toArray).noteAll (g.unreachableEvents reach).toArray
      if found.isEmpty then return (← handOut g reach).map .ok id
      else return (.error found, g.note (.freezeFailed found.length))

/-! ### Requests -/

def build (g : Graph) : Build → Except Lapse Graph
  | .addNode node => return (g.addNode node).2
  | .markRoot n => return (g.markRoot n).2
  | .bind output input => return (← bindThrough g output input .identity).2
  | .bindThrough output input adapter => return (← bindThrough g output input adapter).2
  | .bindGroup group => return (← bindGroup g group).2

def call (g : Graph) : Call → Except Lapse Graph
  | .resolve e => return (← resolve g e).2
  | .resolveAll => return (← resolveAll g).2
  | .freeze => return (← freeze g).2

def serve (g : Graph) : Request → Except Lapse Graph
  | .build b => build g b
  | .sealWiring => return g.sealWiring
  | .call c => call g c

def serves (g : Graph) (requests : List Request) : Except Lapse Graph :=
  requests.foldlM serve g

end Definitions

section Building

/-! ### Building finds the nodes and ports that edges join -/

/-- Every node has one list of edges for each of its ports. -/
def Tabled (w : Wiring) : Prop :=
  ∀ {n slot}, w.slot? n = some slot → ∀ side, (slot.edges side).length = (slot.ports side).length

/-- The port is there, on the side. -/
def Stands (w : Wiring) (port : Port) (side : Side) : Prop :=
  port.side = side ∧ (w.spec? port).isSome = true

theorem Tabled.addEdge {w : Wiring} (h : Tabled w) (edge : Edge) : Tabled (w.addEdge edge) :=
  fun hslot => Wiring.tabled_attach (Wiring.tabled_attach h _ _) _ _ hslot

theorem Stands.mono {w v : Wiring} (hwv : w.Extends v) {port : Port} {side : Side}
    (h : Stands w port side) : Stands v port side := by
  obtain ⟨spec, hspec⟩ := Option.isSome_iff_exists.mp h.2
  exact ⟨h.1, Option.isSome_iff_exists.mpr ⟨spec, hwv.spec hspec⟩⟩

theorem Stands.of_faces {w : Wiring} {port : Port} {side : Side} {protocol : Protocol}
    (h : w.Faces port side protocol) : Stands w port side :=
  ⟨h.1, h.isSome⟩

theorem exists_portAt {w : Wiring} (htabled : Tabled w) {port : Port} {side : Side}
    (h : Stands w port side) :
    ∃ slot edges, slotAt w port.node = .ok slot ∧ portAt slot side port.index = .ok edges := by
  obtain ⟨rfl, hsome⟩ := h
  obtain ⟨slot, hslot, hlt⟩ := exists_slot_of_spec? hsome
  rw [← htabled hslot] at hlt
  exact ⟨slot, _, slotAt_eq hslot, place_of_lt (by simpa using hlt)⟩

variable {g : Graph}

theorem pushEdge_eq (htabled : Tabled g.wiring) {output input : Port}
    (houtput : Stands g.wiring output .output) (hinput : Stands g.wiring input .input)
    (protocol : Protocol) (adapter : Adapter) (policy : Option Policy) :
    pushEdge g output input protocol adapter policy =
      .ok (g.pushEdge output input protocol adapter policy) := by
  obtain ⟨source, _, hsource, hout⟩ := exists_portAt htabled houtput
  obtain ⟨sink, _, hsink, hin⟩ := exists_portAt htabled hinput
  simp only [pushEdge, hsource, hout, hsink, hin, ok_bind]
  rfl

theorem pushEdge_oriented_eq (htabled : Tabled g.wiring) {mode : GroupMode} {single other : Port}
    (hsingle : Stands g.wiring single mode.singleSide)
    (hother : Stands g.wiring other mode.manySide)
    (protocol : Protocol) (adapter : Adapter) (policy : Option Policy) :
    pushEdge g (mode.oriented single other).1 (mode.oriented single other).2 protocol adapter
        policy =
      .ok (g.pushEdge (mode.oriented single other).1 (mode.oriented single other).2 protocol adapter
        policy) := by
  cases mode with
  | fanOut => exact pushEdge_eq htabled hsingle hother protocol adapter policy
  | fanIn => exact pushEdge_eq htabled hother hsingle protocol adapter policy

section Groups

variable {group : FanGroup} (protocol : Protocol) {nexus : NodeId}

theorem pushTrunk_eq (htabled : Tabled g.wiring)
    (hsingle : Stands g.wiring group.single group.mode.singleSide)
    (hnexus : Stands g.wiring (group.trunkPort nexus) group.mode.manySide) :
    pushTrunk g group protocol nexus = .ok (g.pushTrunk group protocol nexus) := by
  rw [Graph.pushTrunk_eq]
  exact pushEdge_oriented_eq htabled hsingle hnexus protocol _ _

theorem pushBranch_eq (htabled : Tabled g.wiring)
    (hnexus : Stands g.wiring (group.branchPort nexus) group.mode.singleSide) {port : Port}
    (hport : Stands g.wiring port group.mode.manySide) :
    pushBranch g group protocol nexus port = .ok (g.pushBranch group protocol nexus port) := by
  rw [Graph.pushBranch_eq]
  exact pushEdge_oriented_eq htabled hnexus hport protocol _ _

section Kept

/-! An edge that is added takes no port away. -/

variable (group nexus)

theorem tabled_pushTrunk (htabled : Tabled g.wiring) :
    Tabled (g.pushTrunk group protocol nexus).2.wiring ∧
      g.wiring.Extends (g.pushTrunk group protocol nexus).2.wiring := by
  rw [Graph.pushTrunk_eq]
  exact ⟨htabled.addEdge _, Wiring.extends_addEdge _ _⟩

theorem tabled_pushBranch (htabled : Tabled g.wiring) (port : Port) :
    Tabled (g.pushBranch group protocol nexus port).2.wiring ∧
      g.wiring.Extends (g.pushBranch group protocol nexus port).2.wiring := by
  rw [Graph.pushBranch_eq]
  exact ⟨htabled.addEdge _, Wiring.extends_addEdge _ _⟩

theorem tabled_pushBranches (htabled : Tabled g.wiring) (ports : List Port) :
    Tabled (g.pushBranches group protocol nexus ports).2.wiring ∧
      g.wiring.Extends (g.pushBranches group protocol nexus ports).2.wiring := by
  induction ports generalizing g with
  | nil => exact ⟨htabled, .refl _⟩
  | cons port rest ih =>
      obtain ⟨hfirst, hextends⟩ := tabled_pushBranch group protocol nexus htabled port
      obtain ⟨hrest, hextends'⟩ := ih hfirst
      exact ⟨hrest, hextends.trans hextends'⟩

end Kept

theorem pushBranches_eq (htabled : Tabled g.wiring)
    (hnexus : Stands g.wiring (group.branchPort nexus) group.mode.singleSide) {ports : List Port}
    (hports : ∀ port ∈ ports, Stands g.wiring port group.mode.manySide) :
    pushBranches g group protocol nexus ports =
      .ok (g.pushBranches group protocol nexus ports) := by
  induction ports generalizing g with
  | nil => rfl
  | cons port rest ih =>
      obtain ⟨hfirst, hextends⟩ := tabled_pushBranch group protocol nexus htabled port
      have hrest := ih hfirst (hnexus.mono hextends) fun other hother =>
        (hports other (List.mem_cons_of_mem _ hother)).mono hextends
      have hbranch := pushBranch_eq protocol htabled hnexus (hports port List.mem_cons_self)
      rw [pushBranches, hbranch, ok_bind]
      simp only [hrest, ok_bind]
      rfl

/-- A group that passed the check finds its nodes and ports. -/
theorem pushGroup_eq {protocol : Protocol} (hwf : g.wiring.WellFormed)
    (hcheck : g.checkGroup group = .ok protocol) :
    pushGroup g group protocol = .ok (g.pushGroup group protocol) := by
  have hprepared := Graph.prepared_pushNode hwf group protocol
  obtain ⟨hfaces, _, _, hmany⟩ := Graph.checkGroup_ok hcheck
  obtain ⟨_, _, hslot, _⟩ := exists_portAt hwf.tabled (.of_faces hfaces)
  obtain ⟨_, hadded⟩ := hprepared.added
  obtain ⟨⟨_, htrunkSpec, _⟩, _, hbranchSpec, _⟩ := Graph.spec?_nexus hadded
  have hextends := hprepared.grows.extend
  have htabled : Tabled (g.pushNode (g.groupNexus group protocol)).2.wiring :=
    hprepared.wellFormed.tabled
  have hsingle := (Stands.of_faces hfaces).mono hextends
  have hports := fun port hport => Stands.mono hextends (Graph.side_of_checkMany hmany port hport)
  simp only [pushGroup, Graph.pushGroup, hslot, ok_bind]
  generalize g.pushNode (g.groupNexus group protocol) = pushed at *
  obtain ⟨nexus, h⟩ := pushed
  have htrunk : Stands h.wiring (group.trunkPort nexus) group.mode.manySide :=
    ⟨rfl, Option.isSome_iff_exists.mpr ⟨_, htrunkSpec⟩⟩
  have hbranch : Stands h.wiring (group.branchPort nexus) group.mode.singleSide :=
    ⟨rfl, Option.isSome_iff_exists.mpr ⟨_, hbranchSpec⟩⟩
  -- What is added first takes no port away from what is added next.
  cases hmode : group.mode with
  | fanOut =>
      obtain ⟨htabled', hextends'⟩ := tabled_pushTrunk group protocol nexus htabled
      have hbranches := pushBranches_eq protocol htabled' (hbranch.mono hextends')
        fun port hport => (hports port hport).mono hextends'
      simp only [pushTrunk_eq protocol htabled hsingle htrunk, hbranches, ok_bind]
      rfl
  | fanIn =>
      obtain ⟨htabled', hextends'⟩ := tabled_pushBranches group protocol nexus htabled group.many
      have hedge := pushTrunk_eq protocol htabled' (hsingle.mono hextends')
        (htrunk.mono hextends')
      simp only [pushBranches_eq protocol htabled hbranch hports, hedge, ok_bind]
      rfl

end Groups

theorem bindThrough_eq (hwf : g.wiring.WellFormed) (output input : Port) (adapter : Adapter) :
    bindThrough g output input adapter = .ok (g.bindThrough output input adapter) := by
  rw [bindThrough, Graph.bindThrough]
  cases g.ensureOpen with
  | error e => rfl
  | ok _ =>
      cases hcheck : g.checkBinding output input with
      | error e => rfl
      | ok protocol =>
          have hadmits := Graph.checkBinding_ok hcheck
          have hpush := pushEdge_eq hwf.tabled (.of_faces hadmits.output.1)
            (.of_faces hadmits.input.1) protocol adapter none
          simp only [hpush, ok_bind]
          rfl

theorem checkGroup_eq (g : Graph) (group : FanGroup) :
    checkGroup g group = .ok (g.checkGroup group) := by
  have hprotocol : groupProtocol g group = .ok (g.groupProtocol group) := by
    rw [groupProtocol, Graph.groupProtocol]
    cases hmany : group.many with
    | nil => rfl
    | cons first rest =>
        have hfirst : place (first :: rest).toArray 0 = .ok first := rfl
        cases g.portSpec group.single with
        | error e => rfl
        | ok spec =>
            by_cases hside : group.single.side ≠ group.mode.singleSide
            · simp only [List.isEmpty_cons, hfirst, ok_bind, if_pos hside]
              rfl
            · simp only [List.isEmpty_cons, if_neg hside]
              rfl
  rw [checkGroup, hprotocol]
  rfl

theorem bindGroup_eq (hwf : g.wiring.WellFormed) (group : FanGroup) :
    bindGroup g group = .ok (g.bindGroup group) := by
  rw [bindGroup, Graph.bindGroup]
  cases g.ensureOpen with
  | error e => rfl
  | ok _ =>
      simp only [checkGroup_eq, ok_bind]
      cases hcheck : g.checkGroup group with
      | error e => rfl
      | ok protocol =>
          simp only [pushGroup_eq hwf hcheck, ok_bind]
          rfl

end Building

section Resolving

/-! ### Resolving finds the ledger, the entries and the parameter of the edge -/

variable {g : Graph}

theorem demandKey_eq (hwf : g.wiring.WellFormed) (hsettled : g.known.Settled g.wiring)
    {key : FlowKey} (hkey : g.wiring.HasKey key) : demandKey g key = .ok (g.demand key) := by
  rw [Graph.demand_eq, demandKey, Graph.sealWiring_eq]
  simp only [found, ok_bind, demand_eq hwf hsettled hkey]
  rfl

/-- An edge that was demanded without a failure has a parameter. -/
theorem exists_resolved?_of_demand (hsettled : g.known.Settled g.wiring) {e : EdgeId}
    (he : g.wiring.HasKey (.edge e)) (hok : (g.demand (.edge e)).1 = .ok ()) :
    ∃ value, (g.demand (.edge e)).2.resolved? e = some value := by
  obtain ⟨hprogress, hsettled', hanswer⟩ := Graph.demand_spec hsettled (.edge e)
  rcases hanswer with ⟨_, values, hentry⟩ | ⟨error, herror, _⟩
  · obtain ⟨value, rfl⟩ := (hsettled'.consistent.yields hentry).edge_singleton
    refine ⟨value, ?_⟩
    rw [Graph.resolved?_eq (hprogress.wiring.symm ▸ he), hentry]
    rfl
  · rw [hok] at herror
    cases herror

theorem resolve_eq (hwf : g.wiring.WellFormed) (hsettled : g.known.Settled g.wiring) (e : EdgeId) :
    resolve g e = .ok (g.resolve e) := by
  rw [resolve, Graph.resolve]
  by_cases he : g.wiring.HasKey (.edge e)
  · have hanswer := exists_resolved?_of_demand hsettled he
    have hedge : g.edge e = .ok g.wiring.edges[e.index] := by
      rw [Graph.edge, Wiring.edge?, Array.getElem?_eq_getElem he]
    simp only [hedge, demandKey_eq hwf hsettled he, ok_bind]
    generalize g.demand (.edge e) = demanded at hanswer
    obtain ⟨_ | _, next⟩ := demanded
    · rfl
    · obtain ⟨value, hvalue⟩ := hanswer rfl
      simp only at hvalue
      simp only [hvalue, found, ok_bind]
      rfl
  · have hedge : g.edge e = .error (.unknownEdge e) := by
      rw [Graph.edge, Wiring.edge?, Array.getElem?_eq_none (Nat.le_of_not_lt he)]
    rw [hedge]
    rfl

theorem demandEdges_eq (hwf : g.wiring.WellFormed) (hsettled : g.known.Settled g.wiring)
    (errors : List ResolveError) {edges : List EdgeId}
    (hedges : ∀ e ∈ edges, g.wiring.HasKey (.edge e)) :
    demandEdges g errors edges = .ok (g.demandEdges errors edges) := by
  induction edges generalizing g errors with
  | nil => rfl
  | cons e rest ih =>
      obtain ⟨hprogress, hsettled', _⟩ := Graph.demand_spec hsettled (.edge e)
      have hwf' : (g.demand (.edge e)).2.wiring.WellFormed := hprogress.wiring.symm ▸ hwf
      have hrest := fun errors => ih hwf' hsettled' errors fun d hd => by
        rw [hprogress.wiring]
        exact hedges d (List.mem_cons_of_mem _ hd)
      rw [demandEdges, demandKey_eq hwf hsettled (hedges e List.mem_cons_self), ok_bind,
        Graph.demandEdges]
      generalize g.demand (.edge e) = demanded at hrest
      obtain ⟨_ | _, next⟩ := demanded <;> exact hrest _

theorem resolveAll_eq (hwf : g.wiring.WellFormed) (hsettled : g.known.Settled g.wiring) :
    resolveAll g = .ok g.resolveAll :=
  demandEdges_eq hwf hsettled [] fun _ he => Graph.mem_edgeIds.mp he

theorem entryAt_of_hasKey (hsettled : g.known.Settled g.wiring) {ledger : Ledger}
    (hledger : g.ledger = some ledger) {key : FlowKey} (hkey : g.hasKey key = true) :
    entryAt ledger.memo key = .ok (ledger.memo.get key) := by
  have hknown : g.known = ledger := by
    rw [Graph.known, hledger]
    rfl
  have hcovers := hsettled.consistent.covers key
  rw [hknown] at hcovers
  exact entryAt_eq (hcovers.mpr (Graph.hasKey_iff.mp hkey))

theorem progress_eq (hsettled : g.known.Settled g.wiring) (key : FlowKey) :
    progress g key = .ok (g.progress key) := by
  rw [progress, Graph.progress]
  cases hledger : g.ledger with
  | none => rfl
  | some ledger =>
      cases hkey : g.hasKey key with
      | false => rfl
      | true =>
          simp only [↓reduceIte, entryAt_of_hasKey hsettled hledger hkey, ok_bind]
          rfl

theorem failureOf_eq (hsettled : g.known.Settled g.wiring) (e : EdgeId) :
    failureOf g e = .ok (g.failure? e) := by
  rw [failureOf, Graph.failure?]
  cases hledger : g.ledger with
  | none => rfl
  | some ledger =>
      cases hkey : g.hasKey (.edge e) with
      | false => rfl
      | true =>
          simp only [↓reduceIte, entryAt_of_hasKey hsettled hledger hkey, ok_bind]
          rfl

end Resolving

section Searching

/-! ### The search finds every node that it comes to, and ends -/

open Search

variable {table : Array (List Nat)} {started : List NodeId} {s : Search}

theorem advance_eq (h : Explores table started s)
    (hlinked : ∀ m n, Linked table m n → n < table.size) :
    advance table s = .ok (s.advance table) := by
  rw [advance, Search.advance]
  cases hwaiting : s.waiting with
  | nil => rfl
  | cons node rest =>
      have hmet := h.waiting node (hwaiting ▸ List.mem_cons_self)
      have hlt : node < table.size := h.size ▸ (Array.getElem?_eq_some_iff.mp hmet).1
      have hnext := Array.getElem?_eq_getElem hlt
      have hmeet : table[node].foldlM meet { s with waiting := rest } =
          .ok (table[node].foldl Search.meet { s with waiting := rest }) ∧ _ :=
        foldlM_ok (P := fun t => t.met.size = table.size) (fun t ht n hn => ?_) h.size
      · simp only [place_of_eq_some hnext, hnext, ok_bind, Option.getD_some]
        exact hmeet.1
      · have hsize : n < t.met.size := ht ▸ hlinked node n ⟨_, hnext, hn⟩
        refine ⟨?_, (t.size_meet n).trans ht⟩
        rw [meet, place_of_lt hsize]
        rfl

/-- There is a round for every node that waits or was not met, so no node is left waiting. -/
theorem rounds_eq (h : Explores table started s)
    (hlinked : ∀ m n, Linked table m n → n < table.size) {n : Nat} (hbudget : s.budget ≤ n) :
    rounds table n s = .ok (s.rounds table n) := by
  induction n generalizing s with
  | zero =>
      have hwaiting := (h.rounds hbudget).2
      rw [Search.rounds] at hwaiting
      rw [rounds, hwaiting]
      rfl
  | succ n ih =>
      rw [rounds, Search.rounds]
      cases hwaiting : s.waiting with
      | nil => rfl
      | cons node rest =>
          obtain ⟨hnext, hless⟩ := h.advance hwaiting
          simp only [advance_eq h hlinked, ok_bind]
          exact ih hnext (by omega)

/-- A search finds the nodes that it meets, and marks every node or leaves it out. -/
theorem search_eq (hlinked : ∀ m n, Linked table m n → n < table.size) (roots : List NodeId) :
    search table roots = .ok (from? table roots) ∧ (from? table roots).size = table.size := by
  obtain ⟨hroots, hbudget⟩ := explores_roots table roots
  refine ⟨?_, (hroots.rounds (Nat.le_of_eq hbudget)).1.size⟩
  rw [search, rounds_eq hroots hlinked (Nat.le_of_eq hbudget)]
  rfl

section Tables

variable {w : Wiring} (key target : Edge → NodeId)

theorem neighbours_eq (hkey : ∀ edge ∈ w.edges.toList, (key edge).index < w.slots.size) :
    neighbours w key target = .ok (Reachability.table w key target) := by
  rw [Reachability.table, ← Array.foldl_toList]
  refine (foldlM_ok (P := fun table => table.size = w.slots.size)
    (fun table htable edge hedge => ?_) Array.size_replicate).1
  rw [place_of_lt (htable ▸ hkey edge hedge)]
  exact ⟨rfl, Array.size_modify.trans htable⟩

theorem linked_table_lt (htarget : ∀ edge ∈ w.edges.toList, (target edge).index < w.slots.size)
    {m n : Nat} (h : Linked (Reachability.table w key target) m n) :
    n < (Reachability.table w key target).size := by
  obtain ⟨hsize, hlinked⟩ := Reachability.linked_table_iff (w := w) key target
  obtain ⟨_, e, edge, hedge, _, htargets⟩ := (hlinked ⟨m⟩ ⟨n⟩).mp h
  have hlt := htarget edge (Array.mem_toList_iff.mpr (Array.mem_of_getElem? hedge))
  rwa [htargets, ← hsize] at hlt

theorem marks_eq (hkey : ∀ edge ∈ w.edges.toList, (key edge).index < w.slots.size)
    (htarget : ∀ edge ∈ w.edges.toList, (target edge).index < w.slots.size)
    (roots : List NodeId) :
    marks w key target roots = .ok (from? (Reachability.table w key target) roots) ∧
      (from? (Reachability.table w key target) roots).size = w.slots.size := by
  obtain ⟨hsearch, hsize⟩ := search_eq (fun _ _ => linked_table_lt key target htarget) roots
  rw [marks, neighbours_eq key target hkey, ok_bind]
  exact ⟨hsearch, hsize.trans (Reachability.linked_table_iff key target).1⟩

end Tables

theorem crossed_eq {forward backward : Array Bool} {edge : Edge}
    (hforward : edge.output.node.index < forward.size)
    (hbackward : edge.input.node.index < backward.size) :
    crossed forward backward edge = .ok
      (Reachability.marked forward edge.output.node ||
        Reachability.marked backward edge.input.node) := by
  rw [crossed, place_of_lt hforward, place_of_lt hbackward, Reachability.marked,
    Reachability.marked, Array.getElem?_eq_getElem hforward, Array.getElem?_eq_getElem hbackward]
  rfl

/-- Every edge lies between two nodes. -/
theorem hasKey_emitter_of_mem {w : Wiring} (hwf : w.WellFormed) (direction : Direction)
    {edge : Edge} (hedge : edge ∈ w.edges.toList) : w.HasKey (Wiring.emitter edge direction) := by
  obtain ⟨i, hi⟩ := Array.getElem?_of_mem (Array.mem_toList_iff.mp hedge)
  exact hasKey_emitter hwf (e := ⟨i⟩) hi direction

theorem ofRoots_eq {w : Wiring} (hwf : w.WellFormed) (roots : List NodeId) :
    ofRoots w roots = .ok (.ofRoots w roots) := by
  have houtput : ∀ edge ∈ w.edges.toList, edge.output.node.index < w.slots.size :=
    fun _ => hasKey_emitter_of_mem hwf .down
  have hinput : ∀ edge ∈ w.edges.toList, edge.input.node.index < w.slots.size :=
    fun _ => hasKey_emitter_of_mem hwf .up
  obtain ⟨hforward, hsize⟩ :=
    marks_eq (fun edge => edge.output.node) (fun edge => edge.input.node) houtput hinput roots
  obtain ⟨hbackward, hsize'⟩ :=
    marks_eq (fun edge => edge.input.node) (fun edge => edge.output.node) hinput houtput roots
  simp only [ofRoots, hforward, hbackward, ok_bind]
  rw [mapM_ok fun edge hedge => crossed_eq (hsize.symm ▸ houtput edge hedge)
    (hsize'.symm ▸ hinput edge hedge), ok_bind, Reachability.ofRoots, ← Array.toList_map,
    Array.toArray_toList]
  rfl

theorem roots_eq (g : Graph) : roots g = .ok g.roots := by
  have hslots : g.wiring.nodeIds.mapM (slotAt g.wiring) =
      .ok (g.wiring.nodeIds.filterMap g.wiring.slot?) := by
    refine mapM_filterMap fun n hn => ?_
    have hlt := Wiring.mem_nodeIds_iff.mp hn
    exact ⟨_, Array.getElem?_eq_getElem hlt, place_of_lt hlt⟩
  rw [roots, hslots]
  rfl

theorem reachability_eq {g : Graph} (hwf : g.wiring.WellFormed) :
    reachability g = .ok g.reachability := by
  rw [reachability, roots_eq, ok_bind, ofRoots_eq hwf]
  rfl

end Searching

section Freezing

/-! ### Freezing finds every reachable node and edge -/

variable {g : Graph}

theorem ledger_eq_known (hsealed : g.isSealed = true) : g.ledger = some g.known := by
  obtain ⟨ledger, hledger⟩ := Option.isSome_iff_exists.mp hsealed
  rw [Graph.known, hledger]
  rfl

theorem exists_boundEdge (hsound : g.Sound) {e : EdgeId} (he : e ∈ g.wiring.edgeIds)
    (hresolved : g.progress (.edge e) = .resolved) :
    ∃ bound, g.boundEdge? e = some bound ∧ boundEdge g e = .ok bound := by
  have hkey := Graph.mem_edgeIds.mp he
  have hedge : g.wiring.edge? e = some g.wiring.edges[e.index] := Array.getElem?_eq_getElem hkey
  obtain ⟨bound, _, hbound, _⟩ := hsound.exists_boundEdge he hresolved
  rw [Graph.progress_eq hkey] at hresolved
  obtain ⟨values, hentry⟩ := Entry.progress_eq_resolved_iff.mp hresolved
  -- The edge was evaluated, so what crosses it from both ends was found then and is found again.
  obtain ⟨hsupports, _⟩ := hsound.settled.consistent.evaluate_of_resolved hentry
  have hsealed := Graph.isSealed_of_isTerminal hkey (by rw [hentry]; rfl)
  refine ⟨bound, hbound, ?_⟩
  simp only [boundEdge, edgeAt_eq hedge, ledger_eq_known hsealed, found, ok_bind,
    flows_eq hsound.wellFormed hedge hsupports, hbound]
  rfl

theorem exists_boundNode (reach : Reachability) {n : NodeId} (hn : n ∈ g.wiring.nodeIds) :
    ∃ bound, g.boundNode? reach n = some bound ∧ boundNode g reach n = .ok bound := by
  obtain ⟨slot, hslot⟩ : ∃ slot, g.wiring.slot? n = some slot :=
    ⟨_, Array.getElem?_eq_getElem (Wiring.mem_nodeIds_iff.mp hn)⟩
  refine ⟨⟨n, slot.node.name, slot.inward.filter reach.edge, slot.outward.filter reach.edge⟩,
    ?_, ?_⟩
  · rw [Graph.boundNode?, hslot]
    rfl
  · rw [boundNode, slotAt_eq hslot]
    rfl

/-- In a sound graph without unresolved edges, nothing reachable is left out. -/
theorem elaborate_eq (hsound : g.Sound) (reach : Reachability)
    (hresolved : ∀ e ∈ g.wiring.edgeIds, g.progress (.edge e) = .resolved) :
    elaborate g reach = .ok (g.elaborate reach) := by
  have hnodes : (g.wiring.nodeIds.filter reach.node).mapM (boundNode g reach) =
      .ok ((g.wiring.nodeIds.filter reach.node).filterMap (g.boundNode? reach)) :=
    mapM_filterMap fun n hn => exists_boundNode reach (List.mem_of_mem_filter hn)
  have hedges : (g.wiring.edgeIds.filter reach.edge).mapM (boundEdge g) =
      .ok ((g.wiring.edgeIds.filter reach.edge).filterMap g.boundEdge?) :=
    mapM_filterMap fun e he => exists_boundEdge hsound (List.mem_of_mem_filter he)
      (hresolved e (List.mem_of_mem_filter he))
  rw [elaborate, hnodes, ok_bind, hedges]
  rfl

theorem handOut_eq (hsound : g.Sound) (reach : Reachability)
    (hresolved : ∀ e ∈ g.wiring.edgeIds, g.progress (.edge e) = .resolved) :
    handOut g reach = .ok (g.handOut reach) := by
  rw [handOut, elaborate_eq hsound reach hresolved]
  rfl

/-- A graph without violations has no unresolved edge. -/
theorem progress_of_isEmpty {errors : List ResolveError} {reach : Reachability}
    (h : (g.violations errors reach).isEmpty = true) :
    ∀ e ∈ g.wiring.edgeIds, g.progress (.edge e) = .resolved := by
  intro e he
  rw [List.isEmpty_iff, Graph.violations] at h
  simp only [List.append_eq_nil_iff] at h
  have hnone := List.filterMap_eq_nil_iff.mp h.1.1.1.2 e he
  by_contra hnot
  rw [if_neg hnot] at hnone
  cases hnone

theorem freeze_eq (hsound : g.Sound) : freeze g = .ok g.freeze := by
  rw [freeze, Graph.freeze]
  cases g.frozen with
  | some bound => rfl
  | none =>
      have hsealed := hsound.sealWiring
      have hsettled : g.sealWiring.resolveAll.2.Sound := (hsealed.call .resolveAll).2
      simp only [resolveAll_eq hsealed.wellFormed hsealed.settled, ok_bind]
      generalize g.sealWiring.resolveAll = resolved at hsettled
      obtain ⟨errors, h⟩ := resolved
      have hprogress : h.wiring.edgeIds.mapM (fun e => progress h (.edge e)) = .ok _ :=
        mapM_ok fun e _ => progress_eq hsettled.settled (.edge e)
      simp only [reachability_eq hsettled.wellFormed, hprogress, ok_bind]
      cases hempty : (h.violations errors h.reachability).isEmpty with
      | false => rfl
      | true =>
          -- What is noted changes nothing but the journal.
          let noted := (h.noteAll h.orphanEvents.toArray).noteAll
            (h.unreachableEvents h.reachability).toArray
          have hnoted : noted.Sound := ⟨hsettled.wellFormed, hsettled.settled, hsettled.handedOut⟩
          have hhandOut := handOut_eq hnoted h.reachability (progress_of_isEmpty hempty)
          simp only [↓reduceIte]
          rw [hhandOut]
          rfl

end Freezing

end Strict

/-- Every operation on the graph gives what it gives, without a look-up that finds nothing. -/
structure Graph.Faithful (g : Graph) : Prop where
  bindThrough : ∀ output input adapter,
    Strict.bindThrough g output input adapter = .ok (g.bindThrough output input adapter)
  bindGroup : ∀ group, Strict.bindGroup g group = .ok (g.bindGroup group)
  resolve : ∀ e, Strict.resolve g e = .ok (g.resolve e)
  resolveAll : Strict.resolveAll g = .ok g.resolveAll
  freeze : Strict.freeze g = .ok g.freeze
  progress : ∀ key, Strict.progress g key = .ok (g.progress key)
  failure : ∀ e, Strict.failureOf g e = .ok (g.failure? e)
  roots : Strict.roots g = .ok g.roots
  reachability : Strict.reachability g = .ok g.reachability

theorem Graph.Sound.faithful {g : Graph} (hsound : g.Sound) : g.Faithful where
  bindThrough := Strict.bindThrough_eq hsound.wellFormed
  bindGroup := Strict.bindGroup_eq hsound.wellFormed
  resolve := Strict.resolve_eq hsound.wellFormed hsound.settled
  resolveAll := Strict.resolveAll_eq hsound.wellFormed hsound.settled
  freeze := Strict.freeze_eq hsound
  progress := Strict.progress_eq hsound.settled
  failure := Strict.failureOf_eq hsound.settled
  roots := Strict.roots_eq g
  reachability := Strict.reachability_eq hsound.wellFormed

namespace Strict

theorem serve_eq {g : Graph} (h : g.Faithful) (request : Request) :
    serve g request = .ok (g.serve request) := by
  cases request with
  | build b =>
      cases b with
      | addNode node => rfl
      | markRoot n => rfl
      | bind output input => simp only [serve, build, h.bindThrough, ok_bind]; rfl
      | bindThrough output input adapter => simp only [serve, build, h.bindThrough, ok_bind]; rfl
      | bindGroup group => simp only [serve, build, h.bindGroup, ok_bind]; rfl
  | sealWiring => rfl
  | call c =>
      cases c with
      | resolve e => simp only [serve, call, h.resolve, ok_bind]; rfl
      | resolveAll => simp only [serve, call, h.resolveAll, ok_bind]; rfl
      | freeze => simp only [serve, call, h.freeze, ok_bind]; rfl

/-- Whatever is requested, in whatever order, and whether it is granted or refused: no look-up finds
nothing on the way, and none will in what is asked of the graph that the requests lead to. -/
theorem never_lapses (settings : Settings) (requests : List Request) :
    serves (.empty settings) requests = .ok (Graph.after settings requests) ∧
      (Graph.after settings requests).Faithful := by
  obtain ⟨hserves, hsound⟩ := foldlM_ok (P := Graph.Sound) (f := serve) (g := Graph.serve)
    (fun g hsound request _ => ⟨serve_eq hsound.faithful request, (hsound.serve request).1⟩)
    (Graph.sound_empty settings)
  exact ⟨hserves, hsound.faithful⟩

end Strict

end Negotiation
