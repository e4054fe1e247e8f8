import Negotiation.Proofs.Grouping
import Negotiation.Proofs.Satisfaction

/-!
Nodes that pass parameters through are transparent.

A line is a source, any number of nodes that pass parameters through, and a sink, each bound to the
next.  Downward the offer of the source is conveyed from node to node, upward the demand of the sink
(`Wiring.Conveys.yields_iff`), so every edge of the line settles the offer with the demand as if it
joined the source to the sink (`Wiring.Spans.yields_iff`).  Lines of every length can be built
(`Graph.isLine_serves`), and whatever has happened before, each of their edges that is demanded
comes to that outcome (`Graph.stages_transparent`).
-/

namespace Negotiation

/-- The offer fits what flows downward in the protocol, and the demand what flows upward. -/
def Protocol.Fits (protocol : Protocol) (offer demand : Parameter) : Prop :=
  (protocol.schema .down).admits offer = true ∧ (protocol.schema .up).admits demand = true

instance (protocol : Protocol) (offer demand : Parameter) :
    Decidable (protocol.Fits offer demand) :=
  inferInstanceAs (Decidable (_ ∧ _))

namespace Wiring

/-- What a source or a sink states in a direction is passed on as far as this node: over edges that
pass parameters on as they are, by nodes that do. -/
inductive Conveys (w : Wiring) (direction : Direction) (protocol : Protocol) (value : Parameter) :
    NodeId → Prop
  | states {n : NodeId} {node : Node} (hnode : w.node? n = some node)
      (hstates : node.statement? direction = some (protocol, value)) :
      Conveys w direction protocol value n
  | passes {m n : NodeId} {e : EdgeId} {edge : Edge} {name : String}
      (h : Conveys w direction protocol value m) (hedge : w.edge? e = some edge)
      (hfrom : edge.origin direction = ⟨m, direction.departure, 0⟩)
      (hto : edge.port direction.arrival = ⟨n, direction.arrival, 0⟩)
      (hadapter : edge.adapter = .identity) (hprotocol : edge.protocol = protocol)
      (hnode : w.node? n = some (.identity name protocol)) : Conveys w direction protocol value n

/-- The edge has no adapter and no policy of its own; an offer is conveyed to the node that it
leaves, and a demand to the node at which it arrives. -/
structure Spans (w : Wiring) (protocol : Protocol) (offer demand : Parameter) (e : EdgeId)
    (source sink : NodeId) : Prop where
  edge : w.edge? e = some ⟨e, source.output 0, sink.input 0, protocol, .identity, none⟩
  down : w.Conveys .down protocol offer source
  up : w.Conveys .up protocol demand sink

section Conveying

variable {w : Wiring} {direction : Direction} {protocol : Protocol} {value : Parameter}

/-- An edge that passes on as it is what a node emits. -/
theorem crosses_iff_of_yields {m : NodeId} {edge : Edge}
    (hyields : ∀ out, w.Yields (direction.key m) out ↔
      (protocol.schema direction).admits value = true ∧ out = [value])
    (hfrom : edge.origin direction = ⟨m, direction.departure, 0⟩)
    (hadapter : edge.adapter = .identity) (hprotocol : edge.protocol = protocol)
    {crossed : Parameter} : w.Crosses edge direction crossed ↔
      (protocol.schema direction).admits value = true ∧ crossed = value := by
  have hemitter : emitter edge direction = direction.key m := by
    rw [emitter_eq, hfrom]
  have hsingle : ∀ values, w.Yields (emitter edge direction) values → ∃ v, values = [v] := by
    intro values hvalues
    rw [hemitter, hyields] at hvalues
    exact ⟨value, hvalues.2⟩
  rw [Graph.crosses_iff_of_singleton hadapter (by rw [hfrom]) hsingle, hemitter, hyields, hprotocol]
  constructor
  · rintro ⟨⟨hadmits, hsame⟩, _⟩
    exact ⟨hadmits, List.singleton_injective hsame⟩
  · rintro ⟨hadmits, rfl⟩
    exact ⟨⟨hadmits, rfl⟩, hadmits⟩

/-- The port of a node that passes parameters through takes one edge. -/
theorem portEdges_identity (hwf : w.WellFormed) (horderly : w.Orderly) {n : NodeId} {name : String}
    (hnode : w.node? n = some (.identity name protocol)) {e : EdgeId} {edge : Edge} {side : Side}
    (hedge : w.edge? e = some edge) (hport : edge.port side = ⟨n, side, 0⟩) :
    w.portEdges ⟨n, side, 0⟩ = [e] := by
  have hspec : ∃ spec, w.spec? ⟨n, side, 0⟩ = some spec ∧ spec.cardinality = .exactly 1 := by
    simp only [spec?, hnode, Option.bind_some]
    cases side <;> exact ⟨_, rfl, rfl⟩
  obtain ⟨spec, hspec, hexactly⟩ := hspec
  refine horderly.portEdges_eq hspec (by rw [hexactly]; rfl) (List.pairwise_singleton _ _) ?_
  intro d hd
  rw [List.mem_singleton.mp hd, ← hport]
  refine hwf.attached.mpr ⟨edge, hedge, ?_⟩
  cases side with
  | input => exact Or.inr rfl
  | output => exact Or.inl rfl

/-- A node to which a value is conveyed emits that value, if it fits the protocol. -/
theorem Conveys.yields_iff {n : NodeId} (h : w.Conveys direction protocol value n)
    (hwf : w.WellFormed) (horderly : w.Orderly) (out : List Parameter) :
    w.Yields (direction.key n) out ↔
      (protocol.schema direction).admits value = true ∧ out = [value] := by
  induction h generalizing out with
  | states hnode hstates => exact yields_statement_iff hwf hnode hstates
  | passes _ hedge hfrom hto hadapter hprotocol hnode ih =>
      rw [yields_identity_iff hwf hnode hedge (portEdges_identity hwf horderly hnode hedge hto)]
      simp only [crosses_iff_of_yields ih hfrom hadapter hprotocol]
      constructor
      · rintro ⟨_, ⟨hadmits, rfl⟩, _, rfl⟩
        exact ⟨hadmits, rfl⟩
      · rintro ⟨hadmits, rfl⟩
        exact ⟨value, ⟨hadmits, rfl⟩, hadmits, rfl⟩

end Conveying

namespace Spans

variable {w : Wiring} {protocol : Protocol} {offer demand : Parameter} {e : EdgeId}
  {source sink : NodeId} (h : w.Spans protocol offer demand e source sink) (hwf : w.WellFormed)
  (horderly : w.Orderly)

include h hwf horderly

/-- What crosses the edge is the offer downward and the demand upward. -/
theorem crosses_down_iff {crossed : Parameter} :
    w.Crosses ⟨e, source.output 0, sink.input 0, protocol, .identity, none⟩ .down crossed ↔
      (protocol.schema .down).admits offer = true ∧ crossed = offer :=
  crosses_iff_of_yields (h.down.yields_iff hwf horderly) rfl rfl rfl

theorem crosses_up_iff {crossed : Parameter} :
    w.Crosses ⟨e, source.output 0, sink.input 0, protocol, .identity, none⟩ .up crossed ↔
      (protocol.schema .up).admits demand = true ∧ crossed = demand :=
  crosses_iff_of_yields (h.up.yields_iff hwf horderly) rfl rfl rfl

/-- The edge resolves to the merge of the offer and the demand, if both fit the protocol. -/
theorem yields_iff {out : List Parameter} : w.Yields (.edge e) out ↔
    protocol.Fits offer demand ∧ ∃ v, protocol.merge.merge offer demand = .ok v ∧ out = [v] := by
  rw [yields_edge_iff h.edge]
  simp only [h.crosses_down_iff hwf horderly, h.crosses_up_iff hwf horderly]
  constructor
  · rintro ⟨_, _, v, ⟨hdown, rfl⟩, ⟨hup, rfl⟩, hmerge, hout⟩
    exact ⟨⟨hdown, hup⟩, v, hmerge, hout⟩
  · rintro ⟨⟨hdown, hup⟩, v, hmerge, hout⟩
    exact ⟨offer, demand, v, ⟨hdown, rfl⟩, ⟨hup, rfl⟩, hmerge, hout⟩

/-- The edge refuses an offer and a demand that fit the protocol and that it does not merge. -/
theorem refuses (hfits : protocol.Fits offer demand) {reason : Reason}
    (hmerge : protocol.merge.merge offer demand = .error reason) :
    w.Refuses (.edge e) (.mismatch ⟨.edge e, some e, reason⟩) :=
  Crosses.refuses h.edge ((h.crosses_down_iff hwf horderly).mpr ⟨hfits.1, rfl⟩)
    ((h.crosses_up_iff hwf horderly).mpr ⟨hfits.2, rfl⟩) hmerge

end Spans

/-- A source, nodes that pass parameters through, and a sink, all of one protocol and each bound to
the next without an adapter.  The nodes in between are those at the places from 1 to `length`. -/
structure IsLine (w : Wiring) (protocol : Protocol) (offer demand : Parameter) (length : Nat)
    (node : Nat → NodeId) (edge : Nat → EdgeId) : Prop where
  source : ∃ name cardinality, w.node? (node 0) = some (.source name protocol cardinality offer)
  between : ∀ i, 0 < i → i ≤ length → ∃ name, w.node? (node i) = some (.identity name protocol)
  sink : ∃ name cardinality,
    w.node? (node (length + 1)) = some (.sink name protocol cardinality demand)
  bound : ∀ i ≤ length, w.edge? (edge i) =
    some ⟨edge i, (node i).output 0, (node (i + 1)).input 0, protocol, .identity, none⟩

namespace IsLine

variable {w : Wiring} {protocol : Protocol} {offer demand : Parameter} {length : Nat}
  {node : Nat → NodeId} {edge : Nat → EdgeId} (h : w.IsLine protocol offer demand length node edge)

include h

/-- The offer is conveyed to every node but the sink, by induction on the place. -/
theorem conveys_down {i : Nat} (hi : i ≤ length) : w.Conveys .down protocol offer (node i) := by
  induction i with
  | zero =>
      obtain ⟨_, _, hsource⟩ := h.source
      exact .states hsource rfl
  | succ i ih =>
      obtain ⟨_, hnode⟩ := h.between (i + 1) i.succ_pos hi
      exact .passes (ih (by omega)) (h.bound i (by omega)) rfl rfl rfl rfl hnode

/-- The demand is conveyed to every node but the source, by induction on the distance from the
sink. -/
theorem conveys_up {i : Nat} (hi : i ≤ length) : w.Conveys .up protocol demand (node (i + 1)) := by
  induction hi using Nat.decreasingInduction with
  | self =>
      obtain ⟨_, _, hsink⟩ := h.sink
      exact .states hsink rfl
  | of_succ i hi ih =>
      obtain ⟨_, hnode⟩ := h.between (i + 1) i.succ_pos hi
      exact .passes ih (h.bound (i + 1) hi) rfl rfl rfl rfl hnode

theorem spans {i : Nat} (hi : i ≤ length) :
    w.Spans protocol offer demand (edge i) (node i) (node (i + 1)) :=
  ⟨h.bound i hi, h.conveys_down hi, h.conveys_up hi⟩

end IsLine

end Wiring

/-- The node at a place of a line. -/
def lineNode (names : Nat → String) (protocol : Protocol) (offer demand : Parameter)
    (length : Nat) : Nat → Node
  | 0 => .source (names 0) protocol (.exactly 1) offer
  | i + 1 =>
      if i < length then .identity (names (i + 1)) protocol
      else .sink (names (i + 1)) protocol (.exactly 1) demand

/-- The requests that add the nodes up to a place, each bound to the one before it, where the first
of them gets this number. -/
def lineRequests (node : Nat → Node) (first : Nat) : Nat → List Request
  | 0 => [.build (.addNode (node 0))]
  | i + 1 => lineRequests node first i ++ [.build (.addNode (node (i + 1))),
      .build (.bind (NodeId.output ⟨first + i⟩ 0) (NodeId.input ⟨first + i + 1⟩ 0))]

section Nodes

variable (names : Nat → String) (protocol : Protocol) (offer demand : Parameter) {length : Nat}

theorem fault_lineNode (i : Nat) :
    Slot.fault (lineNode names protocol offer demand length i) = none := by
  cases i with
  | zero => rfl
  | succ i =>
      rw [lineNode]
      split <;> rfl

theorem outputs_lineNode {i : Nat} (hi : i ≤ length) :
    (lineNode names protocol offer demand length i).sidePorts .output =
      [⟨"out", .output, protocol, .exactly 1⟩] := by
  cases i with
  | zero => rfl
  | succ i =>
      rw [lineNode, if_pos (Nat.lt_of_succ_le hi)]
      rfl

theorem inputs_lineNode (i : Nat) :
    (lineNode names protocol offer demand length (i + 1)).sidePorts .input =
      [⟨"in", .input, protocol, .exactly 1⟩] := by
  rw [lineNode]
  split <;> rfl

end Nodes

namespace Graph

section Building

variable {g h : Graph} {node : Nat → Node} {protocol : Protocol}

theorem serves_append (g : Graph) (first second : List Request) :
    g.serves (first ++ second) = (g.serves first).serves second :=
  List.foldl_append

theorem serve_addNode (hopen : g.isSealed = false) {added : Node}
    (hfault : Slot.fault added = none) :
    g.serve (.build (.addNode added)) = (g.pushNode added).2 := by
  rw [serve, build, addNode, ensureOpen_of_open hopen, hfault]
  rfl

theorem serve_bind (hopen : g.isSealed = false) {output input : Port}
    (hcheck : g.checkBinding output input = .ok protocol) :
    g.serve (.build (.bind output input)) =
      (g.pushEdge output input protocol .identity none).2 := by
  rw [serve, build, bind, bindThrough, ensureOpen_of_open hopen, hcheck]
  rfl

/-- Two free ports of one protocol, on different nodes, can be bound to one another. -/
theorem checkBinding_of_free {m n : NodeId} (hapart : m ≠ n)
    (houtput : g.wiring.spec? (m.output 0) = some ⟨"out", .output, protocol, .exactly 1⟩)
    (hinput : g.wiring.spec? (n.input 0) = some ⟨"in", .input, protocol, .exactly 1⟩)
    (hleaves : g.wiring.portEdges (m.output 0) = [])
    (harrives : g.wiring.portEdges (n.input 0) = []) :
    g.checkBinding (m.output 0) (n.input 0) = .ok protocol := by
  have htakes : ∀ {port : Port} {spec : PortSpec}, g.wiring.spec? port = some spec →
      spec.cardinality = .exactly 1 → g.wiring.portEdges port = [] → g.wiring.Takes port 1 := by
    intro port spec hspec hexactly hnone
    refine ⟨spec, hspec, fun max hmax => ?_⟩
    rw [Wiring.connectionCount_eq, hnone]
    rw [hexactly] at hmax
    exact Nat.le_of_eq (Option.some.inj hmax)
  have hpair : g.checkPair (m.output 0) (n.input 0) = .ok () :=
    checkPair_eq_ok_iff.mpr ⟨rfl, rfl, hapart, _, _, houtput, hinput, .refl protocol⟩
  have hroom : g.checkCapacity (m.output 0) 0 = .ok () :=
    checkCapacity_eq_ok_iff.mpr (htakes houtput rfl hleaves)
  have hroom' : g.checkCapacity (n.input 0) 0 = .ok () :=
    checkCapacity_eq_ok_iff.mpr (htakes hinput rfl harrives)
  exact bind_eq_ok_iff.mpr ⟨(), hpair, bind_eq_ok_iff.mpr ⟨(), hroom,
    bind_eq_ok_iff.mpr ⟨(), hroom', bind_eq_ok_iff.mpr ⟨_, portSpec_of_spec? houtput, rfl⟩⟩⟩⟩

/-- A node is added and bound to a node that is there and whose output is free. -/
theorem serves_next (hopen : g.isSealed = false) {last : NodeId} {found added : Node}
    (hlast : g.wiring.node? last = some found)
    (houtput : found.sidePorts .output = [⟨"out", .output, protocol, .exactly 1⟩])
    (hfree : g.wiring.portEdges (last.output 0) = []) (hfault : Slot.fault added = none)
    (hinput : added.sidePorts .input = [⟨"in", .input, protocol, .exactly 1⟩]) :
    g.serves [.build (.addNode added),
        .build (.bind (last.output 0) (NodeId.input ⟨g.wiring.slots.size⟩ 0))] =
      ((g.pushNode added).2.pushEdge (last.output 0) (NodeId.input ⟨g.wiring.slots.size⟩ 0) protocol
        .identity none).2 ∧
      (g.wiring.addSlot (.ofNode added)).Admits (last.output 0)
        (NodeId.input ⟨g.wiring.slots.size⟩ 0) protocol := by
  have hnew : (g.wiring.addSlot (.ofNode added)).node? ⟨g.wiring.slots.size⟩ = some added :=
    (Wiring.node?_addSlot _ _ _).trans (if_pos rfl)
  have hkept := (g.wiring.extends_addSlot added).node hlast
  have hcheck : (g.pushNode added).2.checkBinding (last.output 0)
      (NodeId.input ⟨g.wiring.slots.size⟩ 0) = .ok protocol := by
    refine checkBinding_of_free (fun hsame => ?_) ?_ ?_ ?_ ?_
    · rw [hsame, Wiring.node?, Wiring.slot?_size] at hlast
      cases hlast
    · exact Option.bind_eq_some_iff.mpr ⟨found, hkept, congrArg (·[0]?) houtput⟩
    · exact Option.bind_eq_some_iff.mpr ⟨added, hnew, congrArg (·[0]?) hinput⟩
    · exact (Wiring.portEdges_addSlot _ _ _).trans hfree
    · exact (Wiring.portEdges_addSlot _ _ _).trans (Wiring.portEdges_size _ _ _)
  have hopened : (g.pushNode added).2.isSealed = false := hopen
  refine ⟨?_, checkBinding_ok hcheck⟩
  rw [serves, List.foldl_cons, List.foldl_cons, List.foldl_nil, serve_addNode hopen hfault,
    serve_bind hopened hcheck]

/-- The second graph is the first after the nodes up to a place were added to it, each bound to the
one before it; nothing is bound to the output of the last. -/
structure Lays (node : Nat → Node) (protocol : Protocol) (place : Nat) (g h : Graph) : Prop where
  reachable : h.Reachable
  opened : h.isSealed = false
  slots : h.wiring.slots.size = g.wiring.slots.size + place + 1
  edges : h.wiring.edges.size = g.wiring.edges.size + place
  node : ∀ i ≤ place, h.wiring.node? ⟨g.wiring.slots.size + i⟩ = some (node i)
  bound : ∀ i < place, h.wiring.edge? ⟨g.wiring.edges.size + i⟩ =
    some ⟨⟨g.wiring.edges.size + i⟩, NodeId.output ⟨g.wiring.slots.size + i⟩ 0,
      NodeId.input ⟨g.wiring.slots.size + i + 1⟩ 0, protocol, .identity, none⟩
  free : h.wiring.portEdges (NodeId.output ⟨g.wiring.slots.size + place⟩ 0) = []

theorem lays_first (hg : g.Reachable) (hopen : g.isSealed = false)
    (hfault : Slot.fault (node 0) = none) :
    Lays node protocol 0 g (g.serve (.build (.addNode (node 0)))) := by
  have hserve := serve_addNode hopen hfault
  have hreachable := hg.serve (.build (.addNode (node 0)))
  rw [hserve] at hreachable ⊢
  refine ⟨hreachable, hopen, Array.size_push _, rfl, fun i hi => ?_,
    fun i hi => absurd hi (Nat.not_lt_zero i), ?_⟩
  · obtain rfl : i = 0 := Nat.le_zero.mp hi
    exact (Wiring.node?_addSlot _ _ _).trans (if_pos rfl)
  · exact (Wiring.portEdges_addSlot _ _ _).trans (Wiring.portEdges_size _ _ _)

/-- One more node is added and bound to the last. -/
theorem Lays.next {i : Nat} (hgh : Lays node protocol i g h)
    (houtput : (node i).sidePorts .output = [⟨"out", .output, protocol, .exactly 1⟩])
    (hfault : Slot.fault (node (i + 1)) = none)
    (hinput : (node (i + 1)).sidePorts .input = [⟨"in", .input, protocol, .exactly 1⟩]) :
    Lays node protocol (i + 1) g (h.serves [.build (.addNode (node (i + 1))),
      .build (.bind (NodeId.output ⟨g.wiring.slots.size + i⟩ 0)
        (NodeId.input ⟨g.wiring.slots.size + i + 1⟩ 0))]) := by
  obtain ⟨hserves, hadmits⟩ := serves_next hgh.opened (hgh.node i (Nat.le_refl i)) houtput hgh.free
    hfault hinput
  have hreachable := hgh.reachable.serves [.build (.addNode (node (i + 1))),
    .build (.bind (NodeId.output ⟨g.wiring.slots.size + i⟩ 0)
      (NodeId.input ⟨g.wiring.slots.size + i + 1⟩ 0))]
  rw [← hgh.slots] at hreachable ⊢
  rw [hserves] at hreachable ⊢
  have hgrown := (h.wiring.extends_addSlot (node (i + 1))).trans (Wiring.extends_addEdge _
    ⟨⟨h.wiring.edges.size⟩, NodeId.output ⟨g.wiring.slots.size + i⟩ 0,
      NodeId.input ⟨h.wiring.slots.size⟩ 0, protocol, .identity, none⟩)
  refine ⟨hreachable, hgh.opened, ?_, ?_, fun j hj => ?_, fun j hj => ?_, ?_⟩
  · refine (Wiring.size_slots_foldl_addEdge _ [_]).trans ((Array.size_push _).trans ?_)
    rw [hgh.slots, Nat.add_assoc g.wiring.slots.size]
  · refine (Wiring.size_addEdge _ _).trans ?_
    exact congrArg (· + 1) hgh.edges
  · rcases Nat.lt_or_eq_of_le hj with hlt | rfl
    · exact hgrown.node (hgh.node j (Nat.le_of_lt_succ hlt))
    · refine (Wiring.node?_addEdge _ _ _).trans ((Wiring.node?_addSlot _ _ _).trans (if_pos ?_))
      exact congrArg NodeId.mk hgh.slots.symm
  · rcases Nat.lt_or_eq_of_le (Nat.le_of_lt_succ hj) with hlt | rfl
    · exact hgrown.edge (hgh.bound j hlt)
    · rw [← hgh.edges, ← hgh.slots]
      exact (Wiring.edge?_addEdge _ _ _).trans (if_pos rfl)
  · have hother : ¬ (NodeId.output ⟨g.wiring.slots.size + i⟩ 0 =
          NodeId.output ⟨g.wiring.slots.size + (i + 1)⟩ 0 ∨
        NodeId.input ⟨h.wiring.slots.size⟩ 0 =
          NodeId.output ⟨g.wiring.slots.size + (i + 1)⟩ 0) := by
      rintro (hsame | hsame)
      · have hindex : g.wiring.slots.size + i = g.wiring.slots.size + (i + 1) :=
          congrArg (·.node.index) hsame
        omega
      · cases congrArg Port.side hsame
    refine (Wiring.portEdges_addEdge (hgh.reachable.sound.wellFormed.addSlot _) hadmits _).trans ?_
    rw [if_neg hother, Wiring.portEdges_addSlot, ← Nat.add_assoc, ← hgh.slots]
    exact Wiring.portEdges_size _ _ _

/-- Nodes that can be bound in a row are added and bound up to every place. -/
theorem lays_serves (hg : g.Reachable) (hopen : g.isSealed = false) {length : Nat}
    (hfault : ∀ i, Slot.fault (node i) = none)
    (houtput : ∀ i ≤ length, (node i).sidePorts .output = [⟨"out", .output, protocol, .exactly 1⟩])
    (hinput : ∀ i, (node (i + 1)).sidePorts .input = [⟨"in", .input, protocol, .exactly 1⟩])
    {place : Nat} (hplace : place ≤ length + 1) :
    Lays node protocol place g (g.serves (lineRequests node g.wiring.slots.size place)) := by
  induction place with
  | zero => exact lays_first hg hopen (hfault 0)
  | succ i ih =>
      rw [lineRequests, serves_append]
      exact (ih (by omega)).next (houtput i (by omega)) (hfault (i + 1)) (hinput i)

/-- A line of any length can be added to an open graph. -/
theorem isLine_serves (hg : g.Reachable) (hopen : g.isSealed = false) (names : Nat → String)
    (protocol : Protocol) (offer demand : Parameter) (length : Nat) :
    (g.serves (lineRequests (lineNode names protocol offer demand length) g.wiring.slots.size
      (length + 1))).wiring.IsLine protocol offer demand length
        (fun i => ⟨g.wiring.slots.size + i⟩) (fun i => ⟨g.wiring.edges.size + i⟩) := by
  have hlays := lays_serves hg hopen (fault_lineNode names protocol offer demand)
    (fun i hi => outputs_lineNode names protocol offer demand hi)
    (inputs_lineNode names protocol offer demand) (Nat.le_refl (length + 1))
  refine ⟨⟨_, _, hlays.node 0 (Nat.zero_le _)⟩, fun i hpos hi => ?_, ?_,
    fun i hi => hlays.bound i (Nat.lt_succ_of_le hi)⟩
  · obtain ⟨i, rfl⟩ := Nat.exists_eq_succ_of_ne_zero (Nat.ne_of_gt hpos)
    refine ⟨names (i + 1), (hlays.node (i + 1) (Nat.le_succ_of_le hi)).trans ?_⟩
    rw [lineNode, if_pos (Nat.lt_of_succ_le hi)]
  · refine ⟨names (length + 1), .exactly 1, (hlays.node (length + 1) (Nat.le_refl _)).trans ?_⟩
    rw [lineNode, if_neg (Nat.lt_irrefl _)]

end Building

/-- What an edge shows that settles an offer with a demand. -/
structure Negotiates (g : Graph) (protocol : Protocol) (offer demand : Parameter) (e : EdgeId)
    (output input : Port) : Prop where
  resolves : ∀ v, protocol.Fits offer demand → protocol.merge.merge offer demand = .ok v →
    g.progress (.edge e) = .resolved ∧ g.resolved? e = some v ∧
      g.boundEdge? e = some ⟨e, output, input, protocol.name, offer, demand, v⟩
  fails : ¬ (protocol.Fits offer demand ∧ ∃ v, protocol.merge.merge offer demand = .ok v) →
    g.progress (.edge e) = .failed
  /-- The failure of a merge is that of the edge. -/
  mismatch : ∀ reason, protocol.Fits offer demand →
    protocol.merge.merge offer demand = .error reason →
      g.failure? e = some (.mismatch ⟨.edge e, some e, reason⟩)

section Outcome

variable {g : Graph} {protocol : Protocol} {offer demand : Parameter} {e : EdgeId}
  {source sink : NodeId}

/-- A settled edge that refuses what its rule does not merge shows that failure. -/
theorem Sound.failure?_of_refuses (hsound : g.Sound)
    (hterminal : (g.entry (.edge e)).isTerminal = true) (hkey : g.wiring.HasKey (.edge e))
    {m : Mismatch} (hrefuses : g.wiring.Refuses (.edge e) (.mismatch m)) :
    g.failure? e = some (.mismatch m) := by
  have hconsistent := hsound.settled.consistent
  rw [failure?_eq hkey]
  rcases Entry.isTerminal_iff.mp hterminal with ⟨values, hentry⟩ | ⟨error, hentry⟩
  · exact absurd ⟨values, hconsistent.yields hentry⟩ hrefuses.not_resolvable
  · rw [hentry]
    cases Wiring.Faults.agrees (.refuses hrefuses) (hconsistent.faults hentry)
    rfl

/-- A settled edge to which an offer and a demand are conveyed settles the one with the other. -/
theorem Sound.negotiates (hsound : g.Sound) (horderly : g.wiring.Orderly)
    (hspans : g.wiring.Spans protocol offer demand e source sink)
    (hterminal : (g.entry (.edge e)).isTerminal = true) :
    g.Negotiates protocol offer demand e (source.output 0) (sink.input 0) := by
  have hwf := hsound.wellFormed
  have hkey : g.wiring.HasKey (.edge e) := .of_edge? hspans.edge
  obtain ⟨hresolved, hfailed⟩ := hsound.outcome_of_isTerminal hterminal hkey
  refine ⟨fun v hfits hmerge => ?_, fun hnot => hfailed ?_, fun reason hfits hmerge => ?_⟩
  · obtain ⟨hprogress, hvalue⟩ :=
      hresolved v ((hspans.yields_iff hwf horderly).mpr ⟨hfits, v, hmerge, rfl⟩)
    refine ⟨hprogress, hvalue, ?_⟩
    obtain ⟨bound, edge, hbound, rfl, hshows⟩ :=
      hsound.exists_boundEdge (mem_edgeIds.mpr hkey) hprogress
    obtain rfl := Option.some.inj (hspans.edge.symm.trans hshows.edge?)
    have hdown := ((hspans.crosses_down_iff hwf horderly).mp hshows.downward).2
    have hup := ((hspans.crosses_up_iff hwf horderly).mp hshows.upward).2
    have hmerged := hshows.resolved
    rw [hdown, hup] at hmerged
    have hsame : bound.resolved = v := Except.ok.inj (hmerged.symm.trans hmerge)
    rw [hbound, ← hdown, ← hup, ← hsame, ← hshows.protocol]
    have houtput : bound.output = source.output 0 := hshows.port .output
    have hinput : bound.input = sink.input 0 := hshows.port .input
    rw [← houtput, ← hinput]
  · rintro ⟨out, hout⟩
    obtain ⟨hfits, v, hmerge, _⟩ := (hspans.yields_iff hwf horderly).mp hout
    exact hnot ⟨hfits, v, hmerge⟩
  · exact hsound.failure?_of_refuses hterminal hkey (hspans.refuses hwf horderly hfits hmerge)

end Outcome

/-- Lines of every length can be added to an open graph.  Each edge of a line that is demanded, in
whatever order and whatever was requested before, settles the offer of the source with the demand of
the sink. -/
theorem stages_transparent {g : Graph} (hg : g.Reachable) (protocol : Protocol)
    (offer demand : Parameter) (length : Nat) :
    (∀ names, g.isSealed = false →
      (g.serves (lineRequests (lineNode names protocol offer demand length) g.wiring.slots.size
        (length + 1))).wiring.IsLine protocol offer demand length
          (fun i => ⟨g.wiring.slots.size + i⟩) (fun i => ⟨g.wiring.edges.size + i⟩)) ∧
      ∀ {node edge}, g.wiring.IsLine protocol offer demand length node edge →
        ∀ requests, ∀ i ≤ length, (∃ c ∈ requests, c.Demands (edge i)) →
          (g.calls requests).Negotiates protocol offer demand (edge i) ((node i).output 0)
            ((node (i + 1)).input 0) := by
  refine ⟨fun names hopen => isLine_serves hg hopen names protocol offer demand length,
    fun hline requests i hi hdemanded => ?_⟩
  obtain ⟨hprogress, hsound, hterminal⟩ := hg.sound.calls requests
  have hspans := hline.spans hi
  have hsettled := hterminal _ (.of_edge? hspans.edge) hdemanded
  have horderly := hg.orderly
  rw [← hprogress.wiring] at hspans horderly
  exact hsound.negotiates horderly hspans hsettled

/-- A source that offers a range of widths, two nodes that pass parameters through, and a sink, with
a protocol that settles by a function of an author's. -/
def relay (demand : Parameter) : Graph :=
  after {} (lineRequests (lineNode (fun _ => "hop") unsettled
    (.ofList [("width", .span 8 16)]) demand 2) 0 3)

/-- Every edge of the relay comes to the width on which the source and the sink agree, or fails for
the reason that they do not. -/
theorem relay_transparent :
    (Graph.empty {}).Reachable ∧ (∀ demand, (relay demand).Reachable) ∧
      (Graph.empty {}).isSealed = false ∧
      ∀ i ≤ 2,
        ((relay (.ofList [("width", .num 12)])).calls
          [.resolve ⟨2⟩, .resolve ⟨0⟩, .resolve ⟨1⟩]).boundEdge? ⟨i⟩ =
            some ⟨⟨i⟩, NodeId.output ⟨i⟩ 0, NodeId.input ⟨i + 1⟩ 0, "bus",
              .ofList [("width", .span 8 16)], .ofList [("width", .num 12)],
              .ofList [("width", .num 12)]⟩ ∧
        ((relay (.ofList [("width", .num 20)])).calls
          [.resolve ⟨1⟩, .resolveAll]).failure? ⟨i⟩ = some (.mismatch ⟨.edge ⟨i⟩, some ⟨i⟩,
            .inField "width" (.nothingInCommon (.span 8 16) (.num 20))⟩) := by
  have hempty : (Graph.empty {}).Reachable := .empty {}
  have hrelay : ∀ demand, (relay demand).Reachable := fun demand => reachable_after _ _
  have hline : ∀ demand, (relay demand).wiring.IsLine unsettled (.ofList [("width", .span 8 16)])
      demand 2 NodeId.mk EdgeId.mk := by
    intro demand
    have hbuilt := (stages_transparent hempty unsettled (.ofList [("width", .span 8 16)]) demand
      2).1 (fun _ => "hop") rfl
    have hslots : (Graph.empty {}).wiring.slots.size = 0 := rfl
    have hedges : (Graph.empty {}).wiring.edges.size = 0 := rfl
    simp only [hslots, hedges, Nat.zero_add] at hbuilt
    exact hbuilt
  have hall : ∀ demand requests, ∀ i ≤ 2, (∃ c ∈ requests, c.Demands ⟨i⟩) →
      ((relay demand).calls requests).Negotiates unsettled (.ofList [("width", .span 8 16)]) demand
        ⟨i⟩ (NodeId.output ⟨i⟩ 0) (NodeId.input ⟨i + 1⟩ 0) := fun demand =>
    (stages_transparent (hrelay demand) unsettled _ demand 2).2 (hline demand)
  refine ⟨hempty, hrelay, rfl, fun i hi => ⟨?_, ?_⟩⟩
  · have hdemanded : ∃ c ∈ [Call.resolve ⟨2⟩, .resolve ⟨0⟩, .resolve ⟨1⟩], c.Demands ⟨i⟩ := by
      obtain rfl | rfl | rfl : i = 0 ∨ i = 1 ∨ i = 2 := by omega
      all_goals simp [Call.Demands]
    exact ((hall _ _ i hi hdemanded).resolves _ (by decide) (by decide)).2.2
  · exact (hall _ _ i hi ⟨.resolveAll, by simp, trivial⟩).mismatch _ (by decide) (by decide)

end Graph

end Negotiation
