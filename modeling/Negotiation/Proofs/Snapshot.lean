import Negotiation.Proofs.Emission
import Negotiation.Proofs.Requirements

/-!
What freezing hands out.

A bound graph is the reachable part of the graph, whole and closed (`Graph.Snapshot`): it has every
reachable node and every reachable edge, both ends of its edges are among its nodes, and each edge
shows what met on it and what its rule made of the two.  Entries are found by halving, which is
right because they ascend (`lookup_eq_some_iff`).
-/

namespace Negotiation

open Relation

section Lookup

variable {α : Type} {number : α → Nat}

/-- Of two entries the one with the lower number stands first. -/
theorem number_lt_iff {entries : Array α}
    (hascending : entries.toList.Pairwise fun x y => number x < number y) {i j : Nat} {x y : α}
    (hi : entries[i]? = some x) (hj : entries[j]? = some y) : number x < number y ↔ i < j := by
  have hmono : ∀ {i j : Nat} {x y : α}, entries[i]? = some x → entries[j]? = some y → i < j →
      number x < number y := by
    intro i j x y hi hj hij
    obtain ⟨hisize, rfl⟩ := Array.getElem?_eq_some_iff.mp hi
    obtain ⟨hjsize, rfl⟩ := Array.getElem?_eq_some_iff.mp hj
    exact List.pairwise_iff_getElem.mp hascending i j hisize hjsize hij
  refine ⟨fun hnumber => ?_, hmono hi hj⟩
  rcases Nat.lt_trichotomy i j with hij | rfl | hji
  · exact hij
  · exact absurd (congrArg number (Option.some.inj (hi.symm.trans hj))) (Nat.ne_of_lt hnumber)
  · exact absurd hnumber (Nat.lt_asymm (hmono hj hi hji))

/-- Halving finds the entry of a number if and only if it stands between the two places. -/
theorem bisect_eq_some_iff {entries : Array α} {wanted low high : Nat} {entry : α}
    (hascending : entries.toList.Pairwise fun x y => number x < number y)
    (hhigh : high ≤ entries.size) :
    bisect number entries wanted low high = some entry ↔
      ∃ i, (low ≤ i ∧ i < high) ∧ entries[i]? = some entry ∧ number entry = wanted := by
  fun_induction bisect number entries wanted low high with
  | case1 low high hopen middle hnone =>
      have hsize : entries.size ≤ middle := Array.getElem?_eq_none_iff.mp hnone
      omega
  | case2 low high hopen middle found hfound heq =>
      constructor
      · intro h
        obtain rfl := Option.some.inj h
        exact ⟨middle, by omega, hfound, heq⟩
      · rintro ⟨i, _, hentry, hwanted⟩
        -- Entries of one number stand in one place.
        have hbefore := number_lt_iff hascending hfound hentry
        have hafter := number_lt_iff hascending hentry hfound
        obtain rfl : middle = i := by omega
        exact hfound.symm.trans hentry
  | case3 low high hopen middle found hfound hne hbelow ih =>
      refine (ih hhigh).trans ⟨?_, ?_⟩
      · rintro ⟨i, hi, hentry⟩
        exact ⟨i, by omega, hentry⟩
      · rintro ⟨i, hi, hentry, rfl⟩
        have hafter : middle < i := (number_lt_iff hascending hfound hentry).mp hbelow
        exact ⟨i, by omega, hentry, rfl⟩
  | case4 low high hopen middle found hfound hne hbelow ih =>
      refine (ih (by omega)).trans ⟨?_, ?_⟩
      · rintro ⟨i, hi, hentry⟩
        exact ⟨i, by omega, hentry⟩
      · rintro ⟨i, hi, hentry, rfl⟩
        have hbefore : i < middle := (number_lt_iff hascending hentry hfound).mp (by omega)
        exact ⟨i, by omega, hentry, rfl⟩
  | case5 low high hclosed =>
      refine iff_of_false nofun ?_
      rintro ⟨i, hi, _⟩
      omega

/-- A number is looked up if and only if an entry has it. -/
theorem lookup_eq_some_iff {entries : List α} {wanted : Nat} {entry : α}
    (hascending : entries.Pairwise fun x y => number x < number y) :
    lookup number entries wanted = some entry ↔ entry ∈ entries ∧ number entry = wanted := by
  have hsize : entries.length ≤ entries.toArray.size := Nat.le_refl _
  refine (bisect_eq_some_iff hascending hsize).trans ?_
  simp only [List.getElem?_toArray]
  constructor
  · rintro ⟨i, _, hentry, hwanted⟩
    exact ⟨List.mem_of_getElem? hentry, hwanted⟩
  · rintro ⟨hmem, hwanted⟩
    obtain ⟨i, hi, rfl⟩ := List.mem_iff_getElem.mp hmem
    exact ⟨i, ⟨Nat.zero_le i, hi⟩, List.getElem?_eq_getElem hi, hwanted⟩

end Lookup

section Entries

variable {α β : Type}

/-- What is kept of a list of which everything is kept. -/
theorem forall₂_filterMap {r : α → β → Prop} {f : α → Option β} {xs : List α}
    (h : ∀ x ∈ xs, ∃ y, f x = some y ∧ r x y) : List.Forall₂ r xs (xs.filterMap f) := by
  induction xs with
  | nil => exact .nil
  | cons x rest ih =>
      obtain ⟨⟨y, hy, hr⟩, hrest⟩ := List.forall_mem_cons.mp h
      rw [List.filterMap_cons_some hy]
      exact .cons hr (ih hrest)

/-- Entries that stand for the members of a list, in its order. -/
theorem map_eq_of_forall₂ {id : β → α} {P : β → Prop} {xs : List α} {ys : List β}
    (h : List.Forall₂ (fun x y => id y = x ∧ P y) xs ys) : ys.map id = xs ∧ ∀ y ∈ ys, P y := by
  induction h with
  | nil => exact ⟨rfl, List.forall_mem_nil P⟩
  | cons hfirst _ ih =>
      exact ⟨congrArg₂ List.cons hfirst.1 ih.1, List.forall_mem_cons.mpr ⟨hfirst.2, ih.2⟩⟩

end Entries

/-- The port of an edge at one of its ends. -/
def Edge.port (edge : Edge) : Side → Port
  | .input => edge.input
  | .output => edge.output

/-- What a node lists on a side is the edges that have this end at the node. -/
theorem Wiring.WellFormed.mem_edges_iff {w : Wiring} (hwf : w.WellFormed) {n : NodeId} {slot : Slot}
    (hslot : w.slot? n = some slot) {side : Side} {e : EdgeId} :
    e ∈ (slot.edges side).flatten ↔
      ∃ edge, w.edge? e = some edge ∧ (edge.port side).node = n := by
  cases side with
  | input => exact hwf.mem_inward hslot
  | output => exact hwf.mem_outward hslot

def BoundEdge.port (edge : BoundEdge) : Side → Port
  | .input => edge.input
  | .output => edge.output

/-- The bound edge shows an edge of the wiring: its ends, its protocol, what crosses it in each
direction, which fits the schemas of the protocol, and what its rule makes of the two. -/
structure BoundEdge.Shows (bound : BoundEdge) (w : Wiring) (edge : Edge) : Prop where
  edge? : w.edge? bound.id = some edge
  port : ∀ side, bound.port side = edge.port side
  protocol : bound.protocol = edge.protocol.name
  downward : w.Crosses edge .down bound.downward
  upward : w.Crosses edge .up bound.upward
  fits : (edge.protocol.schema .down).admits bound.downward = true ∧
    (edge.protocol.schema .up).admits bound.upward = true
  resolved : edge.rule.merge bound.downward bound.upward = .ok bound.resolved

/-- The edges that a bound node lists on one side. -/
def BoundNode.listed (node : BoundNode) : Side → List EdgeId
  | .input => node.inward
  | .output => node.outward

/-- The bound node shows a node of the wiring: its name, and edges that are attached to it, port by
port in the order of binding. -/
structure BoundNode.Shows (bound : BoundNode) (w : Wiring) (slot : Slot) : Prop where
  slot? : w.slot? bound.id = some slot
  name : bound.name = slot.node.name
  listed : ∀ side, (bound.listed side).Sublist (slot.edges side).flatten

/-- The settled parameters of the edges at one side of a node. -/
def BoundGraph.parameters (b : BoundGraph) (n : NodeId) : Side → List Parameter
  | .input => b.inward n
  | .output => b.outward n

namespace BoundGraph

variable {b : BoundGraph}

theorem node?_eq_some_iff (h : b.nodes.Pairwise fun m n => m.id.index < n.id.index) {n : NodeId}
    {node : BoundNode} : b.node? n = some node ↔ node ∈ b.nodes ∧ node.id = n :=
  (lookup_eq_some_iff h).trans
    (and_congr_right' ⟨congrArg NodeId.mk, congrArg NodeId.index⟩)

theorem edge?_eq_some_iff (h : b.edges.Pairwise fun d e => d.id.index < e.id.index) {e : EdgeId}
    {bound : BoundEdge} : b.edge? e = some bound ↔ bound ∈ b.edges ∧ bound.id = e :=
  (lookup_eq_some_iff h).trans
    (and_congr_right' ⟨congrArg EdgeId.mk, congrArg EdgeId.index⟩)

theorem parameters_eq (n : NodeId) (side : Side) :
    b.parameters n side = b.settled ((b.node? n).elim [] (·.listed side)) := by
  cases side with
  | input => rw [parameters, inward]; cases b.node? n <;> rfl
  | output => rw [parameters, outward]; cases b.node? n <;> rfl

/-- Edges that are all there have one settled parameter each. -/
theorem forall₂_settled (h : b.edges.Pairwise fun d e => d.id.index < e.id.index)
    {edges : List EdgeId} (hedges : ∀ e ∈ edges, ∃ bound ∈ b.edges, bound.id = e) :
    List.Forall₂ (fun e value => ∃ bound ∈ b.edges, bound.id = e ∧ bound.resolved = value) edges
      (b.settled edges) := by
  refine forall₂_filterMap fun e he => ?_
  obtain ⟨bound, hbound, hid⟩ := hedges e he
  rw [(edge?_eq_some_iff h).mpr ⟨hbound, hid⟩]
  exact ⟨bound.resolved, rfl, bound, hbound, hid, rfl⟩

end BoundGraph

/-- What crosses an edge fits the schema of its direction. -/
theorem Wiring.Crosses.fits {w : Wiring} {edge : Edge} {direction : Direction} {value : Parameter}
    (h : w.Crosses edge direction value) :
    (edge.protocol.schema direction).admits value = true := by
  obtain ⟨_, _, _, _, _, hadmits⟩ := h
  exact hadmits

namespace Graph

/-- A path of edges leads to the node from a root, or from the node to a root. -/
def IsReached (g : Graph) (n : NodeId) : Prop :=
  ∃ root ∈ g.roots, ReflTransGen g.wiring.Feeds root n ∨ ReflTransGen g.wiring.Feeds n root

/-- The bound graph is the reachable part of the graph, whole and closed. -/
structure Snapshot (g : Graph) (b : BoundGraph) : Prop where
  nodesAscend : b.nodes.Pairwise fun m n => m.id.index < n.id.index
  edgesAscend : b.edges.Pairwise fun d e => d.id.index < e.id.index
  hasNode : ∀ n, (∃ bound ∈ b.nodes, bound.id = n) ↔ g.IsReached n
  hasEdge : ∀ e, (∃ bound ∈ b.edges, bound.id = e) ↔ g.IsDriven e
  showsNode : ∀ bound ∈ b.nodes, ∃ slot, bound.Shows g.wiring slot
  showsEdge : ∀ bound ∈ b.edges, ∃ edge, bound.Shows g.wiring edge
  /-- Both ends of an edge are there, and list it once. -/
  joined : ∀ bound ∈ b.edges, ∀ side, ∃ node ∈ b.nodes, node.id = (bound.port side).node ∧
    (node.listed side).count bound.id = 1
  /-- The edges that a node lists are there, and attached to it. -/
  closed : ∀ node ∈ b.nodes, ∀ side, ∀ e ∈ node.listed side,
    ∃ bound ∈ b.edges, bound.id = e ∧ (bound.port side).node = node.id
  /-- The nodes that are found are those that are reachable. -/
  findsNode : ∀ n, ((b.node? n).isSome = true ↔ g.IsReached n) ∧
    ∀ node, b.node? n = some node ↔ node ∈ b.nodes ∧ node.id = n
  /-- The edges that are found are those that are reachable. -/
  findsEdge : ∀ e, ((b.edge? e).isSome = true ↔ g.IsDriven e) ∧
    ∀ bound, b.edge? e = some bound ↔ bound ∈ b.edges ∧ bound.id = e
  /-- There is one parameter for each edge that is listed. -/
  parameters : ∀ n side,
    List.Forall₂ (fun e value => ∃ bound ∈ b.edges, bound.id = e ∧ bound.resolved = value)
    ((b.node? n).elim [] (·.listed side)) (b.parameters n side)

section Parts

variable {g : Graph}

theorem roots_subset {n : NodeId} (h : n ∈ g.roots) : n ∈ g.wiring.nodeIds := by
  rw [roots] at h
  split at h
  · exact List.mem_of_mem_filter h
  · exact List.mem_of_mem_filter h

/-- The nodes that are reachable are nodes of the graph. -/
theorem IsReached.mem_nodeIds (hwf : g.wiring.WellFormed) {n : NodeId} (h : g.IsReached n) :
    n ∈ g.wiring.nodeIds := by
  obtain ⟨root, hroot, hdriven | hdrives⟩ := h
  · rcases ReflTransGen.cases_tail hdriven with rfl | ⟨_, _, hlast⟩
    · exact roots_subset hroot
    · exact Wiring.mem_nodeIds_iff.mpr (Reachability.size_of_feeds hwf hlast).2
  · rcases ReflTransGen.cases_head hdrives with rfl | ⟨_, hfirst, _⟩
    · exact roots_subset hroot
    · exact Wiring.mem_nodeIds_iff.mpr (Reachability.size_of_feeds hwf hfirst).1

theorem node_reachability_iff (hwf : g.wiring.WellFormed) {n : NodeId} (hn : n ∈ g.wiring.nodeIds) :
    g.reachability.node n = true ↔ g.IsReached n :=
  Reachability.node_ofRoots_iff hwf (Wiring.mem_nodeIds_iff.mp hn)

theorem IsDriven.mem_edgeIds {e : EdgeId} (h : g.IsDriven e) : e ∈ g.wiring.edgeIds := by
  obtain ⟨edge, hedge, _⟩ := h
  exact Graph.mem_edgeIds.mpr (.of_edge? hedge)

/-- What crosses a resolved edge is known, and its rule makes of that what it resolves to. -/
theorem Sound.exists_crossing (hsound : g.Sound) {e : EdgeId} {edge : Edge}
    (hedge : g.wiring.edge? e = some edge) (hresolved : g.progress (.edge e) = .resolved) :
    ∃ down up value, g.flows? edge = some (down, up) ∧ g.resolved? e = some value ∧
      g.wiring.Crosses edge .down down ∧ g.wiring.Crosses edge .up up ∧
      edge.rule.merge down up = .ok value := by
  have hkey : g.wiring.HasKey (.edge e) := .of_edge? hedge
  rw [progress_eq hkey] at hresolved
  cases hentry : g.entry (.edge e) with
  | resolved values =>
      obtain ⟨hsupports, hevaluate⟩ := hsound.settled.consistent.evaluate_of_resolved hentry
      obtain ⟨down, up, value, rfl, hflows, hdown, hup, hmerge⟩ :=
        Wiring.evaluate_edge_ok hedge hevaluate
      have hmem := Wiring.emitter_mem_dependencies hedge
      have hvalue : g.resolved? e = some value := by
        rw [resolved?_eq hkey, hentry]
        rfl
      have hpair : g.flows? edge = some (down, up) := by
        rw [flows?_eq, hflows]
        rfl
      exact ⟨down, up, value, hpair, hvalue, (hsupports.crossing_iff (hmem .down)).mp hdown,
        (hsupports.crossing_iff (hmem .up)).mp hup, hmerge⟩
  | _ =>
      rw [hentry] at hresolved
      cases hresolved

/-- A resolved edge is handed out with what crosses it and what it resolves to. -/
theorem Sound.exists_boundEdge (hsound : g.Sound) {e : EdgeId} (he : e ∈ g.wiring.edgeIds)
    (hresolved : g.progress (.edge e) = .resolved) :
    ∃ bound edge, g.boundEdge? e = some bound ∧ bound.id = e ∧ bound.Shows g.wiring edge := by
  obtain ⟨edge, hedge⟩ : ∃ edge, g.wiring.edge? e = some edge :=
    ⟨_, Array.getElem?_eq_getElem (mem_edgeIds.mp he)⟩
  obtain ⟨down, up, value, hpair, hvalue, hdown, hup, hmerge⟩ :=
    hsound.exists_crossing hedge hresolved
  let bound : BoundEdge := ⟨e, edge.output, edge.input, edge.protocol.name, down, up, value⟩
  have hport : ∀ side, bound.port side = edge.port side := by
    intro side
    cases side <;> rfl
  refine ⟨bound, edge, ?_, rfl, hedge, hport, rfl, hdown, hup, ⟨hdown.fits, hup.fits⟩, hmerge⟩
  simp only [boundEdge?, hedge, hvalue, hpair, Option.bind_eq_bind, Option.bind_some]
  rfl

theorem pairwise_nodeIds (w : Wiring) : w.nodeIds.Pairwise fun m n => m.index < n.index :=
  List.pairwise_map.mpr List.pairwise_lt_range

theorem pairwise_edgeIds (w : Wiring) : w.edgeIds.Pairwise fun d e => d.index < e.index :=
  List.pairwise_map.mpr List.pairwise_lt_range

theorem mem_nodeIds_filter_iff (hwf : g.wiring.WellFormed) {n : NodeId} :
    n ∈ g.wiring.nodeIds.filter g.reachability.node ↔ g.IsReached n := by
  rw [List.mem_filter]
  constructor
  · rintro ⟨hn, hmark⟩
    exact (node_reachability_iff hwf hn).mp hmark
  · intro h
    exact ⟨h.mem_nodeIds hwf, (node_reachability_iff hwf (h.mem_nodeIds hwf)).mpr h⟩

theorem mem_edgeIds_filter_iff (hwf : g.wiring.WellFormed) {e : EdgeId} :
    e ∈ g.wiring.edgeIds.filter g.reachability.edge ↔ g.IsDriven e := by
  rw [List.mem_filter]
  constructor
  · rintro ⟨he, hmark⟩
    exact (edge_reachability_iff hwf he).mp hmark
  · intro h
    exact ⟨h.mem_edgeIds, (edge_reachability_iff hwf h.mem_edgeIds).mpr h⟩

/-- Both ends of a reachable edge are reachable. -/
theorem IsDriven.isReached {e : EdgeId} {edge : Edge} (h : g.IsDriven e)
    (hedge : g.wiring.edge? e = some edge) (side : Side) : g.IsReached (edge.port side).node := by
  obtain ⟨edge', hedge', root, hroot, hpath⟩ := h
  obtain rfl : edge = edge' := Option.some.inj (hedge.symm.trans hedge')
  have hfeeds : g.wiring.Feeds edge.output.node edge.input.node := ⟨e, edge, hedge, rfl, rfl⟩
  rcases hpath with hdriven | hdrives
  · cases side with
    | input => exact ⟨root, hroot, .inl (hdriven.tail hfeeds)⟩
    | output => exact ⟨root, hroot, .inl hdriven⟩
  · cases side with
    | input => exact ⟨root, hroot, .inr hdrives⟩
    | output => exact ⟨root, hroot, .inr (hdrives.head hfeeds)⟩

end Parts

/-- The entries stand for the reachable nodes and edges of the graph, in their order. -/
structure Lists (g : Graph) (b : BoundGraph) : Prop where
  nodeIds : b.nodes.map (·.id) = g.wiring.nodeIds.filter g.reachability.node
  edgeIds : b.edges.map (·.id) = g.wiring.edgeIds.filter g.reachability.edge
  node : ∀ bound ∈ b.nodes, ∃ slot, g.wiring.slot? bound.id = some slot ∧
    bound.name = slot.node.name ∧
    ∀ side, bound.listed side = (slot.edges side).flatten.filter g.reachability.edge
  edge : ∀ bound ∈ b.edges, ∃ edge, bound.Shows g.wiring edge

section Listing

variable {g h : Graph} {b : BoundGraph}

/-- What is handed out stands for everything that is reachable, where every edge can be handed
out. -/
theorem lists_elaborate (hwiring : h.wiring = g.wiring)
    (hedges : ∀ e ∈ g.wiring.edgeIds, ∃ bound edge, h.boundEdge? e = some bound ∧ bound.id = e ∧
      bound.Shows g.wiring edge) :
    Lists g (h.elaborate g.reachability) := by
  have hnodes : List.Forall₂
      (fun n bound => bound.id = n ∧ ∃ slot, g.wiring.slot? bound.id = some slot ∧
        bound.name = slot.node.name ∧
        ∀ side, bound.listed side = (slot.edges side).flatten.filter g.reachability.edge)
      (g.wiring.nodeIds.filter g.reachability.node) (h.elaborate g.reachability).nodes := by
    rw [elaborate, hwiring]
    refine forall₂_filterMap fun n hn => ?_
    have hlt := Wiring.mem_nodeIds_iff.mp (List.mem_of_mem_filter hn)
    obtain ⟨slot, hslot⟩ : ∃ slot, g.wiring.slot? n = some slot :=
      ⟨_, Array.getElem?_eq_getElem hlt⟩
    refine ⟨⟨n, slot.node.name, slot.inward.filter g.reachability.edge,
      slot.outward.filter g.reachability.edge⟩, ?_, rfl, slot, hslot, rfl, fun side => ?_⟩
    · simp only [boundNode?, hwiring, hslot, Option.bind_eq_bind, Option.bind_some]
      rfl
    · cases side <;> rfl
  have hedges : List.Forall₂ (fun e bound => bound.id = e ∧ ∃ edge, bound.Shows g.wiring edge)
      (g.wiring.edgeIds.filter g.reachability.edge) (h.elaborate g.reachability).edges := by
    rw [elaborate, hwiring]
    refine forall₂_filterMap fun e he => ?_
    obtain ⟨bound, edge, hbound, hid, hshows⟩ := hedges e (List.mem_of_mem_filter he)
    exact ⟨bound, hbound, hid, edge, hshows⟩
  obtain ⟨hnodeIds, hnode⟩ := map_eq_of_forall₂ hnodes
  obtain ⟨hedgeIds, hedge⟩ := map_eq_of_forall₂ hedges
  exact ⟨hnodeIds, hedgeIds, hnode, hedge⟩

namespace Lists

theorem nodes_ascend (hb : Lists g b) : b.nodes.Pairwise fun m n => m.id.index < n.id.index := by
  have hids := (pairwise_nodeIds g.wiring).filter g.reachability.node
  rwa [← hb.nodeIds, List.pairwise_map] at hids

theorem edges_ascend (hb : Lists g b) : b.edges.Pairwise fun d e => d.id.index < e.id.index := by
  have hids := (pairwise_edgeIds g.wiring).filter g.reachability.edge
  rwa [← hb.edgeIds, List.pairwise_map] at hids

theorem exists_node_iff (hb : Lists g b) (hwf : g.wiring.WellFormed) {n : NodeId} :
    (∃ bound ∈ b.nodes, bound.id = n) ↔ g.IsReached n := by
  rw [← mem_nodeIds_filter_iff hwf, ← hb.nodeIds, List.mem_map]

theorem exists_edge_iff (hb : Lists g b) (hwf : g.wiring.WellFormed) {e : EdgeId} :
    (∃ bound ∈ b.edges, bound.id = e) ↔ g.IsDriven e := by
  rw [← mem_edgeIds_filter_iff hwf, ← hb.edgeIds, List.mem_map]

/-- The edges that a node lists are there, and attached to it. -/
theorem closed (hb : Lists g b) (hwf : g.wiring.WellFormed) {node : BoundNode}
    (hnode : node ∈ b.nodes) {side : Side} {e : EdgeId} (he : e ∈ node.listed side) :
    ∃ bound ∈ b.edges, bound.id = e ∧ (bound.port side).node = node.id := by
  obtain ⟨slot, hslot, _, hlisted⟩ := hb.node node hnode
  rw [hlisted side, List.mem_filter, hwf.mem_edges_iff hslot] at he
  obtain ⟨⟨edge, hedge, hend⟩, hmark⟩ := he
  have hdriven := (edge_reachability_iff hwf (mem_edgeIds.mpr (.of_edge? hedge))).mp hmark
  obtain ⟨bound, hbound, rfl⟩ := (hb.exists_edge_iff hwf).mpr hdriven
  obtain ⟨edge', hshows⟩ := hb.edge bound hbound
  obtain rfl : edge = edge' := Option.some.inj (hedge.symm.trans hshows.edge?)
  exact ⟨bound, hbound, rfl, (congrArg Port.node (hshows.port side)).trans hend⟩

/-- Both ends of an edge are there, and list it once. -/
theorem joined (hb : Lists g b) (hwf : g.wiring.WellFormed) (horderly : g.wiring.Orderly)
    {bound : BoundEdge} (hbound : bound ∈ b.edges) (side : Side) :
    ∃ node ∈ b.nodes, node.id = (bound.port side).node ∧
      (node.listed side).count bound.id = 1 := by
  obtain ⟨edge, hshows⟩ := hb.edge bound hbound
  have hdriven : g.IsDriven bound.id := (hb.exists_edge_iff hwf).mp ⟨bound, hbound, rfl⟩
  have hmark := (edge_reachability_iff hwf hdriven.mem_edgeIds).mpr hdriven
  obtain ⟨node, hnode, hid⟩ := (hb.exists_node_iff hwf).mpr (hdriven.isReached hshows.edge? side)
  obtain ⟨slot, hslot, _, hlisted⟩ := hb.node node hnode
  refine ⟨node, hnode, hid.trans (congrArg Port.node (hshows.port side)).symm, ?_⟩
  rw [hlisted side, List.count_filter hmark]
  refine List.count_eq_one_of_mem (horderly.nodup_edges hwf hslot side) ?_
  exact (hwf.mem_edges_iff hslot).mpr ⟨edge, hshows.edge?, hid.symm⟩

/-- There is one parameter for each edge that is listed. -/
theorem parameters (hb : Lists g b) (hwf : g.wiring.WellFormed) (n : NodeId) (side : Side) :
    List.Forall₂ (fun e value => ∃ bound ∈ b.edges, bound.id = e ∧ bound.resolved = value)
      ((b.node? n).elim [] (·.listed side)) (b.parameters n side) := by
  rw [BoundGraph.parameters_eq]
  refine BoundGraph.forall₂_settled hb.edges_ascend fun e he => ?_
  cases hfound : b.node? n with
  | none =>
      rw [hfound] at he
      cases he
  | some node =>
      rw [hfound] at he
      obtain ⟨hnode, _⟩ := (BoundGraph.node?_eq_some_iff hb.nodes_ascend).mp hfound
      obtain ⟨bound, hbound, hid, _⟩ := hb.closed hwf hnode he
      exact ⟨bound, hbound, hid⟩

theorem snapshot (hb : Lists g b) (hwf : g.wiring.WellFormed) (horderly : g.wiring.Orderly) :
    Snapshot g b where
  nodesAscend := hb.nodes_ascend
  edgesAscend := hb.edges_ascend
  hasNode _ := hb.exists_node_iff hwf
  hasEdge _ := hb.exists_edge_iff hwf
  showsNode node hnode := by
    obtain ⟨slot, hslot, hname, hlisted⟩ := hb.node node hnode
    exact ⟨slot, hslot, hname, fun side => hlisted side ▸ List.filter_sublist⟩
  showsEdge := hb.edge
  joined _ hbound side := hb.joined hwf horderly hbound side
  closed _ hnode _ _ he := hb.closed hwf hnode he
  findsNode n := by
    have hfinds : ∀ node, b.node? n = some node ↔ node ∈ b.nodes ∧ node.id = n := fun node =>
      BoundGraph.node?_eq_some_iff hb.nodes_ascend
    refine ⟨?_, hfinds⟩
    rw [← hb.exists_node_iff hwf, Option.isSome_iff_exists]
    exact exists_congr hfinds
  findsEdge e := by
    have hfinds : ∀ bound, b.edge? e = some bound ↔ bound ∈ b.edges ∧ bound.id = e := fun bound =>
      BoundGraph.edge?_eq_some_iff hb.edges_ascend
    refine ⟨?_, hfinds⟩
    rw [← hb.exists_edge_iff hwf, Option.isSome_iff_exists]
    exact exists_congr hfinds
  parameters := hb.parameters hwf

end Lists

end Listing

/-- A graph that is frozen hands out its reachable part. -/
theorem freeze_snapshot {g : Graph} (hg : g.Reachable) {b : BoundGraph} (h : g.freeze.1 = .ok b) :
    Snapshot g b := by
  obtain ⟨hsound, _, hprogress, hverdict⟩ := hg.sound.freeze_spec
  have hreach : g.freeze.2.reachability = g.reachability :=
    (requirements_eq hprogress.wiring hprogress.markedRoots hprogress.settings).1
  rw [h, verdict, hreach] at hverdict
  split at hverdict
  · rename_i hempty
    obtain rfl := Except.ok.inj hverdict
    have hresolved : g.freeze.2.unresolvedViolations = [] := by
      rw [List.isEmpty_iff, violations] at hempty
      simp only [List.append_eq_nil_iff] at hempty
      exact hempty.1.1.1.2
    refine (lists_elaborate hprogress.wiring fun e he => ?_).snapshot hg.sound.wellFormed hg.orderly
    have hat : e ∈ g.freeze.2.wiring.edgeIds := hprogress.wiring.symm ▸ he
    rw [← hprogress.wiring]
    refine hsound.exists_boundEdge hat ?_
    have hnone := List.filterMap_eq_nil_iff.mp hresolved e hat
    by_contra hnot
    rw [if_neg hnot] at hnone
    cases hnone
  · cases hverdict

/-- A source that fans out to two sinks, under a policy of its own, and two nodes in a ring that no
root reaches. -/
def outpost : Graph :=
  let width : Schema := .ofList [("width", .number)]
  let bus : Protocol := ⟨⟨"bus", width, width⟩, .policy .intersect, .absent, .absent⟩
  let eight : Parameter := .ofList [("width", .num 8)]
  after {} [
    .build (.addNode (.source "cpu" bus (.exactly 1) (.ofList [("width", .span 1 32)]))),
    .build (.addNode (.sink "ram" bus (.exactly 1) eight)),
    .build (.addNode (.sink "rom" bus (.exactly 1) (.ofList [("width", .num 16)]))),
    .build (.addNode (.detached "east" bus bus eight eight)),
    .build (.addNode (.detached "west" bus bus eight eight)),
    .build (.bind (NodeId.output ⟨3⟩ 0) (NodeId.input ⟨4⟩ 0)),
    .build (.bind (NodeId.output ⟨4⟩ 0) (NodeId.input ⟨3⟩ 0)),
    .build (.bindGroup ⟨.fanOut, NodeId.output ⟨0⟩ 0, [NodeId.input ⟨1⟩ 0, NodeId.input ⟨2⟩ 0],
      .maximum, .identity, .identity⟩)]

/-- The ring is left out. -/
theorem outpost_snapshot : outpost.Reachable ∧ ∃ b, outpost.freeze.1 = .ok b ∧
    b.nodes.map (·.id.index) = [0, 1, 2, 5] ∧ b.edges.map (·.id.index) = [2, 3, 4] ∧
    outpost.Snapshot b := by
  have hreachable : outpost.Reachable := reachable_after _ _
  have hids : outpost.freeze.1.map (fun b => (b.nodes.map (·.id.index), b.edges.map (·.id.index))) =
      .ok ([0, 1, 2, 5], [2, 3, 4]) := by decide +kernel
  cases hfreeze : outpost.freeze.1 with
  | error found =>
      rw [hfreeze] at hids
      cases hids
  | ok b =>
      rw [hfreeze] at hids
      obtain ⟨hnodes, hedges⟩ := Prod.mk.inj (Except.ok.inj hids)
      exact ⟨hreachable, b, rfl, hnodes, hedges, freeze_snapshot hreachable hfreeze⟩

end Graph

end Negotiation
