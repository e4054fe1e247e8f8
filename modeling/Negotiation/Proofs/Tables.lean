import Negotiation.Proofs.Snapshot

/-!
The tables of a wiring.

A wiring keeps what its edges join three times: in the list of edges, and in a list for each output
and each input.  Requests keep the three in step (`Wiring.Indexed`): what a port lists are the edges
that name it, in the order of binding (`Wiring.WellFormed.portEdges_eq`), and on each side every
edge is listed once (`Wiring.WellFormed.nodup_listed`).  The nodes that were declared roots are kept
in step with the nodes (`Graph.Rooted`).
-/

namespace Negotiation

theorem MergeRule.agrees_trans {r s t : MergeRule} (h : r.agrees s = true)
    (h' : s.agrees t = true) : r.agrees t = true := by
  cases r <;> cases s <;> cases t <;> simp_all [agrees]

theorem Protocol.Agrees.trans {p q r : Protocol} (h : p.Agrees q) (h' : q.Agrees r) :
    p.Agrees r :=
  ⟨h.signature.trans h'.signature, MergeRule.agrees_trans h.merge h'.merge,
    h.downFallback.trans h'.downFallback, h.upFallback.trans h'.upFallback⟩

namespace Edge

/-- The edge has one of its ends at the port. -/
def Names (edge : Edge) (port : Port) : Prop :=
  edge.output = port ∨ edge.input = port

instance (edge : Edge) (port : Port) : Decidable (edge.Names port) :=
  inferInstanceAs (Decidable (edge.output = port ∨ edge.input = port))

end Edge

namespace Wiring

/-- Everything that the ports of one side list, node by node and port by port. -/
def listed (w : Wiring) (side : Side) : List EdgeId :=
  w.slots.toList.flatMap fun slot => (slot.edges side).flatten

/-- The edge joins an output that is there to an input that is there, of another node; the protocols
of the two ports have one signature, merge alike and show the same to an unconnected port. -/
structure Joins (w : Wiring) (edge : Edge) : Prop where
  apart : edge.output.node ≠ edge.input.node
  side : ∀ side, (edge.port side).side = side
  agrees : ∃ output input, w.spec? edge.output = some output ∧ w.spec? edge.input = some input ∧
    output.protocol.Agrees input.protocol

/-- The lists at the ports are an index of the list of edges. -/
structure Indexed (w : Wiring) : Prop where
  /-- Edges are numbered in the order of the list. -/
  numbered : ∀ i, (hi : i < w.edges.size) → w.edges[i].id = ⟨i⟩
  /-- A node has one list for each of its ports. -/
  tabled : ∀ slot ∈ w.slots, ∀ side, (slot.edges side).length = (slot.ports side).length
  ascending : ∀ slot ∈ w.slots, ∀ side, ∀ edges ∈ slot.edges side, edges.Pairwise EdgeId.Before
  /-- On each side an edge is listed once, at its own port. -/
  once : ∀ edge ∈ w.edges, ∀ side,
    (w.listed side).count edge.id = 1 ∧ edge.id ∈ w.portEdges (edge.port side)
  /-- Nothing else is listed. -/
  complete : ∀ side, ∀ e ∈ w.listed side, ∃ edge ∈ w.edges, edge.id = e
  joined : ∀ edge ∈ w.edges, w.Joins edge
  counted : ∀ port, w.connectionCount port = w.edges.toList.countP (·.Names port)
  bounded : ∀ {port spec}, w.spec? port = some spec →
    ∀ max, spec.cardinality.max = some max → w.connectionCount port ≤ max

variable {w : Wiring}

theorem exists_edge?_of_mem {edge : Edge} (h : edge ∈ w.edges) : ∃ e, w.edge? e = some edge := by
  obtain ⟨i, hi⟩ := Array.getElem?_of_mem h
  exact ⟨⟨i⟩, hi⟩

theorem exists_slot?_of_mem {slot : Slot} (h : slot ∈ w.slots) : ∃ n, w.slot? n = some slot := by
  obtain ⟨i, hi⟩ := Array.getElem?_of_mem h
  exact ⟨⟨i⟩, hi⟩

namespace WellFormed

variable (hwf : w.WellFormed)

include hwf

theorem edge?_id {edge : Edge} (h : edge ∈ w.edges) : w.edge? edge.id = some edge := by
  obtain ⟨e, he⟩ := exists_edge?_of_mem h
  rw [hwf.numbered he, he]

theorem id_getElem {i : Nat} (hi : i < w.edges.size) : w.edges[i].id = ⟨i⟩ :=
  hwf.numbered (e := ⟨i⟩) (Array.getElem?_eq_getElem hi)

theorem joins_of_mem {edge : Edge} (h : edge ∈ w.edges) : w.Joins edge := by
  obtain ⟨hapart, ⟨houtside, output, houtput, hagrees⟩, hinside, input, hinput, hagrees'⟩ :=
    hwf.joined (hwf.edge?_id h)
  refine ⟨hapart, fun side => ?_, output, input, houtput, hinput, hagrees.trans hagrees'.symm⟩
  cases side with
  | input => exact hinside
  | output => exact houtside

theorem mem_portEdges {edge : Edge} (h : edge ∈ w.edges) (side : Side) :
    edge.id ∈ w.portEdges (edge.port side) := by
  refine hwf.attached.mpr ⟨edge, hwf.edge?_id h, ?_⟩
  cases side with
  | input => exact Or.inr rfl
  | output => exact Or.inl rfl

theorem pairwise_ids_filter (names : Edge → Bool) :
    ((w.edges.toList.filter names).map Edge.id).Pairwise EdgeId.Before := by
  refine List.pairwise_map.mpr (List.Pairwise.filter names ?_)
  refine List.pairwise_iff_getElem.mpr fun i j hi hj hlt => ?_
  simp only [Array.getElem_toList, hwf.id_getElem]
  exact hlt

theorem mem_portEdges_iff {port : Port} {e : EdgeId} :
    e ∈ w.portEdges port ↔ e ∈ (w.edges.toList.filter (·.Names port)).map Edge.id := by
  rw [hwf.attached]
  simp only [List.mem_map, List.mem_filter, Array.mem_toList_iff, decide_eq_true_eq]
  constructor
  · rintro ⟨edge, hedge, hnames⟩
    exact ⟨edge, ⟨Array.mem_of_getElem? hedge, hnames⟩, hwf.numbered hedge⟩
  · rintro ⟨edge, ⟨hmem, hnames⟩, rfl⟩
    exact ⟨edge, hwf.edge?_id hmem, hnames⟩

/-- A port lists the edges that name it, in the order of binding. -/
theorem portEdges_eq (horderly : w.Orderly) (port : Port) :
    w.portEdges port = (w.edges.toList.filter (·.Names port)).map Edge.id := by
  have hascending := hwf.pairwise_ids_filter (·.Names port)
  refine EdgeId.eq_of_perm (horderly.ascending port) hascending ?_
  exact (List.perm_ext_iff_of_nodup ((horderly.ascending port).imp EdgeId.Before.ne)
    (hascending.imp EdgeId.Before.ne)).mpr fun e => hwf.mem_portEdges_iff

/-- What one side lists is the edges. -/
theorem mem_listed_iff {side : Side} {e : EdgeId} :
    e ∈ w.listed side ↔ ∃ edge ∈ w.edges, edge.id = e := by
  simp only [listed, List.mem_flatMap, Array.mem_toList_iff]
  constructor
  · rintro ⟨slot, hslot, he⟩
    obtain ⟨n, hn⟩ := exists_slot?_of_mem hslot
    obtain ⟨edge, hedge, _⟩ := (hwf.mem_edges_iff hn).mp he
    exact ⟨edge, Array.mem_of_getElem? hedge, hwf.numbered hedge⟩
  · rintro ⟨edge, hedge, rfl⟩
    have hport := hwf.mem_portEdges hedge side
    have hside := (hwf.joins_of_mem hedge).side side
    cases hslot : w.slot? (edge.port side).node with
    | none =>
        rw [portEdges, hslot] at hport
        cases hport
    | some slot =>
        exact ⟨slot, Array.mem_of_getElem? hslot,
          (hwf.mem_edges_iff hslot).mpr ⟨edge, hwf.edge?_id hedge, rfl⟩⟩

/-- On one side no edge is listed twice: a node lists an edge once, and the edge has one end on the
side. -/
theorem nodup_listed (horderly : w.Orderly) (side : Side) : (w.listed side).Nodup := by
  have hslot : ∀ i, (hi : i < w.slots.size) → w.slot? ⟨i⟩ = some w.slots[i] := fun i hi =>
    Array.getElem?_eq_getElem hi
  refine List.nodup_flatMap.mpr ⟨fun slot hmem => ?_, ?_⟩
  · obtain ⟨n, hn⟩ := exists_slot?_of_mem (Array.mem_toList_iff.mp hmem)
    exact horderly.nodup_edges hwf hn side
  · refine List.pairwise_iff_getElem.mpr fun i j hi hj hlt e hei hej => ?_
    obtain ⟨edge, hedge, hnode⟩ := (hwf.mem_edges_iff (hslot i hi)).mp hei
    obtain ⟨edge', hedge', hnode'⟩ := (hwf.mem_edges_iff (hslot j hj)).mp hej
    obtain rfl : edge = edge' := Option.some.inj (hedge.symm.trans hedge')
    exact Nat.ne_of_lt hlt (congrArg NodeId.index (hnode.symm.trans hnode'))

theorem indexed (horderly : w.Orderly) : w.Indexed where
  numbered _ hi := hwf.id_getElem hi
  tabled slot hslot side := by
    obtain ⟨n, hn⟩ := exists_slot?_of_mem hslot
    exact hwf.tabled hn side
  ascending slot hslot side edges hedges := by
    obtain ⟨n, hn⟩ := exists_slot?_of_mem hslot
    obtain ⟨i, hi, rfl⟩ := List.mem_iff_getElem.mp hedges
    have hport : w.portEdges ⟨n, side, i⟩ = (slot.edges side)[i] := by
      rw [portEdges, hn, Option.elim_some, Slot.portEdges, List.getElem?_eq_getElem hi]
      rfl
    exact hport ▸ horderly.ascending _
  once edge hedge side :=
    ⟨List.count_eq_one_of_mem (hwf.nodup_listed horderly side)
      (hwf.mem_listed_iff.mpr ⟨edge, hedge, rfl⟩), hwf.mem_portEdges hedge side⟩
  complete _ _ he := hwf.mem_listed_iff.mp he
  joined _ hedge := hwf.joins_of_mem hedge
  counted port := by
    rw [connectionCount_eq, hwf.portEdges_eq horderly, List.length_map,
      List.countP_eq_length_filter]
  bounded hspec max hmax := by
    rw [connectionCount_eq]
    exact horderly.bounded hspec max hmax

end WellFormed

end Wiring

namespace Graph

/-- The nodes that were declared roots are there, and each was declared once. -/
structure Rooted (g : Graph) : Prop where
  nodup : g.markedRoots.Nodup
  exist : ∀ n ∈ g.markedRoots, (g.wiring.node? n).isSome = true

namespace Rooted

variable {g h : Graph}

theorem extend (hg : g.Rooted) (hextends : g.wiring.Extends h.wiring)
    (hroots : h.markedRoots = g.markedRoots) : h.Rooted := by
  refine ⟨hroots ▸ hg.nodup, fun n hn => ?_⟩
  obtain ⟨node, hnode⟩ := Option.isSome_iff_exists.mp (hg.exist n (hroots ▸ hn))
  rw [hextends.node hnode]
  rfl

end Rooted

theorem Grows.rooted {g h : Graph} (hgh : Grows g h) (hg : g.Rooted) : h.Rooted := by
  induction hgh with
  | refl => exact hg
  | note _ _ ih => exact ih.extend (.refl _) rfl
  | @root h _ n hnode hnew ih =>
      refine ⟨List.nodup_append.mpr ⟨ih.nodup, List.nodup_singleton n, ?_⟩, fun m hm => ?_⟩
      · rintro m hm _ hn rfl
        exact hnew (List.mem_singleton.mp hn ▸ hm)
      · rcases List.mem_append.mp hm with hold | hnew
        · exact ih.exist m hold
        · rw [List.mem_singleton.mp hnew]
          exact hnode
  | node _ node ih => exact ih.extend (Wiring.extends_addSlot _ node) rfl
  | edge _ _ _ _ ih => exact ih.extend (Wiring.extends_addEdge _ _) rfl

theorem Reachable.rooted {g : Graph} (hg : g.Reachable) : g.Rooted := by
  induction hg with
  | empty settings => exact ⟨List.nodup_nil, fun n hn => absurd hn List.not_mem_nil⟩
  | @serve g hg request ih =>
      cases request with
      | build b => exact (g.build_grows hg.sound.wellFormed b).rooted ih
      | sealWiring =>
          exact ih.extend (progresses_sealWiring.wiring ▸ .refl _) progresses_sealWiring.markedRoots
      | call c =>
          have hprogress := (hg.sound.call c).1
          exact ih.extend (hprogress.wiring ▸ .refl _) hprogress.markedRoots

/-- Whatever was requested, in whatever order, and whether it was granted or refused: the lists at
the ports are an index of the edges, and the declared roots are nodes without repetition. -/
theorem after_indexed (settings : Settings) (requests : List Request) :
    (after settings requests).wiring.Indexed ∧ (after settings requests).Rooted := by
  have hreachable := reachable_after settings requests
  exact ⟨hreachable.sound.wellFormed.indexed hreachable.orderly, hreachable.rooted⟩

end Graph

end Negotiation
