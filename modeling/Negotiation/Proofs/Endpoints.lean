import Negotiation.Proofs.Grouping
import Negotiation.Proofs.Satisfaction
import Negotiation.Proofs.Termination

/-!
The protocol of an edge is that of both its ports.

Every edge has the protocol of the port at one of its ends (`Graph.Reachable.owned`): a single
binding takes that of its output, and the edges of a group take that of the single port, which the
nexus has too.  The ports at both ends agree, and where authors' functions of one identity are one
function, protocols that agree are the same (`Wiring.Identifies.eq_of_agrees`).  So it does not
matter from which end an edge takes its protocol (`Graph.endpoints_interchangeable`).
-/

namespace Negotiation

namespace Wiring

/-- The edge has the protocol of the port at one of its ends. -/
def Owns (w : Wiring) (edge : Edge) : Prop :=
  ∃ side spec, w.spec? (edge.port side) = some spec ∧ spec.protocol = edge.protocol

/-- Every edge has the protocol of the port at one of its ends. -/
def Owned (w : Wiring) : Prop :=
  ∀ edge ∈ w.edges, w.Owns edge

/-- Among the protocols of the ports, authors' functions of one identity are one function. -/
def Identifies (w : Wiring) : Prop :=
  ∀ {port other : Port} {spec spec' : PortSpec} {identity : Nat}
    {run run' : Parameter → Parameter → Except Reason Parameter},
    w.spec? port = some spec → w.spec? other = some spec' →
    spec.protocol.merge = .author identity run → spec'.protocol.merge = .author identity run' →
    run = run'

section Agreement

variable {w v : Wiring}

/-- Ports whose protocols agree have one protocol. -/
theorem Identifies.eq_of_agrees (h : w.Identifies) {port other : Port} {spec spec' : PortSpec}
    (hspec : w.spec? port = some spec) (hspec' : w.spec? other = some spec')
    (hagrees : spec.protocol.Agrees spec'.protocol) : spec.protocol = spec'.protocol := by
  have hmerge : spec.protocol.merge = spec'.protocol.merge := by
    have hsame := hagrees.merge
    cases hrule : spec.protocol.merge with
    | policy policy =>
        rw [hrule] at hsame
        cases hrule' : spec'.protocol.merge with
        | policy policy' =>
            rw [hrule'] at hsame
            exact congrArg MergeRule.policy (of_decide_eq_true hsame)
        | author identity' run' =>
            rw [hrule'] at hsame
            cases hsame
    | author identity run =>
        rw [hrule] at hsame
        cases hrule' : spec'.protocol.merge with
        | policy policy' =>
            rw [hrule'] at hsame
            cases hsame
        | author identity' run' =>
            rw [hrule'] at hsame
            obtain rfl : identity = identity' := of_decide_eq_true hsame
            rw [h hspec hspec' hrule hrule']
  obtain ⟨hsignature, _, hdown, hup⟩ := hagrees
  generalize spec.protocol = p at hmerge hsignature hdown hup
  generalize spec'.protocol = q at hmerge hsignature hdown hup
  cases p
  cases q
  rw [Protocol.mk.injEq]
  exact ⟨hsignature, hmerge, hdown, hup⟩

/-- Both ports of an edge have its protocol. -/
theorem Owned.eq_protocol (h : w.Owned) (hwf : w.WellFormed) (hidentifies : w.Identifies)
    {e : EdgeId} {edge : Edge} (hedge : w.edge? e = some edge) (side : Side) :
    ∃ spec, w.spec? (edge.port side) = some spec ∧ spec.protocol = edge.protocol := by
  obtain ⟨owner, spec, hspec, hprotocol⟩ := h edge (Array.mem_of_getElem? hedge)
  obtain ⟨_, ⟨_, output, houtput, hleaves⟩, _, input, hinput, harrives⟩ := hwf.joined hedge
  have hother : ∃ other, w.spec? (edge.port side) = some other ∧
      other.protocol.Agrees edge.protocol := by
    cases side with
    | input => exact ⟨input, hinput, harrives⟩
    | output => exact ⟨output, houtput, hleaves⟩
  obtain ⟨other, hfound, hagrees⟩ := hother
  rw [← hprotocol] at hagrees ⊢
  exact ⟨other, hfound, hidentifies.eq_of_agrees hfound hspec hagrees⟩

theorem Owns.extends {edge : Edge} (h : w.Owns edge) (hwv : w.Extends v) : v.Owns edge := by
  obtain ⟨side, spec, hspec, hprotocol⟩ := h
  exact ⟨side, spec, hwv.spec hspec, hprotocol⟩

theorem Owned.extends (h : w.Owned) (hwv : w.Extends v) (hedges : v.edges = w.edges) :
    v.Owned := by
  intro edge hedge
  rw [hedges] at hedge
  exact (h edge hedge).extends hwv

/-- Edges are added with the protocol of one of their ports. -/
theorem Owned.append (h : w.Owned) (hwv : w.Extends v) {added : List Edge}
    (hedges : v.edges.toList = w.edges.toList ++ added) (hadded : ∀ edge ∈ added, v.Owns edge) :
    v.Owned := by
  intro edge hedge
  rw [← Array.mem_toList_iff, hedges, List.mem_append, Array.mem_toList_iff] at hedge
  rcases hedge with hold | hnew
  · exact (h edge hold).extends hwv
  · exact hadded edge hnew

end Agreement

/-- The edge, with the protocol of the port at one of its ends. -/
def retypeEdge (w : Wiring) (side : Side) (edge : Edge) : Edge :=
  match w.spec? (edge.port side) with
  | some spec => { edge with protocol := spec.protocol }
  | none => edge

/-- The wiring, where each edge for which an end is chosen has the protocol of the port there. -/
def retype (w : Wiring) (choose : EdgeId → Option Side) : Wiring :=
  { w with edges := w.edges.map fun edge => (choose edge.id).elim edge (w.retypeEdge · edge) }

/-- An edge has that protocol already. -/
theorem Owned.retype_eq {w : Wiring} (h : w.Owned) (hwf : w.WellFormed)
    (hidentifies : w.Identifies) (choose : EdgeId → Option Side) : w.retype choose = w := by
  have hedge : ∀ edge ∈ w.edges, (choose edge.id).elim edge (w.retypeEdge · edge) = edge := by
    intro edge hmem
    cases choose edge.id with
    | none => rfl
    | some side =>
        obtain ⟨spec, hspec, hprotocol⟩ :=
          h.eq_protocol hwf hidentifies (hwf.edge?_id hmem) side
        rw [Option.elim_some, retypeEdge, hspec]
        dsimp only
        rw [hprotocol]
  have hedges : (w.edges.map fun edge => (choose edge.id).elim edge (w.retypeEdge · edge)) =
      w.edges := by
    refine Array.ext (Array.size_map ..) fun i hi hi' => ?_
    rw [Array.getElem_map]
    exact hedge _ (Array.getElem_mem hi')
  rw [retype, hedges]

end Wiring

namespace Graph

section Building

variable {g : Graph}

/-- The edges of a group have the protocol of its nexus. -/
theorem HasGroup.owns {w : Wiring} {group : FanGroup} {protocol : Protocol} {bound : BoundGroup}
    (h : HasGroup w group protocol bound) : ∀ edge ∈ group.edges protocol bound, w.Owns edge := by
  obtain ⟨name, hnexus⟩ := h.nexus
  obtain ⟨⟨trunk, htrunk, htrunkProtocol, _⟩, branch, hbranch, hbranchProtocol, _⟩ :=
    spec?_nexus hnexus
  have howns : w.Owns (group.trunkEdge protocol bound.nexus bound.trunk) := by
    refine ⟨group.mode.manySide, trunk, ?_, htrunkProtocol⟩
    rw [← htrunk]
    obtain ⟨mode, single, many, policy, pre, post⟩ := group
    cases mode <;> rfl
  have hbranches : ∀ edge ∈ group.branchEdges protocol bound, w.Owns edge := by
    intro edge hedge
    obtain ⟨e, port, rfl⟩ : ∃ e port, edge = group.branchEdge protocol bound.nexus port e := by
      rw [FanGroup.branchEdges, ← List.map_uncurry_zip_eq_zipWith] at hedge
      obtain ⟨⟨e, port⟩, _, rfl⟩ := List.mem_map.mp hedge
      exact ⟨e, port, rfl⟩
    refine ⟨group.mode.singleSide, branch, ?_, hbranchProtocol⟩
    rw [← hbranch]
    obtain ⟨mode, single, many, policy, pre, post⟩ := group
    cases mode <;> rfl
  intro edge hedge
  rw [FanGroup.edges] at hedge
  split at hedge
  · rcases List.mem_cons.mp hedge with rfl | hmem
    · exact howns
    · exact hbranches edge hmem
  · rcases List.mem_append.mp hedge with hmem | hlast
    · exact hbranches edge hmem
    · rw [List.mem_singleton.mp hlast]
      exact howns

theorem edges_addNode (g : Graph) (node : Node) :
    (g.addNode node).2.wiring.edges = g.wiring.edges := by
  rw [addNode]
  split
  · rfl
  · split <;> rfl

theorem edges_markRoot (g : Graph) (n : NodeId) :
    (g.markRoot n).2.wiring.edges = g.wiring.edges := by
  rw [markRoot]
  split
  · rfl
  · split <;> rfl

theorem owned_bindThrough (h : g.wiring.Owned) (output input : Port) (adapter : Adapter) :
    (g.bindThrough output input adapter).2.wiring.Owned := by
  rw [bindThrough]
  split
  · exact h
  · split
    · exact h
    · rename_i protocol hcheck
      -- A single binding takes the protocol of its output.
      obtain ⟨_, _, hrest⟩ := exists_of_bind_eq_ok hcheck
      obtain ⟨_, _, hrest⟩ := exists_of_bind_eq_ok hrest
      obtain ⟨_, _, hrest⟩ := exists_of_bind_eq_ok hrest
      obtain ⟨spec, hspec, hprotocol⟩ := exists_of_bind_eq_ok hrest
      have hextends := g.wiring.extends_addEdge
        ⟨⟨g.wiring.edges.size⟩, output, input, protocol, adapter, none⟩
      refine h.append hextends Array.toList_push fun edge hedge => ?_
      rw [List.mem_singleton.mp hedge]
      exact ⟨.output, spec, hextends.spec (portSpec_ok hspec), Except.ok.inj hprotocol⟩

theorem Reachable.owned_bindGroup (hg : g.Reachable) (h : g.wiring.Owned) (group : FanGroup) :
    (g.bindGroup group).2.wiring.Owned := by
  cases hbind : g.bindGroup group with
  | mk result next =>
      cases result with
      | error error =>
          have hsame : next.wiring = g.wiring := by
            rw [Graph.bindGroup] at hbind
            split at hbind
            · cases hbind
              rfl
            · split at hbind
              · cases hbind
                rfl
              · cases hbind
          rw [hsame]
          exact h
      | ok bound =>
          obtain ⟨spec, hspec, hadds⟩ := addsGroup_of_bindGroup hg hbind
          obtain ⟨spec', hspec', hgroup⟩ := bindGroup_ok g hg.sound.wellFormed hbind
          obtain rfl := Option.some.inj (hspec.symm.trans hspec')
          have hgrows := g.bindGroup_grows hg.sound.wellFormed group
          rw [hbind] at hgrows
          exact h.append hgrows.extend hadds.edges hgroup.owns

/-- Requests lead to graphs in which every edge has the protocol of one of its ports. -/
theorem Reachable.owned (hg : g.Reachable) : g.wiring.Owned := by
  induction hg with
  | empty settings =>
      intro edge hedge
      cases Array.not_mem_empty edge hedge
  | @serve g hg request ih =>
      cases request with
      | build b =>
          have hgrows := g.build_grows hg.sound.wellFormed b
          cases b with
          | addNode node => exact ih.extends hgrows.extend (edges_addNode g node)
          | markRoot n => exact ih.extends hgrows.extend (edges_markRoot g n)
          | bind output input => exact owned_bindThrough ih output input .identity
          | bindThrough output input adapter => exact owned_bindThrough ih output input adapter
          | bindGroup group => exact hg.owned_bindGroup ih group
      | sealWiring =>
          rw [Graph.serve, progresses_sealWiring.wiring]
          exact ih
      | call c =>
          rw [Graph.serve, (hg.sound.call c).1.wiring]
          exact ih

end Building

/-- The graph, where each edge for which an end is chosen has the protocol of the port there. -/
def retype (g : Graph) (choose : EdgeId → Option Side) : Graph :=
  { g with wiring := g.wiring.retype choose }

/-- The graphs show the same of every key and every edge, and answer alike. -/
structure Indistinct (g h : Graph) : Prop where
  /-- The state of a key, with its values or its failure. -/
  entry : ∀ key, g.entry key = h.entry key
  progress : ∀ key, g.progress key = h.progress key
  answer : ∀ key, (g.demand key).1 = (h.demand key).1
  resolved : ∀ e, g.resolved? e = h.resolved? e
  failure : ∀ e, g.failure? e = h.failure? e
  bound : ∀ e, g.boundEdge? e = h.boundEdge? e
  evaluations : g.evaluations = h.evaluations
  frozen : g.freeze.1 = h.freeze.1

/-- Both ports of an edge have its protocol; where edges take it from the one or the other, demands
and other requests to resolve come to the same. -/
theorem endpoints_interchangeable {g : Graph} (hg : g.Reachable)
    (hidentifies : g.wiring.Identifies) :
    (∀ {e edge}, g.wiring.edge? e = some edge → ∀ side,
      ∃ spec, g.wiring.spec? (edge.port side) = some spec ∧ spec.protocol = edge.protocol) ∧
      ∀ choose keys requests, Indistinct (((g.retype choose).demands keys).calls requests)
        ((g.demands keys).calls requests) := by
  have howned := hg.owned
  have hwf := hg.sound.wellFormed
  refine ⟨fun hedge side => howned.eq_protocol hwf hidentifies hedge side,
    fun choose keys requests => ?_⟩
  have hsame : g.retype choose = g := by
    rw [retype, howned.retype_eq hwf hidentifies]
  rw [hsame]
  exact ⟨fun _ => rfl, fun _ => rfl, fun _ => rfl, fun _ => rfl, fun _ => rfl, fun _ => rfl, rfl,
    rfl⟩

/-- A source joined to two sinks, with a protocol that settles by a function of an author's. -/
def tap : Graph :=
  after {} [.build (.addNode (.source "cpu" unsettled (.exactly 1)
      (.ofList [("width", .span 8 16)]))),
    .build (.addNode (.sink "ram" unsettled (.exactly 1) (.ofList [("width", .num 8)]))),
    .build (.addNode (.sink "rom" unsettled (.exactly 1) (.ofList [("width", .num 8)]))),
    .build (.bindGroup ⟨.fanOut, NodeId.output ⟨0⟩ 0, [NodeId.input ⟨1⟩ 0, NodeId.input ⟨2⟩ 0],
      .intersect, .identity, .identity⟩)]

theorem protocol_tap {port : Port} {spec : PortSpec} (h : tap.wiring.spec? port = some spec) :
    spec.protocol = unsettled := by
  have hall : tap.wiring.slots.toList.map (fun slot => slot.node.ports.map (·.protocol)) =
      [[unsettled], [unsettled], [unsettled], [unsettled, unsettled]] := rfl
  obtain ⟨node, hnode, hspec⟩ := Option.bind_eq_some_iff.mp h
  obtain ⟨slot, hslot, rfl⟩ := Wiring.node?_eq_some.mp hnode
  have hport : spec.protocol ∈ slot.node.ports.map (·.protocol) :=
    List.mem_map_of_mem (List.mem_of_mem_filter (List.mem_of_getElem? hspec))
  have hnodes : slot.node.ports.map (·.protocol) ∈
      tap.wiring.slots.toList.map (fun slot => slot.node.ports.map (·.protocol)) :=
    List.mem_map_of_mem (Array.mem_toList_iff.mpr (Array.mem_of_getElem? hslot))
  rw [hall] at hnodes
  have huniform : ∀ protocols ∈ [[unsettled], [unsettled], [unsettled], [unsettled, unsettled]],
      ∀ protocol ∈ protocols, protocol = unsettled := by simp
  exact huniform _ hnodes _ hport

/-- The function of the author's settles the edge between the source and the nexus, whichever of
them it is taken from. -/
theorem tap_interchangeable :
    tap.Reachable ∧ tap.wiring.Identifies ∧
      (tap.call .resolveAll).resolved? ⟨0⟩ = some (.ofList [("width", .num 8)]) ∧
      ∀ side, Indistinct (((tap.retype fun _ => some side).demands [.edge ⟨2⟩]).calls [.freeze])
        ((tap.demands [.edge ⟨2⟩]).calls [.freeze]) := by
  have hreachable : tap.Reachable := reachable_after _ _
  have hidentifies : tap.wiring.Identifies := by
    intro _ _ _ _ _ _ _ hspec hspec' hrun hrun'
    rw [protocol_tap hspec] at hrun
    rw [protocol_tap hspec', hrun] at hrun'
    cases hrun'
    rfl
  obtain ⟨_, hsame⟩ := endpoints_interchangeable hreachable hidentifies
  exact ⟨hreachable, hidentifies, by decide, fun side =>
    hsame (fun _ => some side) [.edge ⟨2⟩] [.freeze]⟩

end Graph

end Negotiation
