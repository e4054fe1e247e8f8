import Negotiation.Proofs.Emission

/-!
The outcome of a group between sources and sinks.

A group whose adapters pass everything on settles by two equations.  Its trunk merges what the
single port states with what the policy of the group reduces the many ports to
(`Graph.HasGroup.yields_trunk_iff`); a branch merges, with that policy, the settled trunk with what
its own port states (`Graph.HasGroup.yields_branch_iff`).  For a protocol that takes what satisfies
both sides, the trunk and every branch come to what the many ports reduce to, if the single port
admits it, and fail otherwise (`Graph.group_outcome`).
-/

namespace Negotiation

namespace GroupMode

/-- Merge what comes from the single side of a group with what comes from its many side. -/
def merge (mode : GroupMode) (rule : MergeRule) (single many : Parameter) :
    Except Reason Parameter :=
  rule.merge (mode.sides single many).1 (mode.sides single many).2

/-- It does not matter to a policy from which side a parameter comes. -/
theorem merge_policy_eq_ok_iff {policy : Policy} {single many merged : Parameter} (mode : GroupMode)
    (hseparated : policy = .intersect → single.Separated ∧ many.Separated) :
    mode.merge (.policy policy) single many = .ok merged ↔
      policy.merge single many = .ok merged := by
  cases mode with
  | fanOut => exact Iff.rfl
  | fanIn =>
      exact ⟨Policy.merge_comm fun hpolicy => (hseparated hpolicy).symm,
        Policy.merge_comm hseparated⟩

end GroupMode

namespace Wiring

/-- The port belongs to a source or a sink that states this in the direction. -/
def States (w : Wiring) (port : Port) (direction : Direction) (value : Parameter) : Prop :=
  ∃ node protocol, w.node? port.node = some node ∧
    node.statement? direction = some (protocol, value)

theorem States.extends {w v : Wiring} {port : Port} {direction : Direction} {value : Parameter}
    (h : w.States port direction value) (hwv : w.Extends v) : v.States port direction value := by
  obtain ⟨node, protocol, hnode, hstates⟩ := h
  exact ⟨node, protocol, hwv.node hnode, hstates⟩

variable {w : Wiring} {edge : Edge} {direction : Direction} {value : Parameter}

/-- A node that states something has one port for it. -/
theorem ports_of_statement? {node : Node} {protocol : Protocol}
    (h : node.statement? direction = some (protocol, value)) :
    ∃ spec, node.sidePorts direction.departure = [spec] ∧ spec.protocol = protocol := by
  cases node with
  | source name own cardinality offer =>
      cases direction with
      | down =>
          cases h
          exact ⟨_, rfl, rfl⟩
      | up => cases h
  | sink name own cardinality demand =>
      cases direction with
      | down => cases h
      | up =>
          cases h
          exact ⟨_, rfl, rfl⟩
  | _ => cases h

theorem emitter_eq (edge : Edge) (direction : Direction) :
    emitter edge direction = direction.key (edge.origin direction).node := by
  cases direction <;> rfl

theorem WellFormed.faces_origin (hwf : w.WellFormed) {e : EdgeId} (hedge : w.edge? e = some edge)
    (direction : Direction) :
    w.Faces (edge.origin direction) direction.departure edge.protocol := by
  obtain ⟨_, houtput, hinput⟩ := hwf.joined hedge
  cases direction with
  | down => exact houtput
  | up => exact hinput

/-- What crosses an edge that starts at a source or a sink and passes everything on. -/
theorem crosses_iff_of_states (direction : Direction) (hwf : w.WellFormed) {e : EdgeId}
    (hedge : w.edge? e = some edge) (hadapter : edge.adapter = .identity)
    (hstates : w.States (edge.origin direction) direction value) {crossed : Parameter} :
    w.Crosses edge direction crossed ↔
      (edge.protocol.schema direction).admits value = true ∧ crossed = value := by
  obtain ⟨node, own, hnode, hstatement⟩ := hstates
  obtain ⟨hside, spec, hspec, hagrees⟩ := hwf.faces_origin hedge direction
  obtain ⟨port, hports, hprotocol⟩ := ports_of_statement? hstatement
  rw [spec?, hnode, Option.bind_some, hside, hports] at hspec
  obtain ⟨hindex, hport⟩ := List.getElem?_eq_some_iff.mp hspec
  have hzero : (edge.origin direction).index = 0 := Nat.lt_one_iff.mp hindex
  have hschema : own.schema direction = edge.protocol.schema direction := by
    simp only [hzero, List.getElem_cons_zero] at hport
    rw [← hprotocol, hport, Protocol.schema.eq_def, Protocol.schema.eq_def, hagrees.signature]
  simp only [Crosses, emitter_eq, yields_statement_iff hwf hnode hstatement, hzero, hadapter,
    Adapter.apply_identity, hschema, Except.ok.injEq]
  constructor
  · rintro ⟨_, emitted, ⟨hadmits, rfl⟩, hemitted, rfl, _⟩
    exact ⟨hadmits, (Option.some.inj hemitted).symm⟩
  · rintro ⟨hadmits, rfl⟩
    exact ⟨[crossed], crossed, ⟨hadmits, rfl⟩, rfl, rfl, hadmits⟩

variable {n : NodeId} {name : String} {mode : GroupMode} {protocol : Protocol} {count : Nat}
  {policy : Policy} {out : List Parameter}

/-- A nexus hands the settled trunk on, if it fits the schema. -/
theorem yields_nexus_forward_iff (hwf : w.WellFormed)
    (hnode : w.node? n = some (.nexus name mode protocol count policy)) {trunk : EdgeId}
    (htrunk : w.portEdges ⟨n, mode.manySide, 0⟩ = [trunk]) (out : List Parameter) :
    w.Yields (mode.forward.key n) out ↔ ∃ value, w.Yields (.edge trunk) [value] ∧
      (protocol.schema mode.forward).admits value = true ∧ out = [value] := by
  rw [← arrival_forward] at htrunk
  rw [yields_nexus_iff hwf hnode htrunk (List.cons_ne_nil _ _)]
  simp only [decide_true, ↓reduceIte, Reads, List.forall₂_cons_left_iff, List.forall₂_nil_left_iff]
  constructor
  · rintro ⟨_, value, ⟨settled, _, hsettled, rfl, rfl⟩, hread, hadmits, rfl⟩
    rw [(List.cons.inj hread).1] at hsettled
    exact ⟨value, hsettled, hadmits, rfl⟩
  · rintro ⟨value, hsettled, hadmits, rfl⟩
    exact ⟨[value], value, ⟨value, [], hsettled, rfl, rfl⟩, rfl, hadmits, rfl⟩

/-- A nexus reduces what crosses the branches, if that fits the schema. -/
theorem yields_nexus_backward_iff (hwf : w.WellFormed)
    (hnode : w.node? n = some (.nexus name mode protocol count policy)) {branches : List EdgeId}
    (hbranches : w.portEdges ⟨n, mode.singleSide, 0⟩ = branches) (hne : branches ≠ []) :
    w.Yields (mode.backward.key n) out ↔ ∃ asked value,
      List.Forall₂ (fun e a => ∃ edge, w.edge? e = some edge ∧ w.Crosses edge mode.backward a)
        branches asked ∧
      policy.reduce asked = .ok value ∧ (protocol.schema mode.backward).admits value = true ∧
      out = [value] := by
  rw [← arrival_backward] at hbranches
  rw [yields_nexus_iff hwf hnode hbranches hne]
  simp only [backward_ne_forward, decide_false, ↓reduceIte]
  exact Iff.rfl

end Wiring

namespace Graph

section Equations

/-- The single port of the group states the one parameter and its many ports the others, each of
which fits the schema of the protocol. -/
structure HasEnds (w : Wiring) (group : FanGroup) (protocol : Protocol) (offer : Parameter)
    (asked : List Parameter) : Prop where
  single : w.States group.single group.mode.forward offer ∧
    (protocol.schema group.mode.forward).admits offer = true
  many : List.Forall₂ (fun port a => w.States port group.mode.backward a ∧
    (protocol.schema group.mode.backward).admits a = true) group.many asked

variable {w v : Wiring} {group : FanGroup} {protocol : Protocol} {bound : BoundGroup}
  {offer : Parameter} {asked : List Parameter} {out : List Parameter}

theorem HasEnds.extends (h : HasEnds w group protocol offer asked) (hwv : w.Extends v) :
    HasEnds v group protocol offer asked :=
  ⟨⟨h.single.1.extends hwv, h.single.2⟩, h.many.imp fun _ _ h => ⟨h.1.extends hwv, h.2⟩⟩

/-- The nexus of a group has the trunk on the one side. -/
theorem HasGroup.portEdges_trunkPort (hgroup : HasGroup w group protocol bound)
    (hwf : w.WellFormed) (horderly : w.Orderly) :
    w.portEdges (group.trunkPort bound.nexus) = [bound.trunk] := by
  obtain ⟨name, hnexus⟩ := hgroup.nexus
  obtain ⟨⟨spec, hspec, _, hexactly⟩, _⟩ := spec?_nexus hnexus
  refine horderly.portEdges_eq hspec (by rw [hexactly]; rfl) (List.pairwise_singleton _ _) ?_
  intro e he
  rw [List.mem_singleton.mp he]
  exact hgroup.trunk_mem hwf

/-- The nexus of a group has the branches on the other side, in the order of the group. -/
theorem HasGroup.portEdges_branchPort (hgroup : HasGroup w group protocol bound)
    (hwf : w.WellFormed) (horderly : w.Orderly)
    (hascending : bound.branches.Pairwise EdgeId.Before) :
    w.portEdges (group.branchPort bound.nexus) = bound.branches := by
  obtain ⟨name, hnexus⟩ := hgroup.nexus
  obtain ⟨_, spec, hspec, _, hexactly⟩ := spec?_nexus hnexus
  refine horderly.portEdges_eq hspec ?_ hascending fun e he => hgroup.branch_mem hwf he
  rw [hexactly, hgroup.branches.length_eq]
  rfl

/-- An edge of a group resolves to the merge of what crosses it from the two sides of the group. -/
theorem yields_edge_oriented_iff (mode : GroupMode) {e : EdgeId} {edge : Edge}
    (hedge : w.edge? e = some edge) :
    w.Yields (.edge e) out ↔ ∃ single many value, w.Crosses edge mode.forward single ∧
      w.Crosses edge mode.backward many ∧ mode.merge edge.rule single many = .ok value ∧
      out = [value] := by
  rw [Wiring.yields_edge_iff hedge]
  cases mode with
  | fanOut => exact Iff.rfl
  | fanIn =>
      constructor
      · rintro ⟨down, up, value, hdown, hup, hrest⟩
        exact ⟨up, down, value, hup, hdown, hrest⟩
      · rintro ⟨up, down, value, hup, hdown, hrest⟩
        exact ⟨down, up, value, hdown, hup, hrest⟩

/-- Where the edges of a group start, on the side that is away from the nexus. -/
theorem origin_trunkEdge (group : FanGroup) (protocol : Protocol) (nexus : NodeId) (e : EdgeId) :
    (group.trunkEdge protocol nexus e).origin group.mode.forward = group.single := by
  obtain ⟨mode, single, many, policy, pre, post⟩ := group
  cases mode <;> rfl

theorem origin_branchEdge (group : FanGroup) (protocol : Protocol) (nexus : NodeId) (port : Port)
    (e : EdgeId) :
    (group.branchEdge protocol nexus port e).origin group.mode.backward = port := by
  obtain ⟨mode, single, many, policy, pre, post⟩ := group
  cases mode <;> rfl

/-- What crosses an edge that starts at a node with one value there and passes everything on. -/
theorem crosses_iff_of_singleton {edge : Edge} {direction : Direction}
    (hadapter : edge.adapter = .identity) (hindex : (edge.origin direction).index = 0)
    (hsingle : ∀ values, w.Yields (Wiring.emitter edge direction) values →
      ∃ value, values = [value]) {crossed : Parameter} :
    w.Crosses edge direction crossed ↔
      w.Yields (Wiring.emitter edge direction) [crossed] ∧
        (edge.protocol.schema direction).admits crossed = true := by
  simp only [Wiring.Crosses, hadapter, Adapter.apply_identity, hindex, Except.ok.injEq]
  constructor
  · rintro ⟨values, emitted, hvalues, hemitted, rfl, hadmits⟩
    obtain ⟨value, rfl⟩ := hsingle values hvalues
    rw [Option.some.inj hemitted] at hvalues
    exact ⟨hvalues, hadmits⟩
  · rintro ⟨hvalues, hadmits⟩
    exact ⟨[crossed], crossed, hvalues, rfl, rfl, hadmits⟩

theorem forall₂_comp {α β γ : Type} {r : α → β → Prop} {s : β → γ → Prop} {xs : List α}
    {ys : List β} {zs : List γ} (h : List.Forall₂ r xs ys) (h' : List.Forall₂ s ys zs) :
    List.Forall₂ (fun x z => ∃ y, r x y ∧ s y z) xs zs := by
  induction h generalizing zs with
  | nil =>
      cases h'
      exact .nil
  | cons hxy _ ih =>
      cases h' with
      | cons hyz hrest => exact .cons ⟨_, hxy, hyz⟩ (ih hrest)

/-- A relation that leaves each member of the first list one partner relates it to one list. -/
theorem forall₂_iff_eq {α β : Type} {r : α → β → Prop} {xs : List α} {ys zs : List β}
    (h : List.Forall₂ (fun x y => ∀ z, r x z ↔ z = y) xs ys) : List.Forall₂ r xs zs ↔ zs = ys := by
  induction h generalizing zs with
  | nil => exact List.forall₂_nil_left_iff
  | cons hxy _ ih =>
      rw [List.forall₂_cons_left_iff]
      constructor
      · rintro ⟨z, others, hz, hothers, rfl⟩
        rw [(hxy z).mp hz, ih.mp hothers]
      · rintro rfl
        exact ⟨_, _, (hxy _).mpr rfl, ih.mpr rfl, rfl⟩

/-- A bound group whose adapters pass everything on, between sources and sinks. -/
structure PlainGroup (w : Wiring) (group : FanGroup) (protocol : Protocol) (bound : BoundGroup)
    (offer : Parameter) (asked : List Parameter) : Prop where
  wellFormed : w.WellFormed
  orderly : w.Orderly
  stands : HasGroup w group protocol bound
  ascending : bound.branches.Pairwise EdgeId.Before
  nonempty : group.many ≠ []
  pre : group.pre = .identity
  post : group.post = .identity
  ends : HasEnds w group protocol offer asked

namespace PlainGroup

variable (h : PlainGroup w group protocol bound offer asked)

include h

theorem trunkAdapter : group.trunkAdapter = .identity := by
  rw [FanGroup.trunkAdapter]
  split
  · exact h.pre
  · exact h.post

theorem branchAdapter : group.branchAdapter = .identity := by
  rw [FanGroup.branchAdapter]
  split
  · exact h.post
  · exact h.pre

theorem branches_ne_nil : bound.branches ≠ [] := by
  intro hnil
  have hlength := h.stands.branches.length_eq
  rw [hnil] at hlength
  exact h.nonempty (List.eq_nil_of_length_eq_zero hlength.symm)

theorem many_fits : ∀ a ∈ asked, (protocol.schema group.mode.backward).admits a = true := by
  intro a ha
  obtain ⟨port, _, _, hadmits⟩ := Wiring.exists_of_forall₂ h.ends.many.flip ha
  exact hadmits

/-- What crosses a branch towards the nexus is what its port states. -/
theorem branches_cross : List.Forall₂ (fun e a => ∃ port,
    w.edge? e = some (group.branchEdge protocol bound.nexus port e) ∧
      ∀ crossed, w.Crosses (group.branchEdge protocol bound.nexus port e) group.mode.backward
        crossed ↔ crossed = a) bound.branches asked := by
  refine (forall₂_comp h.stands.branches h.ends.many).imp ?_
  rintro e a ⟨port, hedge, hstates, hadmits⟩
  refine ⟨port, hedge, fun crossed => ?_⟩
  rw [Wiring.crosses_iff_of_states _ h.wellFormed hedge h.branchAdapter
    (by rw [origin_branchEdge]; exact hstates)]
  exact and_iff_right hadmits

/-- What crosses the trunk towards the nexus is what the single port states. -/
theorem trunk_crosses_forward {crossed : Parameter} :
    w.Crosses (group.trunkEdge protocol bound.nexus bound.trunk) group.mode.forward crossed ↔
      crossed = offer := by
  rw [Wiring.crosses_iff_of_states _ h.wellFormed h.stands.trunk h.trunkAdapter
    (by rw [origin_trunkEdge]; exact h.ends.single.1)]
  exact and_iff_right h.ends.single.2

/-- What crosses the trunk from the nexus is what the many ports reduce to. -/
theorem trunk_crosses_backward {crossed : Parameter} :
    w.Crosses (group.trunkEdge protocol bound.nexus bound.trunk) group.mode.backward crossed ↔
      group.policy.reduce asked = .ok crossed ∧
        (protocol.schema group.mode.backward).admits crossed = true := by
  obtain ⟨name, hnexus⟩ := h.stands.nexus
  obtain ⟨hemitter, hindex⟩ := emitter_trunkEdge group protocol bound.nexus bound.trunk
  have hread : ∀ read, List.Forall₂ (fun e a => ∃ edge, w.edge? e = some edge ∧
      w.Crosses edge group.mode.backward a) bound.branches read ↔ read = asked := by
    refine fun read => forall₂_iff_eq (h.branches_cross.imp ?_)
    rintro e a ⟨port, hedge, hcross⟩ crossed
    simp only [hedge, Option.some.injEq, exists_eq_left', hcross]
  have hyields : ∀ out, w.Yields (group.mode.backward.key bound.nexus) out ↔ ∃ value,
      group.policy.reduce asked = .ok value ∧
      (protocol.schema group.mode.backward).admits value = true ∧ out = [value] := by
    intro out
    rw [Wiring.yields_nexus_backward_iff h.wellFormed hnexus
      (h.stands.portEdges_branchPort h.wellFormed h.orderly h.ascending) h.branches_ne_nil]
    simp only [hread]
    exact ⟨fun ⟨_, value, hsame, hrest⟩ => ⟨value, hsame ▸ hrest⟩,
      fun ⟨value, hrest⟩ => ⟨asked, value, rfl, hrest⟩⟩
  rw [crosses_iff_of_singleton h.trunkAdapter hindex, hemitter, hyields]
  · simp only [List.cons.injEq, and_true]
    constructor
    · rintro ⟨⟨value, hreduce, hadmits, rfl⟩, _⟩
      exact ⟨hreduce, hadmits⟩
    · rintro ⟨hreduce, hadmits⟩
      exact ⟨⟨crossed, hreduce, hadmits, rfl⟩, hadmits⟩
  · intro values hvalues
    rw [hemitter, hyields] at hvalues
    obtain ⟨value, _, _, rfl⟩ := hvalues
    exact ⟨value, rfl⟩

/-- What crosses a branch from the nexus is what the trunk has settled to. -/
theorem branch_crosses_forward (port : Port) (e : EdgeId) {crossed : Parameter} :
    w.Crosses (group.branchEdge protocol bound.nexus port e) group.mode.forward crossed ↔
      w.Yields (.edge bound.trunk) [crossed] ∧
        (protocol.schema group.mode.forward).admits crossed = true := by
  obtain ⟨name, hnexus⟩ := h.stands.nexus
  obtain ⟨hemitter, hindex⟩ := emitter_branchEdge group protocol bound.nexus port e
  have hyields := Wiring.yields_nexus_forward_iff h.wellFormed hnexus
    (h.stands.portEdges_trunkPort h.wellFormed h.orderly)
  rw [crosses_iff_of_singleton h.branchAdapter hindex, hemitter, hyields]
  · simp only [List.cons.injEq, and_true]
    constructor
    · rintro ⟨⟨value, hsettled, hadmits, rfl⟩, _⟩
      exact ⟨hsettled, hadmits⟩
    · rintro ⟨hsettled, hadmits⟩
      exact ⟨⟨crossed, hsettled, hadmits, rfl⟩, hadmits⟩
  · intro values hvalues
    rw [hemitter, hyields] at hvalues
    obtain ⟨value, _, _, rfl⟩ := hvalues
    exact ⟨value, rfl⟩

/-- The trunk merges what the single port states with what the many ports reduce to. -/
theorem yields_trunk_iff :
    w.Yields (.edge bound.trunk) out ↔ ∃ reduced value, group.policy.reduce asked = .ok reduced ∧
      (protocol.schema group.mode.backward).admits reduced = true ∧
      group.mode.merge protocol.merge offer reduced = .ok value ∧ out = [value] := by
  rw [yields_edge_oriented_iff group.mode h.stands.trunk]
  simp only [h.trunk_crosses_forward, h.trunk_crosses_backward, and_assoc]
  exact ⟨fun ⟨_, reduced, value, hsame, hrest⟩ => ⟨reduced, value, hsame ▸ hrest⟩,
    fun ⟨reduced, value, hrest⟩ => ⟨offer, reduced, value, rfl, hrest⟩⟩

/-- Every branch merges the settled trunk with what its own port states. -/
theorem yields_branch_iff {e : EdgeId} (he : e ∈ bound.branches) : ∃ a ∈ asked, ∀ out,
    w.Yields (.edge e) out ↔ ∃ settled value, w.Yields (.edge bound.trunk) [settled] ∧
      (protocol.schema group.mode.forward).admits settled = true ∧
      group.mode.merge (.policy group.policy) settled a = .ok value ∧ out = [value] := by
  obtain ⟨a, ha, port, hedge, hcross⟩ := Wiring.exists_of_forall₂ h.branches_cross he
  refine ⟨a, ha, fun out => ?_⟩
  rw [yields_edge_oriented_iff group.mode hedge]
  simp only [h.branch_crosses_forward, hcross, and_assoc]
  exact ⟨fun ⟨settled, _, value, hsettled, hadmits, hsame, hrest⟩ =>
      ⟨settled, value, hsettled, hadmits, hsame ▸ hrest⟩,
    fun ⟨settled, value, hsettled, hadmits, hrest⟩ =>
      ⟨settled, _, value, hsettled, hadmits, rfl, hrest⟩⟩

end PlainGroup

section Intersect

variable (h : PlainGroup w group protocol bound offer asked)
  (hmerge : protocol.merge = .policy .intersect)
  (hschemas : protocol.schema .down = protocol.schema .up)
  (haddress : ∀ name, (protocol.schema .down).get? name ≠ some .address)

theorem schema_eq_of_schemas (hschemas : protocol.schema .down = protocol.schema .up)
    (direction : Direction) : protocol.schema direction = protocol.schema .down := by
  cases direction with
  | down => rfl
  | up => exact hschemas.symm

namespace PlainGroup

theorem hasKey (h : PlainGroup w group protocol bound offer asked) {e : EdgeId}
    (he : e = bound.trunk ∨ e ∈ bound.branches) : w.HasKey (.edge e) := by
  rcases he with rfl | he
  · exact Wiring.HasKey.of_edge? h.stands.trunk
  · obtain ⟨port, hedge⟩ := h.stands.exists_branch he
    exact Wiring.HasKey.of_edge? hedge

include h hschemas

theorem offer_fits : (protocol.schema .down).admits offer = true := by
  rw [← schema_eq_of_schemas hschemas group.mode.forward]
  exact h.ends.single.2

theorem asked_fits : ∀ a ∈ asked, (protocol.schema .down).admits a = true := by
  rw [← schema_eq_of_schemas hschemas group.mode.backward]
  exact h.many_fits

include haddress

/-- What the many ports reduce to fits the schema, and merged with what one of them states it stays
as it is. -/
theorem reduced_spec {r : Parameter} (hreduce : group.policy.reduce asked = .ok r) :
    r.Addressless ∧ (∀ direction, (protocol.schema direction).admits r = true) ∧
      ∀ a ∈ asked, ∀ v, group.mode.merge (.policy group.policy) r a = .ok v ↔ v = r := by
  have hfits := h.asked_fits hschemas
  have haddressless : ∀ a ∈ asked, a.Addressless := fun a ha =>
    Schema.addressless_of_admits haddress (hfits a ha)
  obtain ⟨hreduced, habsorbs⟩ := Policy.absorbs_of_reduce haddressless hreduce
  refine ⟨hreduced, fun direction => ?_, fun a ha v => ?_⟩
  · rw [schema_eq_of_schemas hschemas]
    exact Schema.admits_of_reduce hfits hreduce
  · have hself : group.policy.merge r a = .ok r := habsorbs a ha
    rw [GroupMode.merge_policy_eq_ok_iff _ fun _ =>
      ⟨hreduced.separated, (haddressless a ha).separated⟩, hself, Except.ok.injEq, eq_comm]

include hmerge

/-- The trunk resolves to what the many ports reduce to, if the single port admits it. -/
theorem yields_trunk_intersect_iff (out : List Parameter) :
    w.Yields (.edge bound.trunk) out ↔ ∃ r both,
      group.policy.reduce asked = .ok r ∧ offer.intersect r = .ok both ∧ out = [r] := by
  have hoffer := h.offer_fits hschemas
  have hvalue : ∀ r v, group.policy.reduce asked = .ok r →
      (group.mode.merge protocol.merge offer r = .ok v ↔
        v = r ∧ ∃ both, offer.intersect r = .ok both) := by
    intro r v hreduce
    obtain ⟨hreduced, hfits, _⟩ := h.reduced_spec hschemas haddress hreduce
    rw [hmerge, GroupMode.merge_policy_eq_ok_iff _ fun _ =>
      ⟨(Schema.addressless_of_admits haddress hoffer).separated, hreduced.separated⟩]
    refine Policy.merge_intersect_eq_ok_iff (Policy.keeps_of_reduce hreduce).1 hreduced
      fun name => ?_
    rw [Schema.isSome_get? (hfits .down), Schema.isSome_get? hoffer]
  rw [h.yields_trunk_iff]
  constructor
  · rintro ⟨r, v, hreduce, _, hv, rfl⟩
    obtain ⟨rfl, both, hboth⟩ := (hvalue r v hreduce).mp hv
    exact ⟨v, both, hreduce, hboth, rfl⟩
  · rintro ⟨r, both, hreduce, hboth, rfl⟩
    obtain ⟨_, hfits, _⟩ := h.reduced_spec hschemas haddress hreduce
    exact ⟨r, r, hreduce, hfits _, (hvalue r r hreduce).mpr ⟨rfl, both, hboth⟩, rfl⟩

/-- Every edge of the group resolves to what the many ports reduce to, where the single port admits
this. -/
theorem yields_intersect_iff {e : EdgeId} (he : e = bound.trunk ∨ e ∈ bound.branches)
    (out : List Parameter) :
    w.Yields (.edge e) out ↔ ∃ r both,
      group.policy.reduce asked = .ok r ∧ offer.intersect r = .ok both ∧ out = [r] := by
  have htrunk := h.yields_trunk_intersect_iff hmerge hschemas haddress
  rcases he with rfl | he
  · exact htrunk out
  · obtain ⟨a, ha, hbranch⟩ := h.yields_branch_iff he
    rw [hbranch]
    constructor
    · rintro ⟨r, v, hsettled, _, hv, rfl⟩
      obtain ⟨r', both, hreduce, hboth, hsame⟩ := (htrunk [r]).mp hsettled
      obtain rfl : r = r' := (List.cons.inj hsame).1
      obtain ⟨_, _, hstays⟩ := h.reduced_spec hschemas haddress hreduce
      exact ⟨r, both, hreduce, hboth, by rw [(hstays a ha v).mp hv]⟩
    · rintro ⟨r, both, hreduce, hboth, rfl⟩
      obtain ⟨_, hfits, hstays⟩ := h.reduced_spec hschemas haddress hreduce
      exact ⟨r, r, (htrunk [r]).mpr ⟨r, both, hreduce, hboth, rfl⟩, hfits _,
        (hstays a ha r).mpr rfl, rfl⟩

end PlainGroup

end Intersect

end Equations

section Requests

variable {g built : Graph} {group : FanGroup} {bound : BoundGroup}

theorem many_ne_nil_of_bindGroup (hbind : g.bindGroup group = (.ok bound, built)) :
    group.many ≠ [] := by
  intro hnil
  have hprotocol : ∃ error, g.groupProtocol group = .error error := by
    rw [groupProtocol, hnil]
    exact ⟨_, rfl⟩
  obtain ⟨error, hprotocol⟩ := hprotocol
  have hcheck : g.checkGroup group = .error error := by
    rw [checkGroup, hprotocol]
    rfl
  rw [bindGroup, hcheck] at hbind
  split at hbind <;> cases hbind

theorem Reachable.bindGroup (hg : g.Reachable) (hbind : g.bindGroup group = (.ok bound, built)) :
    built.Reachable := by
  have hbuilt : built = g.serve (.build (.bindGroup group)) := by
    rw [Graph.serve, build, hbind]
  rw [hbuilt]
  exact hg.serve _

/-- What a bound group is like after any further requests. -/
theorem Reachable.plainGroup (hg : g.Reachable) (hbind : g.bindGroup group = (.ok bound, built))
    {spec : PortSpec} (hspec : g.portSpec group.single = .ok spec) (hpre : group.pre = .identity)
    (hpost : group.post = .identity) {offer : Parameter} {asked : List Parameter}
    (hends : HasEnds g.wiring group spec.protocol offer asked) (requests : List Request) :
    PlainGroup (built.serves requests).wiring group spec.protocol bound offer asked ∧
      ∀ e, (e = bound.trunk ∨ e ∈ bound.branches) →
        (∃ c : Call, .call c ∈ requests ∧ c.Demands e) →
        ((built.serves requests).entry (.edge e)).isTerminal = true := by
  have hbuilt : built = g.serve (.build (.bindGroup group)) := by
    rw [Graph.serve, build, hbind]
  obtain ⟨spec', hspec', hbound⟩ := g.bindGroup_ok hg.sound.wellFormed hbind
  obtain rfl : spec = spec' := Option.some.inj ((portSpec_ok hspec).symm.trans hspec')
  have hreachable : built.Reachable := hbuilt ▸ hg.serve _
  have hgrown : g.wiring.Extends built.wiring := by
    rw [hbuilt]
    exact (hg.sound.serve _).2.1
  obtain ⟨hsound, hextends, hterminal⟩ := hreachable.sound.serves requests
  refine ⟨⟨hsound.wellFormed, (hreachable.serves requests).orderly, hbound.extends hextends,
    bindGroup_branches hbind, many_ne_nil_of_bindGroup hbind, hpre, hpost,
    hends.extends (hgrown.trans hextends)⟩, fun e he hdemanded => ?_⟩
  have hkey : built.wiring.HasKey (.edge e) := by
    rcases he with rfl | he
    · exact Wiring.HasKey.of_edge? hbound.trunk
    · obtain ⟨port, hedge⟩ := hbound.exists_branch he
      exact Wiring.HasKey.of_edge? hedge
  exact hterminal e hkey (Or.inr hdemanded)

/-- A settled edge shows what it resolves to, or that it does not resolve. -/
theorem Sound.outcome_of_isTerminal {h : Graph} (hsound : h.Sound) {e : EdgeId}
    (hterminal : (h.entry (.edge e)).isTerminal = true) (hkey : h.wiring.HasKey (.edge e)) :
    (∀ value, h.wiring.Yields (.edge e) [value] →
      h.progress (.edge e) = .resolved ∧ h.resolved? e = some value) ∧
    (¬ h.wiring.Resolvable (.edge e) → h.progress (.edge e) = .failed) := by
  have hconsistent := hsound.settled.consistent
  rw [progress_eq hkey, resolved?_eq hkey]
  rcases Entry.isTerminal_iff.mp hterminal with ⟨values, hentry⟩ | ⟨error, hentry⟩
  · rw [hentry]
    have hyields := hconsistent.yields hentry
    refine ⟨fun value hvalue => ⟨rfl, ?_⟩, fun hnot => absurd ⟨values, hyields⟩ hnot⟩
    rw [hyields.unique hvalue]
    rfl
  · rw [hentry]
    refine ⟨fun value hvalue => ?_, fun _ => rfl⟩
    exact absurd ⟨[value], hvalue⟩ (hconsistent.faults hentry).not_resolvable

/-- The outcome of a group between sources and sinks whose protocol takes what satisfies both sides
and has the same schema, without address sets, in both directions: let `r` be what the policy of
the group reduces the many ports to.  If there is such an `r`, and the single port admits it, then
the trunk and every branch that is demanded resolve to `r`; otherwise they fail. -/
theorem group_outcome (hg : g.Reachable) (hbind : g.bindGroup group = (.ok bound, built))
    {spec : PortSpec} (hspec : g.portSpec group.single = .ok spec)
    (hmerge : spec.protocol.merge = .policy .intersect)
    (hschemas : spec.protocol.schema .down = spec.protocol.schema .up)
    (haddress : ∀ name, (spec.protocol.schema .down).get? name ≠ some .address)
    (hpre : group.pre = .identity) (hpost : group.post = .identity)
    {offer : Parameter} {asked : List Parameter}
    (hends : HasEnds g.wiring group spec.protocol offer asked) (requests : List Request)
    {e : EdgeId} (he : e = bound.trunk ∨ e ∈ bound.branches)
    (hdemanded : ∃ c : Call, .call c ∈ requests ∧ c.Demands e) :
    (∀ r both, group.policy.reduce asked = .ok r → offer.intersect r = .ok both →
      (built.serves requests).progress (.edge e) = .resolved ∧
        (built.serves requests).resolved? e = some r) ∧
    ((∀ r both, group.policy.reduce asked = .ok r → offer.intersect r ≠ .ok both) →
      (built.serves requests).progress (.edge e) = .failed) := by
  obtain ⟨hplain, hterminal⟩ := hg.plainGroup hbind hspec hpre hpost hends requests
  have hyields := hplain.yields_intersect_iff hmerge hschemas haddress he
  obtain ⟨hresolved, hfailed⟩ := ((hg.bindGroup hbind).serves requests).sound.outcome_of_isTerminal
    (hterminal e he hdemanded) (hplain.hasKey he)
  refine ⟨fun r both hreduce hboth => ?_, fun hnot => hfailed ?_⟩
  · exact hresolved r ((hyields [r]).mpr ⟨r, both, hreduce, hboth, rfl⟩)
  · rintro ⟨out, hout⟩
    obtain ⟨r, both, hreduce, hboth, _⟩ := (hyields out).mp hout
    exact hnot r both hreduce hboth

end Requests

/-- A protocol for widths that takes what satisfies both sides. -/
def widths : Protocol :=
  let width : Schema := .ofList [("width", .number)]
  ⟨⟨"bus", width, width⟩, .policy .intersect, .absent, .absent⟩

/-- A source that offers a range of widths, and two sinks that demand one width each. -/
def bank : Graph :=
  after {} [.build (.addNode (.source "cpu" widths (.exactly 1) (.ofList [("width", .span 1 32)]))),
    .build (.addNode (.sink "ram" widths (.exactly 1) (.ofList [("width", .num 8)]))),
    .build (.addNode (.sink "rom" widths (.exactly 1) (.ofList [("width", .num 16)])))]

theorem bindGroup_bank : bank.bindGroup pull =
    (.ok ⟨⟨3⟩, ⟨0⟩, [⟨1⟩, ⟨2⟩]⟩, (bank.bindGroup pull).2) :=
  Prod.ext (by decide) rfl

theorem hasEnds_bank : HasEnds bank.wiring pull widths (.ofList [("width", .span 1 32)])
    [.ofList [("width", .num 8)], .ofList [("width", .num 16)]] :=
  ⟨⟨⟨_, _, rfl, rfl⟩, by decide⟩,
    .cons ⟨⟨_, _, rfl, rfl⟩, by decide⟩ (.cons ⟨⟨_, _, rfl, rfl⟩, by decide⟩ .nil)⟩

theorem widths_addressless (name : String) : (widths.schema .down).get? name ≠ some .address := by
  intro h
  have hmem := Fields.get?_eq_some_iff.mp h
  have hentries : (widths.schema .down).entries = [("width", .number)] := by decide
  rw [hentries] at hmem
  cases List.mem_singleton.mp hmem

/-- The trunk and both branches of the bank come to the larger of the two widths. -/
theorem bank_outcome :
    bank.Reachable ∧ ∀ e : EdgeId, e = ⟨0⟩ ∨ e ∈ [⟨1⟩, ⟨2⟩] →
      ((bank.bindGroup pull).2.serves [.call .resolveAll]).progress (.edge e) = .resolved ∧
      ((bank.bindGroup pull).2.serves [.call .resolveAll]).resolved? e =
        some (.ofList [("width", .num 16)]) := by
  have hbank : bank.Reachable := reachable_after _ _
  have hoffer : Parameter.intersect (.ofList [("width", .span 1 32)])
      (.ofList [("width", .num 16)]) = .ok (.ofList [("width", .num 16)]) := by decide
  refine ⟨hbank, fun e he => ?_⟩
  obtain ⟨hresolved, _⟩ := group_outcome hbank bindGroup_bank rfl rfl rfl widths_addressless rfl rfl
    hasEnds_bank [.call .resolveAll] he ⟨.resolveAll, List.mem_cons_self, trivial⟩
  exact hresolved _ _ (by decide) hoffer

end Graph

end Negotiation
