import Negotiation.Proofs.GroupOutcome
import Negotiation.Proofs.Tables

/-!
Binding a group as a whole.

The check of a group counts how often a port is named and so foresees what the edges of the group
take up: it passes exactly the groups that the wiring admits (`Graph.checkGroup_eq_ok_iff`).  What
passed is then added without a further check: one node and the edges of the group
(`Graph.AddsGroup`).  Both ports of the new node are full from the start, so no edge is ever bound
to it again.
-/

namespace Negotiation

namespace Wiring

/-- The port takes so many more edges. -/
def Takes (w : Wiring) (port : Port) (count : Nat) : Prop :=
  ∃ spec, w.spec? port = some spec ∧
    ∀ max, spec.cardinality.max = some max → w.connectionCount port + count ≤ max

/-- The two ports are there, and their protocols have one signature, merge alike and show the same to
an unconnected port. -/
def Agree (w : Wiring) (port other : Port) : Prop :=
  ∃ ours theirs, w.spec? port = some ours ∧ w.spec? other = some theirs ∧
    ours.protocol.Agrees theirs.protocol

/-- The group can be bound: it joins its single port, which takes one more edge, to one or more ports
of the other side and of other nodes, each of which takes as many more as it is named. -/
structure AdmitsGroup (w : Wiring) (group : FanGroup) : Prop where
  nonempty : group.many ≠ []
  side : group.single.side = group.mode.singleSide
  room : w.Takes group.single 1
  many : ∀ port ∈ group.many, port.side = group.mode.manySide ∧ port.node ≠ group.single.node ∧
    w.Agree group.single port ∧ w.Takes port (group.many.count port)

theorem Agree.symm {w : Wiring} {port other : Port} (h : w.Agree port other) : w.Agree other port := by
  obtain ⟨ours, theirs, hours, htheirs, hagrees⟩ := h
  exact ⟨theirs, ours, htheirs, hours, hagrees.symm⟩

theorem Takes.mono {w : Wiring} {port : Port} {m n : Nat} (h : w.Takes port n) (hle : m ≤ n) :
    w.Takes port m := by
  obtain ⟨spec, hspec, hmax⟩ := h
  exact ⟨spec, hspec, fun max hsome =>
    Nat.le_trans (Nat.add_le_add_left hle _) (hmax max hsome)⟩

theorem Takes.hasRoom {w : Wiring} {port : Port} {n : Nat} (h : w.Takes port n) (hn : 0 < n) :
    w.HasRoom port := by
  obtain ⟨spec, hspec, hmax⟩ := h
  refine ⟨spec, hspec, Bool.not_eq_true _ ▸ fun hfull => ?_⟩
  obtain ⟨max, hsome, hle⟩ := Cardinality.isFull_iff.mp hfull
  have hroom := hmax max hsome
  omega

end Wiring

/-! ### The check -/

namespace Graph

section Checks

variable {g : Graph} {port single output input : Port} {group : FanGroup} {protocol : Protocol}
  {earlier ports : List Port}

theorem obstacle_eq_none_iff {outputSpec inputSpec : PortSpec} :
    obstacle output input outputSpec inputSpec = none ↔ output.side = .output ∧
      input.side = .input ∧ output.node ≠ input.node ∧
        outputSpec.protocol.Agrees inputSpec.protocol := by
  refine ⟨obstacle_eq_none, ?_⟩
  rintro ⟨houtput, hinput, hapart, hagrees⟩
  have hname : outputSpec.protocol.name = inputSpec.protocol.name :=
    congrArg Signature.name hagrees.signature
  simp [obstacle, houtput, hinput, hapart, hname, Protocol.isCompatible, Protocol.settlesLike,
    hagrees.signature, hagrees.merge, hagrees.downFallback, hagrees.upFallback]

theorem checkPair_eq_ok_iff : g.checkPair output input = .ok () ↔
    output.side = .output ∧ input.side = .input ∧ output.node ≠ input.node ∧
      g.wiring.Agree output input := by
  constructor
  · intro h
    obtain ⟨ours, theirs, hours, htheirs, hout, hin, hapart, hagrees⟩ := checkPair_ok h
    exact ⟨hout, hin, hapart, ours, theirs, hours, htheirs, hagrees⟩
  · rintro ⟨hout, hin, hapart, ours, theirs, hours, htheirs, hagrees⟩
    refine bind_eq_ok_iff.mpr ⟨ours, portSpec_of_spec? hours, ?_⟩
    refine bind_eq_ok_iff.mpr ⟨theirs, portSpec_of_spec? htheirs, ?_⟩
    rw [obstacle_eq_none_iff.mpr ⟨hout, hin, hapart, hagrees⟩]

theorem checkPair_oriented_eq_ok_iff {mode : GroupMode} (hside : single.side = mode.singleSide) :
    g.checkPair (mode.oriented single port).1 (mode.oriented single port).2 = .ok () ↔
      port.side = mode.manySide ∧ port.node ≠ single.node ∧ g.wiring.Agree single port := by
  rw [checkPair_eq_ok_iff]
  cases mode with
  | fanOut => exact ⟨fun ⟨_, hport, hapart, hagree⟩ => ⟨hport, hapart.symm, hagree⟩,
      fun ⟨hport, hapart, hagree⟩ => ⟨hside, hport, hapart.symm, hagree⟩⟩
  | fanIn => exact ⟨fun ⟨hport, _, hapart, hagree⟩ => ⟨hport, hapart, hagree.symm⟩,
      fun ⟨hport, hapart, hagree⟩ => ⟨hport, hside, hapart, hagree.symm⟩⟩

theorem checkCapacity_eq_ok_iff {extra : Nat} :
    g.checkCapacity port extra = .ok () ↔ g.wiring.Takes port (extra + 1) := by
  constructor
  · intro h
    obtain ⟨spec, hspec, hfull⟩ := checkCapacity_ok h
    refine ⟨spec, hspec, fun max hmax => ?_⟩
    rw [Cardinality.isFull, hmax] at hfull
    simp only [Option.any_some, decide_eq_false_iff_not] at hfull
    omega
  · rintro ⟨spec, hspec, hmax⟩
    refine bind_eq_ok_iff.mpr ⟨spec, portSpec_of_spec? hspec, if_neg fun hfull => ?_⟩
    obtain ⟨max, hsome, hle⟩ := Cardinality.isFull_iff.mp hfull
    have hroom := hmax max hsome
    omega

theorem checkMany_cons_eq_ok_iff {first : Port} {rest : List Port} :
    g.checkMany group earlier (first :: rest) = .ok () ↔
      g.checkPair (group.mode.oriented group.single first).1
          (group.mode.oriented group.single first).2 = .ok () ∧
        g.checkCapacity first (earlier.count first) = .ok () ∧
        g.checkMany group (first :: earlier) rest = .ok () := by
  refine ⟨checkMany_cons_ok, ?_⟩
  rintro ⟨hpair, hcapacity, hrest⟩
  exact bind_eq_ok_iff.mpr ⟨(), hpair, bind_eq_ok_iff.mpr ⟨(), hcapacity, hrest⟩⟩

/-- One after another the ports are found to take one more edge, counting the earlier ones, if each
takes as many as it is named. -/
theorem checkMany_eq_ok_iff : g.checkMany group earlier ports = .ok () ↔
    (∀ port ∈ ports, g.checkPair (group.mode.oriented group.single port).1
      (group.mode.oriented group.single port).2 = .ok ()) ∧
    ∀ port ∈ ports, g.wiring.Takes port (earlier.count port + ports.count port) := by
  induction ports generalizing earlier with
  | nil => exact ⟨fun _ => ⟨nofun, nofun⟩, fun _ => rfl⟩
  | cons first rest ih =>
      -- Passing from the first to the rest, its mention moves over to the earlier ones.
      have hmoved : ∀ port, (first :: earlier).count port + rest.count port =
          earlier.count port + (first :: rest).count port := by
        intro port
        simp only [List.count_cons]
        omega
      rw [checkMany_cons_eq_ok_iff, checkCapacity_eq_ok_iff, ih, List.forall_mem_cons,
        List.forall_mem_cons]
      simp only [hmoved]
      constructor
      · rintro ⟨hpair, hfirst, hpairs, hrest⟩
        refine ⟨⟨hpair, hpairs⟩, ?_, hrest⟩
        by_cases hagain : first ∈ rest
        · exact hrest first hagain
        · rw [List.count_cons_self, List.count_eq_zero_of_not_mem hagain]
          exact hfirst
      · rintro ⟨⟨hpair, hpairs⟩, hfirst, hrest⟩
        refine ⟨hpair, hfirst.mono ?_, hpairs, hrest⟩
        rw [List.count_cons_self]
        omega

theorem groupProtocol_eq_ok_iff : g.groupProtocol group = .ok protocol ↔
    group.many ≠ [] ∧ group.single.side = group.mode.singleSide ∧
      ∃ spec, g.wiring.spec? group.single = some spec ∧ spec.protocol = protocol := by
  rw [groupProtocol]
  cases group.many with
  | nil =>
      constructor
      · intro h
        cases h
      · exact fun h => absurd rfl h.1
  | cons first rest =>
      rw [and_iff_right (List.cons_ne_nil first rest)]
      constructor
      · intro h
        obtain ⟨spec, hspec, h⟩ := exists_of_bind_eq_ok h
        by_cases hside : group.single.side = group.mode.singleSide
        · rw [if_neg (not_not.mpr hside)] at h
          exact ⟨hside, spec, portSpec_ok hspec, Except.ok.inj h⟩
        · rw [if_pos hside] at h
          cases h
      · rintro ⟨hside, spec, hspec, rfl⟩
        refine bind_eq_ok_iff.mpr ⟨spec, portSpec_of_spec? hspec, ?_⟩
        exact if_neg (not_not.mpr hside)

/-- The check of a group passes exactly the groups that the wiring admits. -/
theorem checkGroup_eq_ok_iff : g.checkGroup group = .ok protocol ↔ g.wiring.AdmitsGroup group ∧
    ∃ spec, g.wiring.spec? group.single = some spec ∧ spec.protocol = protocol := by
  have hparts : g.checkGroup group = .ok protocol ↔ g.groupProtocol group = .ok protocol ∧
      g.checkCapacity group.single 0 = .ok () ∧ g.checkMany group [] group.many = .ok () := by
    constructor
    · intro h
      obtain ⟨found, hprotocol, h⟩ := exists_of_bind_eq_ok h
      obtain ⟨⟨⟩, hcapacity, h⟩ := exists_of_bind_eq_ok h
      obtain ⟨⟨⟩, hmany, h⟩ := exists_of_bind_eq_ok h
      cases h
      exact ⟨hprotocol, hcapacity, hmany⟩
    · rintro ⟨hprotocol, hcapacity, hmany⟩
      exact bind_eq_ok_iff.mpr ⟨protocol, hprotocol, bind_eq_ok_iff.mpr ⟨(), hcapacity,
        bind_eq_ok_iff.mpr ⟨(), hmany, rfl⟩⟩⟩
  rw [hparts, groupProtocol_eq_ok_iff, checkCapacity_eq_ok_iff, checkMany_eq_ok_iff]
  simp only [List.count_nil, Nat.zero_add]
  constructor
  · rintro ⟨⟨hnonempty, hside, hspec⟩, hroom, hpairs, htakes⟩
    refine ⟨⟨hnonempty, hside, hroom, fun port hport => ?_⟩, hspec⟩
    obtain ⟨hother, hapart, hagree⟩ := (checkPair_oriented_eq_ok_iff hside).mp (hpairs port hport)
    exact ⟨hother, hapart, hagree, htakes port hport⟩
  · rintro ⟨hadmits, hspec⟩
    refine ⟨⟨hadmits.nonempty, hadmits.side, hspec⟩, hadmits.room, fun port hport => ?_,
      fun port hport => (hadmits.many port hport).2.2.2⟩
    obtain ⟨hother, hapart, hagree, _⟩ := hadmits.many port hport
    exact (checkPair_oriented_eq_ok_iff hadmits.side).mpr ⟨hother, hapart, hagree⟩

/-- A group that the wiring admits has a protocol, that of its single port. -/
theorem exists_checkGroup_eq_ok_iff :
    (∃ protocol, g.checkGroup group = .ok protocol) ↔ g.wiring.AdmitsGroup group := by
  simp only [checkGroup_eq_ok_iff, exists_and_left, and_iff_left_iff_imp]
  intro hadmits
  obtain ⟨spec, hspec, _⟩ := hadmits.room
  exact ⟨spec.protocol, spec, hspec, rfl⟩

end Checks

end Graph

/-! ### What is added -/

namespace FanGroup

/-- The edges on the many side of a group, in the order of its ports. -/
def branchEdges (group : FanGroup) (protocol : Protocol) (bound : BoundGroup) : List Edge :=
  bound.branches.zipWith (fun e port => group.branchEdge protocol bound.nexus port e) group.many

/-- The edges of a group, in the direction in which they lead. -/
def edges (group : FanGroup) (protocol : Protocol) (bound : BoundGroup) : List Edge :=
  match group.mode with
  | .fanOut => group.trunkEdge protocol bound.nexus bound.trunk :: group.branchEdges protocol bound
  | .fanIn => group.branchEdges protocol bound ++
      [group.trunkEdge protocol bound.nexus bound.trunk]

theorem ids_branchEdges {group : FanGroup} {protocol : Protocol} {bound : BoundGroup}
    (h : bound.branches.length = group.many.length) :
    (group.branchEdges protocol bound).map Edge.id = bound.branches := by
  refine List.ext_getElem (by simp [branchEdges, h]) fun i hi hi' => ?_
  simp [branchEdges, branchEdge]

end FanGroup

namespace Wiring

variable (w : Wiring) (added : List Edge)

theorem edges_foldl_addEdge :
    (added.foldl addEdge w).edges.toList = w.edges.toList ++ added := by
  induction added generalizing w with
  | nil => exact (List.append_nil _).symm
  | cons edge rest ih =>
      rw [List.foldl_cons, ih]
      simp [addEdge, attach]

theorem size_edges_foldl_addEdge :
    (added.foldl addEdge w).edges.size = w.edges.size + added.length := by
  rw [← Array.length_toList, edges_foldl_addEdge, List.length_append, Array.length_toList]

theorem size_slots_foldl_addEdge : (added.foldl addEdge w).slots.size = w.slots.size := by
  induction added generalizing w with
  | nil => rfl
  | cons edge rest ih =>
      rw [List.foldl_cons, ih]
      simp [addEdge, attach]

theorem node?_foldl_addEdge (n : NodeId) : (added.foldl addEdge w).node? n = w.node? n := by
  induction added generalizing w with
  | nil => rfl
  | cons edge rest ih => rw [List.foldl_cons, ih, node?_addEdge]

end Wiring

namespace Graph

section Adding

variable {g h k : Graph} {group : FanGroup} {protocol : Protocol} {bound : BoundGroup}

/-- The second graph is the first but for its wiring and what is noted in the journal. -/
def Rewires (g h : Graph) : Prop :=
  h = { g with wiring := h.wiring, journal := h.journal }

theorem Rewires.trans (hgh : Rewires g h) (hhk : Rewires h k) : Rewires g k := by
  rw [Rewires, hhk, hgh]

theorem rewires_pushEdge (g : Graph) (output input : Port) (protocol : Protocol)
    (adapter : Adapter) (policy : Option Policy) :
    Rewires g (g.pushEdge output input protocol adapter policy).2 :=
  rfl

theorem wiring_pushTrunk (g : Graph) (group : FanGroup) (protocol : Protocol) (nexus : NodeId) :
    (g.pushTrunk group protocol nexus).2.wiring =
      g.wiring.addEdge (group.trunkEdge protocol nexus (g.pushTrunk group protocol nexus).1) := by
  rw [pushTrunk_eq]
  rfl

theorem wiring_pushBranch (g : Graph) (group : FanGroup) (protocol : Protocol) (nexus : NodeId)
    (port : Port) : (g.pushBranch group protocol nexus port).2.wiring =
      g.wiring.addEdge
        (group.branchEdge protocol nexus port (g.pushBranch group protocol nexus port).1) := by
  rw [pushBranch_eq]
  rfl

theorem size_pushTrunk (g : Graph) (group : FanGroup) (protocol : Protocol) (nexus : NodeId) :
    (g.pushTrunk group protocol nexus).1 = ⟨g.wiring.edges.size⟩ ∧
      (g.pushTrunk group protocol nexus).2.wiring.edges.size = g.wiring.edges.size + 1 := by
  rw [pushTrunk_eq]
  exact ⟨rfl, Wiring.size_addEdge _ _⟩

theorem rewires_pushTrunk (g : Graph) (group : FanGroup) (protocol : Protocol) (nexus : NodeId) :
    Rewires g (g.pushTrunk group protocol nexus).2 := by
  rw [pushTrunk_eq]
  exact rewires_pushEdge _ _ _ _ _ _

theorem rewires_pushBranch (g : Graph) (group : FanGroup) (protocol : Protocol) (nexus : NodeId)
    (port : Port) : Rewires g (g.pushBranch group protocol nexus port).2 := by
  rw [pushBranch_eq]
  exact rewires_pushEdge _ _ _ _ _ _

theorem wiring_pushBranches (g : Graph) (group : FanGroup) (protocol : Protocol) (nexus : NodeId)
    (ports : List Port) :
    (g.pushBranches group protocol nexus ports).2.wiring =
      ((g.pushBranches group protocol nexus ports).1.zipWith
        (fun e port => group.branchEdge protocol nexus port e) ports).foldl Wiring.addEdge
          g.wiring ∧
      Rewires g (g.pushBranches group protocol nexus ports).2 := by
  induction ports generalizing g with
  | nil => exact ⟨rfl, rfl⟩
  | cons port rest ih =>
      obtain ⟨hwiring, hrewires⟩ := ih (g.pushBranch group protocol nexus port).2
      refine ⟨?_, (rewires_pushBranch g group protocol nexus port).trans hrewires⟩
      rw [wiring_pushBranch] at hwiring
      exact hwiring

/-- What is added where a group is bound: its nexus, and then its edges. -/
theorem wiring_pushGroup (g : Graph) (group : FanGroup) (protocol : Protocol) :
    (g.pushGroup group protocol).2.wiring =
      (group.edges protocol (g.pushGroup group protocol).1).foldl Wiring.addEdge
        (g.wiring.addSlot (.ofNode (g.groupNexus group protocol))) := by
  cases hmode : group.mode with
  | fanOut =>
      simp only [pushGroup, FanGroup.edges, FanGroup.branchEdges, hmode]
      rw [(wiring_pushBranches _ _ _ _ _).1, wiring_pushTrunk]
      rfl
  | fanIn =>
      simp only [pushGroup, FanGroup.edges, FanGroup.branchEdges, hmode]
      rw [wiring_pushTrunk, List.foldl_append, (wiring_pushBranches _ _ _ _ _).1]
      rfl

theorem rewires_pushGroup (g : Graph) (group : FanGroup) (protocol : Protocol) :
    Rewires g (g.pushGroup group protocol).2 := by
  have hnode : Rewires g (g.pushNode (g.groupNexus group protocol)).2 := rfl
  cases hmode : group.mode with
  | fanOut =>
      simp only [pushGroup, hmode]
      exact (hnode.trans (rewires_pushTrunk _ _ _ _)).trans (wiring_pushBranches _ _ _ _ _).2
  | fanIn =>
      simp only [pushGroup, hmode]
      exact (hnode.trans (wiring_pushBranches _ _ _ _ _).2).trans (rewires_pushTrunk _ _ _ _)

theorem length_pushBranches (g : Graph) (group : FanGroup) (protocol : Protocol) (nexus : NodeId)
    (ports : List Port) : (g.pushBranches group protocol nexus ports).1.length = ports.length := by
  rw [pushBranches_ids, List.length_map, List.length_range']

theorem size_pushBranches (g : Graph) (group : FanGroup) (protocol : Protocol) (nexus : NodeId)
    (ports : List Port) : (g.pushBranches group protocol nexus ports).2.wiring.edges.size =
      g.wiring.edges.size + ports.length := by
  rw [(wiring_pushBranches g group protocol nexus ports).1, Wiring.size_edges_foldl_addEdge,
    List.length_zipWith, length_pushBranches, Nat.min_self]

/-- The edges of a group are numbered one after another, in the direction in which they lead. -/
theorem ids_pushGroup (g : Graph) (group : FanGroup) (protocol : Protocol) :
    (g.pushGroup group protocol).1.branches.length = group.many.length ∧
      (group.edges protocol (g.pushGroup group protocol).1).map Edge.id =
        (List.range' g.wiring.edges.size (group.many.length + 1)).map EdgeId.mk := by
  have hnode : (g.pushNode (g.groupNexus group protocol)).2.wiring.edges.size =
      g.wiring.edges.size := rfl
  cases hmode : group.mode with
  | fanOut =>
      have hlength : (g.pushGroup group protocol).1.branches.length = group.many.length := by
        simp only [pushGroup, hmode, length_pushBranches]
      refine ⟨hlength, ?_⟩
      rw [FanGroup.edges, hmode]
      dsimp only
      rw [List.map_cons, FanGroup.ids_branchEdges hlength, List.range'_succ, List.map_cons]
      simp only [pushGroup, hmode, pushBranches_ids, size_pushTrunk, hnode]
      rfl
  | fanIn =>
      have hlength : (g.pushGroup group protocol).1.branches.length = group.many.length := by
        simp only [pushGroup, hmode, length_pushBranches]
      refine ⟨hlength, ?_⟩
      rw [FanGroup.edges, hmode]
      dsimp only
      rw [List.map_append, FanGroup.ids_branchEdges hlength, List.range'_concat, List.map_append]
      simp only [pushGroup, hmode, pushBranches_ids, hnode]
      simp [FanGroup.trunkEdge, size_pushTrunk, size_pushBranches, hnode]

/-- The second graph is the first with one node more, the nexus of the group, and with the edges of
the group, each attached to the ports that it names.  Both ports of the nexus are full. -/
structure AddsGroup (g h : Graph) (group : FanGroup) (protocol : Protocol) (bound : BoundGroup) :
    Prop where
  nexus : bound.nexus = ⟨g.wiring.slots.size⟩
  size : h.wiring.slots.size = g.wiring.slots.size + 1
  node : ∀ n, h.wiring.node? n =
    if n = bound.nexus then some (g.groupNexus group protocol) else g.wiring.node? n
  edges : h.wiring.edges.toList = g.wiring.edges.toList ++ group.edges protocol bound
  /-- There is a branch for every mention of a port. -/
  branches : bound.branches.length = group.many.length
  numbered : (group.edges protocol bound).map Edge.id =
    (List.range' g.wiring.edges.size (group.many.length + 1)).map EdgeId.mk
  attached : ∀ port, h.wiring.portEdges port =
    g.wiring.portEdges port ++ ((group.edges protocol bound).filter (·.Names port)).map Edge.id
  trunkPort : h.wiring.portEdges (group.trunkPort bound.nexus) = [bound.trunk]
  branchPort : h.wiring.portEdges (group.branchPort bound.nexus) = bound.branches
  full : ∀ {port spec}, port.node = bound.nexus → h.wiring.spec? port = some spec →
    spec.cardinality.isFull (h.wiring.connectionCount port) = true
  /-- Nothing else changes. -/
  rewires : Rewires g h

theorem length_sidePorts_nexus (name : String) (mode : GroupMode) (protocol : Protocol) (n : Nat)
    (policy : Policy) (side : Side) :
    ((Node.nexus name mode protocol n policy).sidePorts side).length = 1 := by
  cases mode <;> cases side <;> rfl

/-- The nexus of a group has no ports but these two. -/
theorem port_of_spec?_nexus {w : Wiring} {name : String} {nexus : NodeId} {port : Port}
    {spec : PortSpec}
    (hnexus : w.node? nexus =
      some (.nexus name group.mode protocol group.many.length group.policy))
    (hnode : port.node = nexus) (hspec : w.spec? port = some spec) :
    port = group.trunkPort nexus ∨ port = group.branchPort nexus := by
  obtain ⟨n, side, index⟩ := port
  obtain rfl : n = nexus := hnode
  rw [Wiring.spec?, hnexus, Option.bind_some] at hspec
  have hindex := (List.getElem?_eq_some_iff.mp hspec).1
  rw [length_sidePorts_nexus] at hindex
  obtain rfl : index = 0 := Nat.lt_one_iff.mp hindex
  have hside : side = group.mode.manySide ∨ side = group.mode.singleSide := by
    cases group.mode <;> cases side <;> decide
  rcases hside with rfl | rfl
  · exact Or.inl rfl
  · exact Or.inr rfl

/-- No port of the nexus of a group takes another edge. -/
theorem HasGroup.isFull {w : Wiring} (hgroup : HasGroup w group protocol bound)
    (hwf : w.WellFormed) (horderly : w.Orderly)
    (hascending : bound.branches.Pairwise EdgeId.Before) {port : Port} {spec : PortSpec}
    (hnode : port.node = bound.nexus) (hspec : w.spec? port = some spec) :
    spec.cardinality.isFull (w.connectionCount port) = true := by
  obtain ⟨name, hnexus⟩ := hgroup.nexus
  obtain ⟨⟨trunk, htrunk, _, hone⟩, branch, hbranch, _, hmany⟩ := spec?_nexus hnexus
  rw [Wiring.connectionCount_eq]
  rcases port_of_spec?_nexus hnexus hnode hspec with rfl | rfl
  · obtain rfl := Option.some.inj (htrunk.symm.trans hspec)
    rw [hone, hgroup.portEdges_trunkPort hwf horderly]
    exact Cardinality.isFull_iff.mpr ⟨_, rfl, Nat.le_refl _⟩
  · obtain rfl := Option.some.inj (hbranch.symm.trans hspec)
    rw [hmany, hgroup.portEdges_branchPort hwf horderly hascending, hgroup.branches.length_eq]
    exact Cardinality.isFull_iff.mpr ⟨_, rfl, Nat.le_refl _⟩

/-- Every request for an edge at the node is refused. -/
structure RefusesEdges (g : Graph) (n : NodeId) : Prop where
  bindThrough : ∀ {output input}, output.node = n ∨ input.node = n → ∀ adapter,
    ∃ error, (g.bindThrough output input adapter).1 = .error error
  bindGroup : ∀ {group : FanGroup}, group.single.node = n ∨ (∃ port ∈ group.many, port.node = n) →
    ∃ error, (g.bindGroup group).1 = .error error

theorem refusesEdges_of_isFull {n : NodeId}
    (hfull : ∀ {port spec}, port.node = n → g.wiring.spec? port = some spec →
      spec.cardinality.isFull (g.wiring.connectionCount port) = true) : g.RefusesEdges n := by
  have hfilled : ∀ {port}, port.node = n → ¬ g.wiring.HasRoom port := by
    rintro port hnode ⟨spec, hspec, hroom⟩
    rw [hfull hnode hspec] at hroom
    cases hroom
  constructor
  · intro output input hnode adapter
    rw [bindThrough]
    split
    · exact ⟨_, rfl⟩
    · split
      · exact ⟨_, rfl⟩
      · rename_i hcheck
        have hadmits := checkBinding_ok hcheck
        rcases hnode with houtput | hinput
        · exact absurd hadmits.output.2 (hfilled houtput)
        · exact absurd hadmits.input.2 (hfilled hinput)
  · intro group hnode
    rw [bindGroup]
    split
    · exact ⟨_, rfl⟩
    · split
      · exact ⟨_, rfl⟩
      · rename_i hcheck
        have hadmits := (checkGroup_eq_ok_iff.mp hcheck).1
        rcases hnode with hsingle | ⟨port, hport, hnode⟩
        · exact absurd (hadmits.room.hasRoom Nat.one_pos) (hfilled hsingle)
        · obtain ⟨_, _, _, htakes⟩ := hadmits.many port hport
          exact absurd (htakes.hasRoom (List.count_pos_iff.mpr hport)) (hfilled hnode)

end Adding

section Requests

variable {g h : Graph} {group : FanGroup} {bound : BoundGroup}

theorem bindGroup_eq_ok_iff (hopen : g.isSealed = false) : g.bindGroup group = (.ok bound, h) ↔
    ∃ protocol, g.checkGroup group = .ok protocol ∧ g.pushGroup group protocol = (bound, h) := by
  rw [bindGroup, ensureOpen_of_open hopen]
  cases g.checkGroup group with
  | error e =>
      constructor
      · intro hbind
        cases hbind
      · rintro ⟨_, hprotocol, _⟩
        cases hprotocol
  | ok protocol =>
      constructor
      · intro hbind
        cases hbind
        exact ⟨protocol, rfl, rfl⟩
      · rintro ⟨_, hprotocol, hpush⟩
        cases hprotocol
        dsimp only
        rw [hpush]
        rfl

theorem isSealed_of_bindGroup (hbind : g.bindGroup group = (.ok bound, h)) : g.isSealed = false := by
  cases hsealed : g.isSealed with
  | false => rfl
  | true =>
      rw [bindGroup, ensureOpen_of_isSealed hsealed] at hbind
      cases hbind

theorem addsGroup_of_bindGroup (hg : g.Reachable) (hbind : g.bindGroup group = (.ok bound, h)) :
    ∃ spec, g.wiring.spec? group.single = some spec ∧ AddsGroup g h group spec.protocol bound := by
  obtain ⟨protocol, hcheck, hpush⟩ := (bindGroup_eq_ok_iff (isSealed_of_bindGroup hbind)).mp hbind
  obtain ⟨_, spec, hspec, rfl⟩ := checkGroup_eq_ok_iff.mp hcheck
  have hbuilt := hg.bindGroup hbind
  have hgroup := (pushGroup_spec hg.sound.wellFormed hcheck).2
  have hascending := bindGroup_branches hbind
  have hwiring := wiring_pushGroup g group spec.protocol
  have hrewires := rewires_pushGroup g group spec.protocol
  obtain ⟨hbranches, hnumbered⟩ := ids_pushGroup g group spec.protocol
  have hnexus : (g.pushGroup group spec.protocol).1.nexus = ⟨g.wiring.slots.size⟩ := by
    cases hmode : group.mode <;> simp only [pushGroup, hmode] <;> rfl
  rw [hpush] at hgroup hwiring hrewires hbranches hnumbered hnexus
  have hedges : h.wiring.edges.toList =
      g.wiring.edges.toList ++ group.edges spec.protocol bound := by
    rw [hwiring, Wiring.edges_foldl_addEdge]
    rfl
  exact ⟨spec, hspec, {
    nexus := hnexus
    size := by
      rw [hwiring, Wiring.size_slots_foldl_addEdge]
      exact Array.size_push _
    node := fun n => by rw [hwiring, Wiring.node?_foldl_addEdge, Wiring.node?_addSlot, hnexus]
    edges := hedges
    branches := hbranches
    numbered := hnumbered
    attached := fun port => by
      rw [hbuilt.sound.wellFormed.portEdges_eq hbuilt.orderly,
        hg.sound.wellFormed.portEdges_eq hg.orderly, hedges, List.filter_append, List.map_append]
    trunkPort := hgroup.portEdges_trunkPort hbuilt.sound.wellFormed hbuilt.orderly
    branchPort := hgroup.portEdges_branchPort hbuilt.sound.wellFormed hbuilt.orderly hascending
    full := hgroup.isFull hbuilt.sound.wellFormed hbuilt.orderly hascending
    rewires := hrewires }⟩

/-- Whatever is requested once a group is bound, no edge is added to its nexus. -/
theorem refusesEdges_of_bindGroup (hg : g.Reachable)
    (hbind : g.bindGroup group = (.ok bound, h)) (later : List Request) :
    (h.serves later).RefusesEdges bound.nexus := by
  obtain ⟨spec, _, hgroup⟩ := g.bindGroup_ok hg.sound.wellFormed hbind
  have hbuilt := hg.bindGroup hbind
  have hlater := hbuilt.serves later
  obtain ⟨_, hextends, _⟩ := hbuilt.sound.serves later
  exact refusesEdges_of_isFull ((hgroup.extends hextends).isFull hlater.sound.wellFormed
    hlater.orderly (bindGroup_branches hbind))

/-- A group that is refused leaves everything as it is, apart from what is noted. -/
theorem eq_of_bindGroup_error {error : GraphError} (hbind : g.bindGroup group = (.error error, h)) :
    h = { g with journal := h.journal } := by
  rw [bindGroup] at hbind
  split at hbind
  · cases hbind
    rfl
  · split at hbind
    · cases hbind
      rfl
    · cases hbind

/-- Binding a group is all or nothing.  An open graph grants a group if and only if the wiring admits
it as a whole.  Then it has one node more, the nexus, and the edges of the group, numbered one after
another, and nothing else changes; whatever is requested later, no further edge is bound to the
nexus.  A group that is refused leaves everything as it is, apart from what is noted. -/
theorem group_all_or_nothing (hg : g.Reachable) (hopen : g.isSealed = false) (group : FanGroup) :
    ((∃ bound h, g.bindGroup group = (.ok bound, h)) ↔ g.wiring.AdmitsGroup group) ∧
    (∀ bound h, g.bindGroup group = (.ok bound, h) →
      (∃ spec, g.wiring.spec? group.single = some spec ∧
        AddsGroup g h group spec.protocol bound) ∧
      ∀ later : List Request, (h.serves later).RefusesEdges bound.nexus) ∧
    ∀ error h, g.bindGroup group = (.error error, h) → h = { g with journal := h.journal } := by
  refine ⟨?_, fun bound h hbind => ⟨addsGroup_of_bindGroup hg hbind,
    refusesEdges_of_bindGroup hg hbind⟩, fun error h hbind => eq_of_bindGroup_error hbind⟩
  rw [← exists_checkGroup_eq_ok_iff]
  constructor
  · rintro ⟨bound, h, hbind⟩
    obtain ⟨protocol, hcheck, _⟩ := (bindGroup_eq_ok_iff hopen).mp hbind
    exact ⟨protocol, hcheck⟩
  · rintro ⟨protocol, hcheck⟩
    exact ⟨_, _, (bindGroup_eq_ok_iff hopen).mpr ⟨protocol, hcheck, rfl⟩⟩

end Requests

/-- A source, a sink that takes two edges and a sink that takes one. -/
def fork : Graph :=
  after {} [.build (.addNode (.source "cpu" widths (.exactly 1) (.ofList [("width", .num 8)]))),
    .build (.addNode (.sink "ram" widths (.exactly 2) (.ofList [("width", .num 8)]))),
    .build (.addNode (.sink "rom" widths (.exactly 1) (.ofList [("width", .num 8)])))]

/-- From the source to these sinks. -/
def spread (sinks : List NodeId) : FanGroup where
  mode := .fanOut
  single := NodeId.output ⟨0⟩ 0
  many := sinks.map (·.input 0)
  policy := .intersect
  pre := .identity
  post := .identity

/-- The first sink may be named twice, and its two branches are then the second and the fourth edge;
it may not be named three times, though each branch alone would find room. -/
theorem fork_grouped :
    fork.wiring.AdmitsGroup (spread [⟨1⟩, ⟨2⟩, ⟨1⟩]) ∧
      (∃ bound h, fork.bindGroup (spread [⟨1⟩, ⟨2⟩, ⟨1⟩]) = (.ok bound, h) ∧
        bound = ⟨⟨3⟩, ⟨0⟩, [⟨1⟩, ⟨2⟩, ⟨3⟩]⟩ ∧
        AddsGroup fork h (spread [⟨1⟩, ⟨2⟩, ⟨1⟩]) widths bound ∧
        h.wiring.portEdges (NodeId.input ⟨1⟩ 0) = [⟨1⟩, ⟨3⟩] ∧
        h.RefusesEdges ⟨3⟩) ∧
      ¬ fork.wiring.AdmitsGroup (spread [⟨1⟩, ⟨1⟩, ⟨1⟩]) ∧
      (fork.bindGroup (spread [⟨1⟩, ⟨1⟩, ⟨1⟩])).2.wiring = fork.wiring := by
  have hfork : fork.Reachable := reachable_after _ _
  have hopen : fork.isSealed = false := by decide
  have hbind : fork.bindGroup (spread [⟨1⟩, ⟨2⟩, ⟨1⟩]) = (.ok ⟨⟨3⟩, ⟨0⟩, [⟨1⟩, ⟨2⟩, ⟨3⟩]⟩,
      (fork.bindGroup (spread [⟨1⟩, ⟨2⟩, ⟨1⟩])).2) := Prod.ext (by decide) rfl
  have hrefused : (fork.bindGroup (spread [⟨1⟩, ⟨1⟩, ⟨1⟩])).1 =
      .error (.cardinality (NodeId.input ⟨1⟩ 0) 2 (.exactly 2)) := by decide
  obtain ⟨hadmits, hadds, _⟩ := group_all_or_nothing hfork hopen (spread [⟨1⟩, ⟨2⟩, ⟨1⟩])
  obtain ⟨hadmits', _, hkept⟩ := group_all_or_nothing hfork hopen (spread [⟨1⟩, ⟨1⟩, ⟨1⟩])
  obtain ⟨⟨spec, hspec, hgroup⟩, hlater⟩ := hadds _ _ hbind
  obtain rfl : spec = ⟨"out", .output, widths, .exactly 1⟩ := by
    have hcpu : fork.wiring.spec? (NodeId.output ⟨0⟩ 0) =
        some ⟨"out", .output, widths, .exactly 1⟩ := rfl
    exact Option.some.inj (hspec.symm.trans hcpu)
  refine ⟨hadmits.mp ⟨_, _, hbind⟩, ⟨_, _, hbind, rfl, hgroup, by decide, hlater []⟩, ?_, ?_⟩
  · intro hagain
    obtain ⟨bound, h, hbound⟩ := hadmits'.mpr hagain
    rw [hbound] at hrefused
    cases hrefused
  · have hsame := hkept _ (fork.bindGroup (spread [⟨1⟩, ⟨1⟩, ⟨1⟩])).2 (Prod.ext hrefused rfl)
    exact (congrArg Graph.wiring hsame).trans rfl

end Graph

end Negotiation
