import Mathlib.Data.List.Forall2
import Negotiation.Proofs.Growth
import Negotiation.Proofs.Records

/-!
What a request to build does to a graph.

Every request that builds adds nodes, roots and edges one at a time, and an edge only where the
wiring admits it (`Graph.Grows`).  So it keeps wirings well-formed, and what is there stays.
-/

namespace Negotiation

namespace GroupMode

/-- The side of the ports on the many side of a group. -/
def manySide (mode : GroupMode) : Side :=
  mode.singleSide.opposite

end GroupMode

namespace FanGroup

/-- The port of the nexus that faces the single port of the group. -/
def trunkPort (group : FanGroup) (nexus : NodeId) : Port :=
  ⟨nexus, group.mode.manySide, 0⟩

/-- The port of the nexus that faces the many ports of the group. -/
def branchPort (group : FanGroup) (nexus : NodeId) : Port :=
  ⟨nexus, group.mode.singleSide, 0⟩

/-- The adapter of the edge on the single side. -/
def trunkAdapter (group : FanGroup) : Adapter :=
  match group.mode with
  | .fanOut => group.pre
  | .fanIn => group.post

/-- The adapter of the edges on the many side. -/
def branchAdapter (group : FanGroup) : Adapter :=
  match group.mode with
  | .fanOut => group.post
  | .fanIn => group.pre

/-- The edge between the single port of the group and its nexus. -/
def trunkEdge (group : FanGroup) (protocol : Protocol) (nexus : NodeId) (e : EdgeId) : Edge where
  id := e
  output := (group.mode.oriented group.single (group.trunkPort nexus)).1
  input := (group.mode.oriented group.single (group.trunkPort nexus)).2
  protocol := protocol
  adapter := group.trunkAdapter
  policy := none

/-- The edge between the nexus of the group and one of its many ports. -/
def branchEdge (group : FanGroup) (protocol : Protocol) (nexus : NodeId) (port : Port)
    (e : EdgeId) : Edge where
  id := e
  output := (group.mode.oriented (group.branchPort nexus) port).1
  input := (group.mode.oriented (group.branchPort nexus) port).2
  protocol := protocol
  adapter := group.branchAdapter
  policy := some group.policy

end FanGroup

namespace Graph

/-- The second graph is the first after building: nodes, roots and edges were added one at a time,
edges only where the wiring admits them. -/
inductive Grows (g : Graph) : Graph → Prop
  | refl : Grows g g
  | note {h : Graph} (hgh : Grows g h) (event : Event) : Grows g (h.note event)
  | root {h : Graph} (hgh : Grows g h) {n : NodeId} (hnode : (h.wiring.node? n).isSome = true)
      (hnew : n ∉ h.markedRoots) : Grows g { h with markedRoots := h.markedRoots ++ [n] }
  | node {h : Graph} (hgh : Grows g h) (node : Node) : Grows g (h.pushNode node).2
  | edge {h : Graph} (hgh : Grows g h) {output input : Port} {protocol : Protocol}
      (adapter : Adapter) (policy : Option Policy)
      (hadmits : h.wiring.Admits output input protocol) :
      Grows g (h.pushEdge output input protocol adapter policy).2

namespace Grows

variable {g h k : Graph}

theorem trans (hgh : Grows g h) (hhk : Grows h k) : Grows g k := by
  induction hhk with
  | refl => exact hgh
  | note _ event ih => exact ih.note event
  | root _ hnode hnew ih => exact ih.root hnode hnew
  | node _ node ih => exact ih.node node
  | edge _ adapter policy hadmits ih => exact ih.edge adapter policy hadmits

theorem ledger (hgh : Grows g h) : h.ledger = g.ledger := by
  induction hgh with
  | refl => rfl
  | note _ _ ih => exact ih
  | root _ _ _ ih => exact ih
  | node _ _ ih => exact ih
  | edge _ _ _ _ ih => exact ih

theorem frozen (hgh : Grows g h) : h.frozen = g.frozen := by
  induction hgh with
  | refl => rfl
  | note _ _ ih => exact ih
  | root _ _ _ ih => exact ih
  | node _ _ ih => exact ih
  | edge _ _ _ _ ih => exact ih

theorem extend (hgh : Grows g h) : g.wiring.Extends h.wiring := by
  induction hgh with
  | refl => exact .refl _
  | note _ _ ih => exact ih
  | root _ _ _ ih => exact ih
  | node _ node ih => exact ih.trans (Wiring.extends_addSlot _ node)
  | edge _ _ _ _ ih => exact ih.trans (Wiring.extends_addEdge _ _)

theorem wellFormed (hgh : Grows g h) (hg : g.wiring.WellFormed) : h.wiring.WellFormed := by
  induction hgh with
  | refl => exact hg
  | note _ _ ih => exact ih
  | root _ _ _ ih => exact ih
  | node _ node ih => exact ih.addSlot node
  | edge _ _ _ hadmits ih => exact ih.addEdge rfl hadmits

end Grows

section Checks

variable {g : Graph}

theorem ensureOpen_of_open (h : g.isSealed = false) : g.ensureOpen = .ok () := by
  rw [ensureOpen, h]
  rfl

theorem ensureOpen_of_isSealed (h : g.isSealed = true) : g.ensureOpen = .error .sealed := by
  rw [ensureOpen, h]
  rfl

theorem slot_ok {n : NodeId} {slot : Slot} (h : g.slot n = .ok slot) :
    g.wiring.slot? n = some slot := by
  rw [Graph.slot] at h
  split at h
  · rename_i found hfound
    rw [hfound, Except.ok.inj h]
  · cases h

theorem portSpec_ok {port : Port} {spec : PortSpec} (h : g.portSpec port = .ok spec) :
    g.wiring.spec? port = some spec := by
  obtain ⟨slot, hslot, hport⟩ := exists_of_bind_eq_ok h
  rw [Wiring.spec?, Wiring.node?, slot_ok hslot]
  split at hport
  · rename_i found hfound
    rw [← Except.ok.inj hport]
    exact hfound
  · cases hport

theorem portSpec_of_spec? {port : Port} {spec : PortSpec} (h : g.wiring.spec? port = some spec) :
    g.portSpec port = .ok spec := by
  obtain ⟨node, hnode, hport⟩ := Option.bind_eq_some_iff.mp h
  obtain ⟨slot, hslot, rfl⟩ := Wiring.node?_eq_some.mp hnode
  refine bind_eq_ok_iff.mpr ⟨slot, by rw [Graph.slot, hslot], ?_⟩
  rw [Slot.port?, Slot.ports, hport]

theorem not_and_eq_none_of_ite {α : Type} {c : Prop} [Decidable c] {found : α} {rest : Option α}
    (h : (if c then some found else rest) = none) : ¬ c ∧ rest = none := by
  by_cases hc : c
  · rw [if_pos hc] at h
    cases h
  · rw [if_neg hc] at h
    exact ⟨hc, h⟩

/-- Ports between which nothing stands. -/
theorem obstacle_eq_none {output input : Port} {outputSpec inputSpec : PortSpec}
    (h : obstacle output input outputSpec inputSpec = none) :
    output.side = .output ∧ input.side = .input ∧ output.node ≠ input.node ∧
      outputSpec.protocol.Agrees inputSpec.protocol := by
  obtain ⟨houtput, h⟩ := not_and_eq_none_of_ite h
  obtain ⟨hinput, h⟩ := not_and_eq_none_of_ite h
  obtain ⟨hapart, h⟩ := not_and_eq_none_of_ite h
  obtain ⟨_, h⟩ := not_and_eq_none_of_ite h
  obtain ⟨hcompatible, h⟩ := not_and_eq_none_of_ite h
  obtain ⟨hsettles, _⟩ := not_and_eq_none_of_ite h
  exact ⟨not_not.mp houtput, not_not.mp hinput, hapart,
    .of_settlesLike (by simpa using hcompatible) (by simpa using hsettles)⟩

/-- What a pair of ports that passes the check is like. -/
theorem checkPair_ok {output input : Port} (h : g.checkPair output input = .ok ()) :
    ∃ outputSpec inputSpec, g.wiring.spec? output = some outputSpec ∧
      g.wiring.spec? input = some inputSpec ∧ output.side = .output ∧ input.side = .input ∧
      output.node ≠ input.node ∧ outputSpec.protocol.Agrees inputSpec.protocol := by
  obtain ⟨outputSpec, houtput, h⟩ := exists_of_bind_eq_ok h
  obtain ⟨inputSpec, hinput, h⟩ := exists_of_bind_eq_ok h
  cases hobstacle : obstacle output input outputSpec inputSpec with
  | some found =>
      rw [hobstacle] at h
      cases h
  | none =>
      exact ⟨outputSpec, inputSpec, portSpec_ok houtput, portSpec_ok hinput,
        obstacle_eq_none hobstacle⟩

theorem checkCapacity_ok {port : Port} {extra : Nat} (h : g.checkCapacity port extra = .ok ()) :
    ∃ spec, g.wiring.spec? port = some spec ∧
      spec.cardinality.isFull (g.wiring.connectionCount port + extra) = false := by
  obtain ⟨spec, hspec, h⟩ := exists_of_bind_eq_ok h
  refine ⟨spec, portSpec_ok hspec, ?_⟩
  cases hfull : spec.cardinality.isFull (g.wiring.connectionCount port + extra) with
  | false => rfl
  | true =>
      simp only [hfull, ↓reduceIte] at h
      cases h

theorem checkBinding_ok {output input : Port} {protocol : Protocol}
    (h : g.checkBinding output input = .ok protocol) : g.wiring.Admits output input protocol := by
  obtain ⟨_, hpair, h⟩ := exists_of_bind_eq_ok h
  obtain ⟨_, houtput, h⟩ := exists_of_bind_eq_ok h
  obtain ⟨_, hinput, h⟩ := exists_of_bind_eq_ok h
  obtain ⟨spec, hspec, h⟩ := exists_of_bind_eq_ok h
  obtain rfl := Except.ok.inj h
  obtain ⟨outputSpec, inputSpec, hout, hin, houtside, hinside, hapart, hagrees⟩ := checkPair_ok hpair
  have hsame : outputSpec = spec := Option.some.inj (hout.symm.trans (portSpec_ok hspec))
  subst hsame
  exact ⟨hapart, ⟨⟨houtside, outputSpec, hout, .refl _⟩, checkCapacity_ok houtput⟩,
    ⟨⟨hinside, inputSpec, hin, hagrees.symm⟩, checkCapacity_ok hinput⟩⟩

/-- Ports of a group between which nothing stands. -/
theorem checkPair_oriented_ok {mode : GroupMode} {single port : Port}
    (h : g.checkPair (mode.oriented single port).1 (mode.oriented single port).2 = .ok ()) :
    ∃ singleSpec portSpec, g.wiring.spec? single = some singleSpec ∧
      g.wiring.spec? port = some portSpec ∧ port.side = mode.manySide ∧
      single.node ≠ port.node ∧ portSpec.protocol.Agrees singleSpec.protocol := by
  obtain ⟨outputSpec, inputSpec, houtput, hinput, houtside, hinside, hapart, hagrees⟩ :=
    checkPair_ok h
  cases mode with
  | fanOut => exact ⟨outputSpec, inputSpec, houtput, hinput, hinside, hapart, hagrees.symm⟩
  | fanIn => exact ⟨inputSpec, outputSpec, hinput, houtput, houtside, Ne.symm hapart, hagrees⟩

theorem checkMany_cons_ok {group : FanGroup} {earlier : List Port} {port : Port} {rest : List Port}
    (h : g.checkMany group earlier (port :: rest) = .ok ()) :
    g.checkPair (group.mode.oriented group.single port).1
        (group.mode.oriented group.single port).2 = .ok () ∧
      g.checkCapacity port (earlier.count port) = .ok () ∧
      g.checkMany group (port :: earlier) rest = .ok () := by
  obtain ⟨_, hpair, h⟩ := exists_of_bind_eq_ok h
  obtain ⟨_, hcapacity, hrest⟩ := exists_of_bind_eq_ok h
  exact ⟨hpair, hcapacity, hrest⟩

theorem side_of_checkMany {group : FanGroup} {earlier ports : List Port}
    (h : g.checkMany group earlier ports = .ok ()) :
    ∀ port ∈ ports, port.side = group.mode.manySide ∧ (g.wiring.spec? port).isSome = true := by
  induction ports generalizing earlier with
  | nil => exact fun port hport => absurd hport List.not_mem_nil
  | cons first rest ih =>
      obtain ⟨hpair, _, hrest⟩ := checkMany_cons_ok h
      intro port hport
      rcases List.mem_cons.mp hport with rfl | hmem
      · obtain ⟨_, spec, _, hspec, hside, _⟩ := checkPair_oriented_ok hpair
        exact ⟨hside, by rw [hspec]; rfl⟩
      · exact ih hrest port hmem

/-- What a group that passes the check is like. -/
theorem checkGroup_ok {group : FanGroup} {protocol : Protocol}
    (h : g.checkGroup group = .ok protocol) :
    g.wiring.Faces group.single group.mode.singleSide protocol ∧ g.wiring.HasRoom group.single ∧
      (∃ spec, g.wiring.spec? group.single = some spec ∧ spec.protocol = protocol) ∧
      g.checkMany group [] group.many = .ok () := by
  obtain ⟨found, hprotocol, h⟩ := exists_of_bind_eq_ok h
  obtain ⟨_, hcapacity, h⟩ := exists_of_bind_eq_ok h
  obtain ⟨_, hmany, h⟩ := exists_of_bind_eq_ok h
  obtain rfl := Except.ok.inj h
  rw [groupProtocol] at hprotocol
  split at hprotocol
  · cases hprotocol
  · obtain ⟨spec, hspec, hprotocol⟩ := exists_of_bind_eq_ok hprotocol
    by_cases hside : group.single.side = group.mode.singleSide
    · simp only [hside, ne_eq, not_true_eq_false, ↓reduceIte, Except.ok.injEq] at hprotocol
      have hspec' := portSpec_ok hspec
      exact ⟨⟨hside, spec, hspec', hprotocol ▸ .refl _⟩, checkCapacity_ok hcapacity,
        ⟨spec, hspec', hprotocol⟩, hmany⟩
    · simp only [ne_eq, hside, not_false_eq_true, ↓reduceIte] at hprotocol
      cases hprotocol

end Checks

section Groups

variable {g h : Graph} {group : FanGroup} {protocol : Protocol} {nexus : NodeId}

theorem admits_oriented {w : Wiring} {mode : GroupMode} {single other : Port}
    (hapart : single.node ≠ other.node)
    (hsingle : w.Faces single mode.singleSide protocol ∧ w.HasRoom single)
    (hother : w.Faces other mode.manySide protocol ∧ w.HasRoom other) :
    w.Admits (mode.oriented single other).1 (mode.oriented single other).2 protocol := by
  cases mode with
  | fanOut => exact ⟨hapart, hsingle, hother⟩
  | fanIn => exact ⟨Ne.symm hapart, hother, hsingle⟩

theorem pushTrunk_eq (g : Graph) (group : FanGroup) (protocol : Protocol) (nexus : NodeId) :
    g.pushTrunk group protocol nexus =
      g.pushEdge (group.mode.oriented group.single (group.trunkPort nexus)).1
        (group.mode.oriented group.single (group.trunkPort nexus)).2 protocol group.trunkAdapter
        none := by
  obtain ⟨mode, single, many, policy, pre, post⟩ := group
  cases mode <;> rfl

theorem pushBranch_eq (g : Graph) (group : FanGroup) (protocol : Protocol) (nexus : NodeId)
    (port : Port) :
    g.pushBranch group protocol nexus port =
      g.pushEdge (group.mode.oriented (group.branchPort nexus) port).1
        (group.mode.oriented (group.branchPort nexus) port).2 protocol group.branchAdapter
        (some group.policy) := by
  obtain ⟨mode, single, many, policy, pre, post⟩ := group
  cases mode <;> rfl

theorem edge?_pushTrunk (g : Graph) (group : FanGroup) (protocol : Protocol) (nexus : NodeId) :
    (g.pushTrunk group protocol nexus).2.wiring.edge? (g.pushTrunk group protocol nexus).1 =
      some (group.trunkEdge protocol nexus (g.pushTrunk group protocol nexus).1) := by
  rw [pushTrunk_eq]
  exact (Wiring.edge?_addEdge _ _ _).trans (if_pos rfl)

theorem edge?_pushBranch (g : Graph) (group : FanGroup) (protocol : Protocol) (nexus : NodeId)
    (port : Port) :
    (g.pushBranch group protocol nexus port).2.wiring.edge?
        (g.pushBranch group protocol nexus port).1 =
      some (group.branchEdge protocol nexus port (g.pushBranch group protocol nexus port).1) := by
  rw [pushBranch_eq]
  exact (Wiring.edge?_addEdge _ _ _).trans (if_pos rfl)

/-- An edge between the two ports is attached to these and to no other. -/
theorem portEdges_pushEdge_oriented (hwf : h.wiring.WellFormed) {mode : GroupMode}
    {single other : Port}
    (hadmits : h.wiring.Admits (mode.oriented single other).1 (mode.oriented single other).2 protocol)
    (adapter : Adapter) (policy : Option Policy) (port : Port) :
    (h.pushEdge (mode.oriented single other).1 (mode.oriented single other).2 protocol adapter
        policy).2.wiring.portEdges port =
      if single = port ∨ other = port then h.wiring.portEdges port ++ [⟨h.wiring.edges.size⟩]
      else h.wiring.portEdges port := by
  refine (Wiring.portEdges_addEdge hwf hadmits port).trans ?_
  cases mode with
  | fanOut => rfl
  | fanIn =>
      exact if_congr or_comm rfl rfl

theorem isFull_exactly {n count : Nat} (h : count < n) :
    (Cardinality.exactly n).isFull count = false := by
  simpa [Cardinality.isFull, Cardinality.exactly] using h

/-- What the check foresaw admits the next branch: the port and the nexus both have room for it. -/
theorem admits_branch {earlier rest : List Port} {port : Port} {n : Nat}
    (hextends : g.wiring.Extends h.wiring) (hfresh : g.wiring.node? nexus = none)
    (hprotocol : ∃ spec, g.wiring.spec? group.single = some spec ∧ spec.protocol = protocol)
    (hcheck : g.checkMany group earlier (port :: rest) = .ok ())
    (hcount : (h.wiring.portEdges port).length =
      (g.wiring.portEdges port).length + earlier.count port)
    (hnexus : ∃ spec, h.wiring.spec? (group.branchPort nexus) = some spec ∧
      spec.protocol = protocol ∧ spec.cardinality = .exactly n)
    (hroom : (h.wiring.portEdges (group.branchPort nexus)).length < n) :
    h.wiring.Admits (group.mode.oriented (group.branchPort nexus) port).1
      (group.mode.oriented (group.branchPort nexus) port).2 protocol := by
  obtain ⟨hpair, hcapacity, _⟩ := checkMany_cons_ok hcheck
  obtain ⟨singleSpec, spec, hsingle, hspec, hside, _, hagrees⟩ := checkPair_oriented_ok hpair
  obtain ⟨spec', hspec', hfull⟩ := checkCapacity_ok hcapacity
  obtain rfl : spec = spec' := Option.some.inj (hspec.symm.trans hspec')
  obtain ⟨nexusSpec, hnexusSpec, hsame, hexactly⟩ := hnexus
  obtain ⟨found, hfound, rfl⟩ := hprotocol
  obtain rfl : singleSpec = found := Option.some.inj (hsingle.symm.trans hfound)
  have hapart : nexus ≠ port.node := by
    rintro rfl
    rw [Wiring.spec?, hfresh] at hspec
    cases hspec
  have hnexusRoom : nexusSpec.cardinality.isFull
      (h.wiring.connectionCount (group.branchPort nexus)) = false := by
    rw [hexactly, Wiring.connectionCount_eq]
    exact isFull_exactly hroom
  have hportRoom : spec.cardinality.isFull (h.wiring.connectionCount port) = false := by
    rw [Wiring.connectionCount_eq, hcount, ← Wiring.connectionCount_eq]
    exact hfull
  exact admits_oriented hapart
    ⟨⟨rfl, nexusSpec, hnexusSpec, hsame ▸ .refl _⟩, nexusSpec, hnexusSpec, hnexusRoom⟩
    ⟨⟨hside, spec, hextends.spec hspec, hagrees⟩, spec, hextends.spec hspec, hportRoom⟩

/-- The branches of a group are added as the check foresaw: port by port there is room for them,
and no port but theirs and that of the nexus gets an edge. -/
theorem pushBranches_spec {earlier ports : List Port} {n : Nat} (hwf : h.wiring.WellFormed)
    (hextends : g.wiring.Extends h.wiring) (hfresh : g.wiring.node? nexus = none)
    (hprotocol : ∃ spec, g.wiring.spec? group.single = some spec ∧ spec.protocol = protocol)
    (hcheck : g.checkMany group earlier ports = .ok ())
    (hcount : ∀ port ∈ ports, (h.wiring.portEdges port).length =
      (g.wiring.portEdges port).length + earlier.count port)
    (hnexus : ∃ spec, h.wiring.spec? (group.branchPort nexus) = some spec ∧
      spec.protocol = protocol ∧ spec.cardinality = .exactly n)
    (hroom : (h.wiring.portEdges (group.branchPort nexus)).length + ports.length ≤ n) :
    Grows h (h.pushBranches group protocol nexus ports).2 ∧
      List.Forall₂ (fun e port => (h.pushBranches group protocol nexus ports).2.wiring.edge? e =
        some (group.branchEdge protocol nexus port e))
        (h.pushBranches group protocol nexus ports).1 ports ∧
      ∀ port, port ≠ group.branchPort nexus → port ∉ ports →
        (h.pushBranches group protocol nexus ports).2.wiring.portEdges port =
          h.wiring.portEdges port := by
  induction ports generalizing h earlier with
  | nil => exact ⟨.refl, .nil, fun _ _ _ => rfl⟩
  | cons port rest ih =>
      obtain ⟨_, _, hrest⟩ := checkMany_cons_ok hcheck
      rw [List.length_cons] at hroom
      have hadmits := admits_branch hextends hfresh hprotocol hcheck
        (hcount port List.mem_cons_self) hnexus (by omega)
      have hother : ∀ {other : Port}, (g.wiring.spec? other).isSome = true →
          group.branchPort nexus ≠ other := by
        rintro _ hsome rfl
        rw [Wiring.spec?, FanGroup.branchPort, hfresh] at hsome
        cases hsome
      have hgrows : Grows h (h.pushBranch group protocol nexus port).2 := by
        rw [pushBranch_eq]
        exact Grows.refl.edge _ _ hadmits
      have hedges : ∀ other, (h.pushBranch group protocol nexus port).2.wiring.portEdges other =
          if group.branchPort nexus = other ∨ port = other
          then h.wiring.portEdges other ++ [⟨h.wiring.edges.size⟩]
          else h.wiring.portEdges other := fun other => by
        rw [pushBranch_eq]
        exact portEdges_pushEdge_oriented hwf hadmits _ _ other
      have hcounts : ∀ other ∈ rest,
          ((h.pushBranch group protocol nexus port).2.wiring.portEdges other).length =
            (g.wiring.portEdges other).length + (port :: earlier).count other := by
        intro other hmem
        have hsome := (side_of_checkMany hrest other hmem).2
        have hold := hcount other (List.mem_cons_of_mem _ hmem)
        rw [hedges]
        by_cases hsame : port = other
        · subst hsame
          simp [hold, Nat.add_assoc]
        · simp [hother hsome, hsame, hold]
      have hroom' : ((h.pushBranch group protocol nexus port).2.wiring.portEdges
          (group.branchPort nexus)).length + rest.length ≤ n := by
        rw [hedges]
        simp only [true_or, ↓reduceIte, List.length_append, List.length_cons, List.length_nil]
        omega
      obtain ⟨nexusSpec, hnexusSpec, hsame⟩ := hnexus
      obtain ⟨hgrows', hbranches, hkept⟩ := ih (hgrows.wellFormed hwf)
        (hextends.trans hgrows.extend) hrest hcounts
        ⟨nexusSpec, hgrows.extend.spec hnexusSpec, hsame⟩ hroom'
      refine ⟨hgrows.trans hgrows',
        .cons (hgrows'.extend.edge (edge?_pushBranch h group protocol nexus port)) hbranches,
        fun other hnexus hmem => ?_⟩
      · refine (hkept other hnexus (List.not_mem_of_not_mem_cons hmem)).trans ?_
        rw [hedges, if_neg]
        rintro (heq | heq)
        · exact hnexus heq.symm
        · exact List.ne_of_not_mem_cons hmem heq.symm

/-- What stands in the wiring once a group is bound. -/
structure HasGroup (w : Wiring) (group : FanGroup) (protocol : Protocol) (bound : BoundGroup) :
    Prop where
  nexus : ∃ name, w.node? bound.nexus =
    some (.nexus name group.mode protocol group.many.length group.policy)
  trunk : w.edge? bound.trunk = some (group.trunkEdge protocol bound.nexus bound.trunk)
  branches : List.Forall₂
    (fun e port => w.edge? e = some (group.branchEdge protocol bound.nexus port e))
    bound.branches group.many

theorem HasGroup.extends {w v : Wiring} {bound : BoundGroup} (h : HasGroup w group protocol bound)
    (hwv : w.Extends v) : HasGroup v group protocol bound :=
  ⟨h.nexus.imp fun _ => hwv.node, hwv.edge h.trunk, h.branches.imp fun _ _ => hwv.edge⟩

/-- The nexus of a group has one port to each side, of the protocol of the group. -/
theorem spec?_nexus {w : Wiring} {name : String}
    (h : w.node? nexus = some (.nexus name group.mode protocol group.many.length group.policy)) :
    (∃ spec, w.spec? (group.trunkPort nexus) = some spec ∧ spec.protocol = protocol ∧
        spec.cardinality = .exactly 1) ∧
      ∃ spec, w.spec? (group.branchPort nexus) = some spec ∧ spec.protocol = protocol ∧
        spec.cardinality = .exactly group.many.length := by
  obtain ⟨mode, single, many, policy, pre, post⟩ := group
  simp only [Wiring.spec?, FanGroup.trunkPort, FanGroup.branchPort, h]
  cases mode with
  | fanOut => exact ⟨⟨_, rfl, rfl, rfl⟩, ⟨_, rfl, rfl, rfl⟩⟩
  | fanIn => exact ⟨⟨_, rfl, rfl, rfl⟩, ⟨_, rfl, rfl, rfl⟩⟩

theorem singleSide_ne_manySide (mode : GroupMode) : mode.singleSide ≠ mode.manySide := by
  cases mode <;> decide

/-- The second graph is the first with a nexus, to which no edge is attached yet. -/
structure Prepared (g h : Graph) (group : FanGroup) (protocol : Protocol) (nexus : NodeId) :
    Prop where
  grows : Grows g h
  wellFormed : h.wiring.WellFormed
  fresh : g.wiring.node? nexus = none
  added : ∃ name, h.wiring.node? nexus =
    some (.nexus name group.mode protocol group.many.length group.policy)
  kept : ∀ port, port.node ≠ nexus → h.wiring.portEdges port = g.wiring.portEdges port
  blank : ∀ port, port.node = nexus → h.wiring.portEdges port = []

theorem prepared_pushNode (hwf : g.wiring.WellFormed) (group : FanGroup) (protocol : Protocol) :
    Prepared g (g.pushNode (g.groupNexus group protocol)).2 group protocol
      (g.pushNode (g.groupNexus group protocol)).1 := by
  have hgrows : Grows g (g.pushNode (g.groupNexus group protocol)).2 := Grows.refl.node _
  refine ⟨hgrows, hgrows.wellFormed hwf, ?_, ⟨_, (g.wiring.node?_addSlot _ _).trans (if_pos rfl)⟩,
    fun port _ => g.wiring.portEdges_addSlot _ port, fun port hnode => ?_⟩
  · rw [Wiring.node?]
    exact congrArg (Option.map Slot.node) g.wiring.slot?_size
  · refine (g.wiring.portEdges_addSlot _ port).trans ?_
    rw [Wiring.portEdges, hnode]
    exact congrArg (Option.elim · [] _) g.wiring.slot?_size

namespace Prepared

variable (h' : Prepared g h group protocol nexus)

include h'

theorem node_ne {port : Port} (hsome : (g.wiring.spec? port).isSome = true) :
    port.node ≠ nexus := by
  rintro rfl
  rw [Wiring.spec?, h'.fresh] at hsome
  cases hsome

/-- The trunk may be added, as long as its ports have the edges that they had. -/
theorem admits_trunk {k : Graph} (hgrows : Grows h k)
    (hcheck : g.checkGroup group = .ok protocol)
    (hsingle : k.wiring.portEdges group.single = g.wiring.portEdges group.single)
    (hblank : k.wiring.portEdges (group.trunkPort nexus) = []) :
    k.wiring.Admits (group.mode.oriented group.single (group.trunkPort nexus)).1
      (group.mode.oriented group.single (group.trunkPort nexus)).2 protocol := by
  obtain ⟨hfaces, ⟨spec, hspec, hfull⟩, _⟩ := checkGroup_ok hcheck
  obtain ⟨_, hnexus⟩ := h'.added
  obtain ⟨⟨nexusSpec, hnexusSpec, hsame, hexactly⟩, _⟩ := spec?_nexus (hgrows.extend.node hnexus)
  have hextends := h'.grows.extend.trans hgrows.extend
  refine admits_oriented (h'.node_ne hfaces.isSome)
    ⟨hextends.faces hfaces, spec, hextends.spec hspec, ?_⟩
    ⟨⟨rfl, nexusSpec, hnexusSpec, hsame ▸ .refl _⟩, nexusSpec, hnexusSpec, ?_⟩
  · rw [Wiring.connectionCount_eq, hsingle, ← Wiring.connectionCount_eq]
    exact hfull
  · rw [hexactly, Wiring.connectionCount_eq, hblank]
    exact isFull_exactly Nat.one_pos

/-- The branches may be added, as long as their ports have the edges that they had. -/
theorem branches_spec {k : Graph} (hgrows : Grows h k) (hcheck : g.checkGroup group = .ok protocol)
    (hmany : ∀ port ∈ group.many, k.wiring.portEdges port = g.wiring.portEdges port)
    (hblank : k.wiring.portEdges (group.branchPort nexus) = []) :
    Grows k (k.pushBranches group protocol nexus group.many).2 ∧
      List.Forall₂
        (fun e port => (k.pushBranches group protocol nexus group.many).2.wiring.edge? e =
          some (group.branchEdge protocol nexus port e))
        (k.pushBranches group protocol nexus group.many).1 group.many ∧
      ∀ port, port ≠ group.branchPort nexus → port ∉ group.many →
        (k.pushBranches group protocol nexus group.many).2.wiring.portEdges port =
          k.wiring.portEdges port := by
  obtain ⟨_, _, hprotocol, hmanyCheck⟩ := checkGroup_ok hcheck
  obtain ⟨_, hnexus⟩ := h'.added
  refine pushBranches_spec (hgrows.wellFormed h'.wellFormed)
    (h'.grows.extend.trans hgrows.extend) h'.fresh hprotocol hmanyCheck (fun port hport => ?_)
    (spec?_nexus (hgrows.extend.node hnexus)).2 ?_
  · rw [hmany port hport, List.count_nil, Nat.add_zero]
  · simp [hblank]

theorem trunk_then_branches (hcheck : g.checkGroup group = .ok protocol) :
    Grows h ((h.pushTrunk group protocol nexus).2.pushBranches group protocol nexus
        group.many).2 ∧
      HasGroup ((h.pushTrunk group protocol nexus).2.pushBranches group protocol nexus
          group.many).2.wiring group protocol
        ⟨nexus, (h.pushTrunk group protocol nexus).1,
          ((h.pushTrunk group protocol nexus).2.pushBranches group protocol nexus
            group.many).1⟩ := by
  obtain ⟨hfaces, _, _, hmany⟩ := checkGroup_ok hcheck
  have hadmits := h'.admits_trunk .refl hcheck (h'.kept _ (h'.node_ne hfaces.isSome))
    (h'.blank _ rfl)
  have htrunk : Grows h (h.pushTrunk group protocol nexus).2 := by
    rw [pushTrunk_eq]
    exact Grows.refl.edge _ _ hadmits
  have hedges : ∀ port, group.single ≠ port → group.trunkPort nexus ≠ port →
      (h.pushTrunk group protocol nexus).2.wiring.portEdges port = h.wiring.portEdges port := by
    intro port hsingle hport
    rw [pushTrunk_eq, portEdges_pushEdge_oriented h'.wellFormed hadmits, if_neg]
    simp [hsingle, hport]
  have hsides := singleSide_ne_manySide group.mode
  obtain ⟨hbranches, hall, _⟩ := h'.branches_spec htrunk hcheck (fun port hport => by
      obtain ⟨hside, hsome⟩ := side_of_checkMany hmany port hport
      rw [hedges port, h'.kept port (h'.node_ne hsome)]
      · rintro rfl
        exact hsides (hfaces.1.symm.trans hside)
      · rintro rfl
        exact h'.node_ne hsome rfl)
    (by
      rw [hedges, h'.blank _ rfl]
      · intro heq
        exact h'.node_ne hfaces.isSome (congrArg Port.node heq)
      · intro heq
        exact hsides (congrArg Port.side heq).symm)
  have hgrows := htrunk.trans hbranches
  obtain ⟨name, hnexus⟩ := h'.added
  exact ⟨hgrows, ⟨name, hgrows.extend.node hnexus⟩,
    hbranches.extend.edge (edge?_pushTrunk h group protocol nexus), hall⟩

theorem branches_then_trunk (hcheck : g.checkGroup group = .ok protocol) :
    Grows h ((h.pushBranches group protocol nexus group.many).2.pushTrunk group protocol
        nexus).2 ∧
      HasGroup ((h.pushBranches group protocol nexus group.many).2.pushTrunk group protocol
          nexus).2.wiring group protocol
        ⟨nexus, ((h.pushBranches group protocol nexus group.many).2.pushTrunk group protocol
            nexus).1, (h.pushBranches group protocol nexus group.many).1⟩ := by
  obtain ⟨hfaces, _, _, hmany⟩ := checkGroup_ok hcheck
  have hsides := singleSide_ne_manySide group.mode
  obtain ⟨hbranches, hall, hedges⟩ := h'.branches_spec .refl hcheck (fun port hport =>
      h'.kept port (h'.node_ne (side_of_checkMany hmany port hport).2)) (h'.blank _ rfl)
  have hadmits := h'.admits_trunk hbranches hcheck
    (by
      rw [hedges, h'.kept _ (h'.node_ne hfaces.isSome)]
      · intro heq
        exact h'.node_ne hfaces.isSome (congrArg Port.node heq)
      · intro hmem
        exact hsides (hfaces.1.symm.trans (side_of_checkMany hmany _ hmem).1))
    (by
      rw [hedges, h'.blank _ rfl]
      · intro heq
        exact hsides (congrArg Port.side heq).symm
      · intro hmem
        exact h'.node_ne (side_of_checkMany hmany _ hmem).2 rfl)
  have htrunk : Grows (h.pushBranches group protocol nexus group.many).2
      ((h.pushBranches group protocol nexus group.many).2.pushTrunk group protocol nexus).2 := by
    rw [pushTrunk_eq]
    exact Grows.refl.edge _ _ hadmits
  have hgrows := hbranches.trans htrunk
  obtain ⟨name, hnexus⟩ := h'.added
  exact ⟨hgrows, ⟨name, hgrows.extend.node hnexus⟩,
    edge?_pushTrunk _ group protocol nexus, hall.imp fun _ _ => htrunk.extend.edge⟩

end Prepared

/-- A group that passed the check is added edge by edge. -/
theorem pushGroup_spec (hwf : g.wiring.WellFormed) (hcheck : g.checkGroup group = .ok protocol) :
    Grows g (g.pushGroup group protocol).2 ∧
      HasGroup (g.pushGroup group protocol).2.wiring group protocol
        (g.pushGroup group protocol).1 := by
  have hprepared := prepared_pushNode hwf group protocol
  cases hmode : group.mode with
  | fanOut =>
      obtain ⟨hgrows, hgroup⟩ := hprepared.trunk_then_branches hcheck
      simp only [pushGroup, hmode]
      exact ⟨hprepared.grows.trans hgrows, hgroup⟩
  | fanIn =>
      obtain ⟨hgrows, hgroup⟩ := hprepared.branches_then_trunk hcheck
      simp only [pushGroup, hmode]
      exact ⟨hprepared.grows.trans hgrows, hgroup⟩

end Groups

section Requests

variable (g : Graph)

theorem addNode_grows (node : Node) : Grows g (g.addNode node).2 := by
  rw [addNode]
  split
  · exact .refl
  · split
    · exact .refl
    · exact Grows.refl.node node

theorem markRoot_grows (n : NodeId) : Grows g (g.markRoot n).2 := by
  rw [markRoot]
  split
  · exact .refl
  · rename_i hcheck
    obtain ⟨_, _, hslot⟩ := exists_of_bind_eq_ok hcheck
    obtain ⟨slot, hslot, _⟩ := exists_of_bind_eq_ok hslot
    split
    · exact .refl
    · rename_i hnew
      refine Grows.refl.root ?_ (by simpa using hnew)
      rw [Wiring.node?, slot_ok hslot]
      rfl

theorem bindThrough_grows (output input : Port) (adapter : Adapter) :
    Grows g (g.bindThrough output input adapter).2 := by
  rw [bindThrough]
  split
  · exact .refl
  · split
    · exact Grows.refl.note _
    · rename_i hcheck
      exact Grows.refl.edge adapter none (checkBinding_ok hcheck)

theorem bindGroup_grows (hwf : g.wiring.WellFormed) (group : FanGroup) :
    Grows g (g.bindGroup group).2 := by
  rw [bindGroup]
  split
  · exact .refl
  · split
    · exact Grows.refl.note _
    · rename_i hcheck
      exact (pushGroup_spec hwf hcheck).1

/-- A group that was bound stands in the wiring, with the protocol of its single port. -/
theorem bindGroup_ok {h : Graph} {group : FanGroup} {bound : BoundGroup}
    (hwf : g.wiring.WellFormed) (hbind : g.bindGroup group = (.ok bound, h)) :
    ∃ spec, g.wiring.spec? group.single = some spec ∧
      HasGroup h.wiring group spec.protocol bound := by
  rw [bindGroup] at hbind
  split at hbind
  · cases hbind
  · split at hbind
    · cases hbind
    · rename_i protocol hcheck
      have hgroup := (pushGroup_spec hwf hcheck).2
      obtain ⟨_, _, ⟨spec, hspec, rfl⟩, _⟩ := checkGroup_ok hcheck
      cases hbind
      exact ⟨spec, hspec, hgroup⟩

end Requests

end Graph

end Negotiation
