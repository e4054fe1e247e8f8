import Mathlib.Data.List.Nodup
import Negotiation.Proofs.Requests

/-!
The edges at the ports of a wiring.

An edge is attached to a port only where the port takes one more, and every edge has a higher number
than those before it.  So the edges at a port ascend and never outnumber what the port takes
(`Wiring.Orderly`), and at a node every edge is listed once (`Wiring.Orderly.nodup_edges`).
-/

namespace Negotiation

namespace EdgeId

/-- The first edge has the lower number. -/
def Before (d e : EdgeId) : Prop :=
  d.index < e.index

theorem Before.ne {d e : EdgeId} (h : d.Before e) : d ≠ e := by
  rintro rfl
  exact Nat.lt_irrefl _ h

theorem pairwise_before_range' (start count : Nat) :
    ((List.range' start count).map EdgeId.mk).Pairwise Before :=
  List.pairwise_map.mpr (List.pairwise_lt_range' 1)

/-- Lists that ascend are determined by their members. -/
theorem eq_of_perm {ds es : List EdgeId} (hds : ds.Pairwise Before) (hes : es.Pairwise Before)
    (hperm : ds.Perm es) : ds = es :=
  hperm.eq_of_pairwise (fun _ _ _ _ hlt hgt => absurd hgt (Nat.lt_asymm hlt)) hds hes

end EdgeId

namespace Wiring

/-- At every port the edges ascend, and there are no more of them than the port takes. -/
structure Orderly (w : Wiring) : Prop where
  ascending : ∀ port, (w.portEdges port).Pairwise EdgeId.Before
  bounded : ∀ {port spec}, w.spec? port = some spec →
    ∀ max, spec.cardinality.max = some max → (w.portEdges port).length ≤ max

namespace Orderly

variable {w : Wiring}

theorem addSlot (h : w.Orderly) (node : Node) : (w.addSlot (.ofNode node)).Orderly := by
  refine ⟨fun port => ?_, fun {port spec} hspec max hmax => ?_⟩
  · rw [portEdges_addSlot]
    exact h.ascending port
  · rw [portEdges_addSlot]
    by_cases hnew : port.node = ⟨w.slots.size⟩
    · rw [portEdges, hnew, slot?_size]
      exact Nat.zero_le max
    · rw [spec?, node?_addSlot, if_neg hnew] at hspec
      exact h.bounded hspec max hmax

theorem addEdge (h : w.Orderly) (hwf : w.WellFormed) {edge : Edge}
    (hid : edge.id = ⟨w.edges.size⟩)
    (hadmits : w.Admits edge.output edge.input edge.protocol) : (w.addEdge edge).Orderly := by
  have hspec? : ∀ port, (w.addEdge edge).spec? port = w.spec? port := fun port => by
    rw [spec?, node?_addEdge, spec?]
  refine ⟨fun port => ?_, fun {port spec} hspec max hmax => ?_⟩
  · rw [portEdges_addEdge hwf hadmits]
    split
    · refine List.pairwise_append.mpr ⟨h.ascending port, List.pairwise_singleton _ _, ?_⟩
      intro e he last hlast
      rw [List.mem_singleton.mp hlast, hid]
      obtain ⟨_, hedge, _⟩ := hwf.attached.mp he
      exact HasKey.of_edge? hedge
    · exact h.ascending port
  · rw [hspec?] at hspec
    rw [portEdges_addEdge hwf hadmits]
    split
    · rename_i hmeets
      have hroom : w.HasRoom port := by
        rcases hmeets with rfl | rfl
        · exact hadmits.output.2
        · exact hadmits.input.2
      obtain ⟨found, hfound, hfull⟩ := hroom
      obtain rfl : spec = found := Option.some.inj (hspec.symm.trans hfound)
      rw [connectionCount_eq, Cardinality.isFull, hmax] at hfull
      simpa using hfull
    · exact h.bounded hspec max hmax

/-- Edges that are all at a port which takes no more than these are the edges at the port. -/
theorem portEdges_eq (h : w.Orderly) {port : Port} {spec : PortSpec} {edges : List EdgeId}
    (hspec : w.spec? port = some spec) (hmax : spec.cardinality.max = some edges.length)
    (hascending : edges.Pairwise EdgeId.Before) (hall : ∀ e ∈ edges, e ∈ w.portEdges port) :
    w.portEdges port = edges := by
  have hnodup : edges.Nodup := hascending.imp EdgeId.Before.ne
  have hperm : edges.Perm (w.portEdges port) :=
    (List.subperm_of_subset hnodup hall).perm_of_length_le (h.bounded hspec _ hmax)
  exact (EdgeId.eq_of_perm hascending (h.ascending port) hperm).symm

/-- At one side of a node every edge is listed once. -/
theorem nodup_edges (h : w.Orderly) (hwf : w.WellFormed) {n : NodeId} {slot : Slot}
    (hslot : w.slot? n = some slot) (side : Side) : (slot.edges side).flatten.Nodup := by
  have hport : ∀ i, (hi : i < (slot.edges side).length) →
      (slot.edges side)[i] = w.portEdges ⟨n, side, i⟩ := fun i hi => by
    rw [portEdges, hslot, Option.elim_some, Slot.portEdges, List.getElem?_eq_getElem hi]
    rfl
  -- An edge has one port on a side.
  have hindex : ∀ {e i j}, e ∈ w.portEdges ⟨n, side, i⟩ → e ∈ w.portEdges ⟨n, side, j⟩ → i = j := by
    intro e i j hi hj
    obtain ⟨edge, hedge, hmeets⟩ := hwf.attached.mp hi
    obtain ⟨edge', hedge', hmeets'⟩ := hwf.attached.mp hj
    obtain rfl : edge = edge' := Option.some.inj (hedge.symm.trans hedge')
    obtain ⟨hapart, houtput, hinput⟩ := hwf.joined hedge
    rcases hmeets with hp | hp <;> rcases hmeets' with hq | hq
    · exact congrArg Port.index (hp.symm.trans hq)
    · exact absurd ((congrArg Port.node hp).trans (congrArg Port.node hq).symm) hapart
    · exact absurd ((congrArg Port.node hq).trans (congrArg Port.node hp).symm) hapart
    · exact congrArg Port.index (hp.symm.trans hq)
  refine List.nodup_flatten.mpr ⟨fun edges hedges => ?_, ?_⟩
  · obtain ⟨i, hi, rfl⟩ := List.mem_iff_getElem.mp hedges
    rw [hport i hi]
    exact (h.ascending _).imp EdgeId.Before.ne
  · refine List.pairwise_iff_getElem.mpr fun i j hi hj hlt e hei hej => ?_
    rw [hport i hi] at hei
    rw [hport j hj] at hej
    exact Nat.ne_of_lt hlt (hindex hei hej)

end Orderly

theorem orderly_empty : empty.Orderly := by
  have hslot : ∀ n, empty.slot? n = none := fun n => Array.getElem?_eq_none (Nat.zero_le _)
  refine ⟨fun port => ?_, fun {port spec} hspec => ?_⟩
  · rw [portEdges, hslot]
    exact .nil
  · rw [spec?, node?, hslot] at hspec
    cases hspec

theorem size_addEdge (w : Wiring) (edge : Edge) :
    (w.addEdge edge).edges.size = w.edges.size + 1 :=
  Array.size_push _

end Wiring

namespace Graph

section Requests

variable {g h : Graph}

theorem Grows.orderly (hgh : Grows g h) (hwf : g.wiring.WellFormed) (hg : g.wiring.Orderly) :
    h.wiring.Orderly := by
  induction hgh with
  | refl => exact hg
  | note _ _ ih => exact ih
  | root _ _ _ ih => exact ih
  | node _ node ih => exact ih.addSlot node
  | edge hgh _ _ hadmits ih => exact ih.addEdge (hgh.wellFormed hwf) rfl hadmits

/-- Requests lead to graphs at whose ports the edges are in order. -/
theorem Reachable.orderly (hg : g.Reachable) : g.wiring.Orderly := by
  induction hg with
  | empty settings => exact Wiring.orderly_empty
  | @serve g hg request ih =>
      cases request with
      | build b => exact (g.build_grows hg.sound.wellFormed b).orderly hg.sound.wellFormed ih
      | sealWiring =>
          rw [Graph.serve, progresses_sealWiring.wiring]
          exact ih
      | call c =>
          rw [Graph.serve, (hg.sound.call c).1.wiring]
          exact ih

end Requests

section Groups

variable {g h : Graph} {group : FanGroup} {protocol : Protocol} {nexus : NodeId}

theorem size_pushBranch (g : Graph) (group : FanGroup) (protocol : Protocol) (nexus : NodeId)
    (port : Port) :
    (g.pushBranch group protocol nexus port).1 = ⟨g.wiring.edges.size⟩ ∧
      (g.pushBranch group protocol nexus port).2.wiring.edges.size = g.wiring.edges.size + 1 := by
  rw [pushBranch_eq]
  exact ⟨rfl, Wiring.size_addEdge _ _⟩

/-- The branches of a group are numbered one after another. -/
theorem pushBranches_ids (g : Graph) (group : FanGroup) (protocol : Protocol) (nexus : NodeId)
    (ports : List Port) :
    (g.pushBranches group protocol nexus ports).1 =
      (List.range' g.wiring.edges.size ports.length).map EdgeId.mk := by
  induction ports generalizing g with
  | nil => rfl
  | cons port rest ih =>
      obtain ⟨hid, hsize⟩ := size_pushBranch g group protocol nexus port
      have hrest := ih (g.pushBranch group protocol nexus port).2
      rw [hsize] at hrest
      have hpush : (g.pushBranches group protocol nexus (port :: rest)).1 =
          (g.pushBranch group protocol nexus port).1 ::
            ((g.pushBranch group protocol nexus port).2.pushBranches group protocol nexus rest).1 :=
        rfl
      rw [hpush, hid, hrest, List.length_cons, List.range'_succ, List.map_cons]

theorem pushGroup_branches (g : Graph) (group : FanGroup) (protocol : Protocol) :
    (g.pushGroup group protocol).1.branches.Pairwise EdgeId.Before := by
  cases hmode : group.mode with
  | fanOut =>
      simp only [pushGroup, hmode, pushBranches_ids]
      exact EdgeId.pairwise_before_range' _ _
  | fanIn =>
      simp only [pushGroup, hmode, pushBranches_ids]
      exact EdgeId.pairwise_before_range' _ _

/-- The branches of a group that was bound ascend. -/
theorem bindGroup_branches {bound : BoundGroup} (hbind : g.bindGroup group = (.ok bound, h)) :
    bound.branches.Pairwise EdgeId.Before := by
  rw [bindGroup] at hbind
  split at hbind
  · cases hbind
  · split at hbind
    · cases hbind
    · rename_i found hcheck
      have hpush := pushGroup_branches g group found
      cases hbind
      exact hpush

end Groups

end Graph

end Negotiation
