import Negotiation.Proofs.Requests

/-!
When parameters run in circles.

Where edges lead in no circle from node to node, the keys may still depend on one another in a
circle: the nexus of a fan-out reads its trunk settled, so its downward values wait for its upward
values, and with the nexus of a fan-in it is the other way round.  `Wiring.not_transGen_needs` shows
that this takes a way from a fan-out to a fan-in along which parameters are passed on; along such a
way, the two trunks wait for one another (`Wiring.transGen_needs_trunk`).
-/

namespace Negotiation

open Relation

namespace Node

/-- The node is not by an author of nodes. -/
def isBuiltIn : Node → Bool
  | author _ => false
  | _ => true

/-- The node offers on its own account, to nobody's demand. -/
def isSource : Node → Bool
  | source .. => true
  | _ => false

/-- The node passes nothing on. -/
def isDetached : Node → Bool
  | detached .. => true
  | _ => false

/-- Which way the node joins the edges of a group, if it does. -/
def nexusMode? : Node → Option GroupMode
  | nexus _ mode .. => some mode
  | _ => none

/-- What the nodes that are not by an author read. -/
theorem flow_of_isBuiltIn {node : Node} (h : node.isBuiltIn = true) :
    node.flow = ⟨!node.isDetached && !node.isSource, false, !node.isDetached, false,
      node.nexusMode? = some .fanOut, node.nexusMode? = some .fanIn⟩ := by
  cases node with
  | author node => cases h
  | nexus name mode protocol branches policy => cases mode <;> rfl
  | _ => rfl

end Node

namespace Wiring

variable {w : Wiring}

/-- An edge leads from the first node to the second. -/
def Feeds (w : Wiring) (a b : NodeId) : Prop :=
  ∃ e edge, w.edge? e = some edge ∧ edge.output.node = a ∧ edge.input.node = b

/-- An edge leads from the first node to the second, and the first passes on what it gets. -/
def Relays (w : Wiring) (a b : NodeId) : Prop :=
  w.Feeds a b ∧ ∃ node, w.node? a = some node ∧ node.isDetached = false

/-- The node joins the edges of a group. -/
def IsNexus (w : Wiring) (n : NodeId) (mode : GroupMode) : Prop :=
  ∃ node, w.node? n = some node ∧ node.nexusMode? = some mode

def AllBuiltIn (w : Wiring) : Prop :=
  ∀ {n node}, w.node? n = some node → node.isBuiltIn = true

theorem needs_edge_iff {e : EdgeId} {key : FlowKey} :
    w.Needs (.edge e) key ↔ ∃ edge, w.edge? e = some edge ∧
      (key = .down edge.output.node ∨ key = .up edge.input.node) := by
  cases hedge : w.edge? e with
  | none => simp [Needs, dependencies, hedge]
  | some edge => simp [Needs, dependencies, hedge]

/-- What is read from the edges that a node has on one side. -/
theorem mem_reads_iff (direction : Direction) (resolved : Bool) (key : FlowKey)
    {edges : List EdgeId} {meets : Edge → Prop}
    (hedges : ∀ e, e ∈ edges ↔ ∃ edge, w.edge? e = some edge ∧ meets edge) :
    key ∈ w.reads direction resolved edges ↔ ∃ e edge, w.edge? e = some edge ∧ meets edge ∧
      key = if resolved = true then .edge e else emitter edge direction := by
  cases resolved with
  | true =>
      rw [mem_reads_resolved]
      constructor
      · rintro ⟨e, he, rfl⟩
        obtain ⟨edge, hedge, hmeets⟩ := (hedges e).mp he
        exact ⟨e, edge, hedge, hmeets, rfl⟩
      · rintro ⟨e, edge, hedge, hmeets, rfl⟩
        exact ⟨e, (hedges e).mpr ⟨edge, hedge, hmeets⟩, rfl⟩
  | false =>
      rw [mem_reads_emitted]
      constructor
      · rintro ⟨e, he, edge, hedge, rfl⟩
        obtain ⟨found, hfound, hmeets⟩ := (hedges e).mp he
        obtain rfl : edge = found := Option.some.inj (hedge.symm.trans hfound)
        exact ⟨e, edge, hedge, hmeets, rfl⟩
      · rintro ⟨e, edge, hedge, hmeets, rfl⟩
        exact ⟨e, (hedges e).mpr ⟨edge, hedge, hmeets⟩, edge, hedge, rfl⟩

theorem needs_down_iff (hwf : w.WellFormed) (hbuilt : w.AllBuiltIn) {n : NodeId} {key : FlowKey} :
    w.Needs (.down n) key ↔ ∃ node, w.node? n = some node ∧
      (node.isDetached = false ∧ node.isSource = false) ∧
      ∃ e edge, w.edge? e = some edge ∧ edge.input.node = n ∧
        key = if node.nexusMode? = some .fanOut then .edge e else .down edge.output.node := by
  cases hslot : w.slot? n with
  | none => simp [Needs, dependencies, node?, hslot]
  | some slot =>
      have hnode : w.node? n = some slot.node := node?_eq_some.mpr ⟨slot, hslot, rfl⟩
      have hreads := mem_reads_iff .down (slot.node.nexusMode? = some .fanOut) key
        fun _ => hwf.mem_inward hslot
      rw [Needs, dependencies_down hslot, Node.flow_of_isBuiltIn (hbuilt hnode)]
      simp only [Bool.false_eq_true, ↓reduceIte, List.append_nil, hnode, Option.some.injEq,
        exists_eq_left', List.mem_ite_nil_right, hreads, emitter, Bool.and_eq_true,
        Bool.not_eq_true', decide_eq_true_eq]

theorem needs_up_iff (hwf : w.WellFormed) (hbuilt : w.AllBuiltIn) {n : NodeId} {key : FlowKey} :
    w.Needs (.up n) key ↔ ∃ node, w.node? n = some node ∧ node.isDetached = false ∧
      ∃ e edge, w.edge? e = some edge ∧ edge.output.node = n ∧
        key = if node.nexusMode? = some .fanIn then .edge e else .up edge.input.node := by
  cases hslot : w.slot? n with
  | none => simp [Needs, dependencies, node?, hslot]
  | some slot =>
      have hnode : w.node? n = some slot.node := node?_eq_some.mpr ⟨slot, hslot, rfl⟩
      have hreads := mem_reads_iff .up (slot.node.nexusMode? = some .fanIn) key
        fun _ => hwf.mem_outward hslot
      rw [Needs, dependencies_up hslot, Node.flow_of_isBuiltIn (hbuilt hnode)]
      simp only [Bool.false_eq_true, ↓reduceIte, List.append_nil, hnode, Option.some.injEq,
        exists_eq_left', List.mem_ite_nil_right, hreads, emitter, Bool.not_eq_true',
        decide_eq_true_eq]

/-- What the downward values of a node lead to where no fan-out leads to a fan-in: the downward
values of what feeds the node, the trunks of fan-outs on the way, and what their upward values lead
to. -/
inductive Above (w : Wiring) (n : NodeId) : FlowKey → Prop
  | down {m : NodeId} (h : TransGen w.Feeds m n) : Above w n (.down m)
  | trunk {e : EdgeId} {edge : Edge} (hedge : w.edge? e = some edge)
      (hnexus : w.IsNexus edge.input.node .fanOut) (h : ReflTransGen w.Feeds edge.input.node n) :
      Above w n (.edge e)
  | up {x m : NodeId} (hnexus : w.IsNexus x .fanOut) (h : ReflTransGen w.Relays x m) :
      Above w n (.up m)

section Circles

variable (hwf : w.WellFormed) (hbuilt : w.AllBuiltIn)

include hwf hbuilt

theorem above_of_needs {n m : NodeId} {key : FlowKey} (hpath : ReflTransGen w.Feeds m n)
    (hneeds : w.Needs (.down m) key) : w.Above n key := by
  obtain ⟨node, hnode, _, e, edge, hedge, rfl, rfl⟩ := (needs_down_iff hwf hbuilt).mp hneeds
  by_cases hmode : node.nexusMode? = some .fanOut
  · rw [if_pos hmode]
    exact .trunk hedge ⟨node, hnode, hmode⟩ hpath
  · rw [if_neg hmode]
    exact .down (.head' ⟨e, edge, hedge, rfl, rfl⟩ hpath)

variable (hapart : ∀ x f, w.IsNexus x .fanOut → w.IsNexus f .fanIn → ¬ TransGen w.Relays x f)

include hapart

theorem Above.needs {n : NodeId} {key next : FlowKey} (h : w.Above n key)
    (hneeds : w.Needs key next) : w.Above n next := by
  cases h with
  | down hpath => exact above_of_needs hwf hbuilt hpath.to_reflTransGen hneeds
  | @trunk e edge hedge hnexus hpath =>
      obtain ⟨found, hfound, rfl | rfl⟩ := needs_edge_iff.mp hneeds
      · rw [hedge] at hfound
        cases hfound
        exact .down (.head' ⟨e, edge, hedge, rfl, rfl⟩ hpath)
      · rw [hedge] at hfound
        cases hfound
        exact .up hnexus .refl
  | @up x m hnexus hpath =>
      obtain ⟨node, hnode, hpasses, e, edge, hedge, rfl, rfl⟩ :=
        (needs_up_iff hwf hbuilt).mp hneeds
      by_cases hmode : node.nexusMode? = some .fanIn
      · exfalso
        rcases reflTransGen_iff_eq_or_transGen.mp hpath with heq | htrans
        · obtain ⟨other, hother, hfanOut⟩ := hnexus
          rw [← heq, hnode] at hother
          cases hother
          rw [hmode] at hfanOut
          cases hfanOut
        · exact hapart x _ hnexus ⟨node, hnode, hmode⟩ htrans
      · rw [if_neg hmode]
        exact .up hnexus (hpath.tail ⟨⟨e, edge, hedge, rfl, rfl⟩, node, hnode, hpasses⟩)

theorem above_of_transGen {n : NodeId} {key : FlowKey} (h : TransGen w.Needs (.down n) key) :
    w.Above n key := by
  induction h with
  | single hneeds => exact above_of_needs hwf hbuilt .refl hneeds
  | tail _ hneeds ih => exact ih.needs hwf hbuilt hapart hneeds

variable (hphysical : ∀ n, ¬ TransGen w.Feeds n n)

include hphysical

theorem not_transGen_down (n : NodeId) : ¬ TransGen w.Needs (.down n) (.down n) := by
  intro hloop
  cases above_of_transGen hwf hbuilt hapart hloop with
  | down hpath => exact hphysical n hpath

omit hapart hphysical in
/-- The upward values of a node lead to those of what the node feeds, unless the way leads through
downward values. -/
theorem transGen_up {n : NodeId} {key : FlowKey} (h : TransGen w.Needs (.up n) key) :
    (∃ m, key = .up m ∧ TransGen w.Feeds n m) ∨
      (∃ e edge, key = .edge e ∧ w.edge? e = some edge ∧
        ReflTransGen w.Feeds n edge.output.node) ∨
      ∃ m, TransGen w.Needs (.up n) (.down m) ∧ ReflTransGen w.Needs (.down m) key := by
  have hstep : ∀ {m next}, ReflTransGen w.Feeds n m → w.Needs (.up m) next →
      (∃ m, next = .up m ∧ TransGen w.Feeds n m) ∨
        (∃ e edge, next = .edge e ∧ w.edge? e = some edge ∧
          ReflTransGen w.Feeds n edge.output.node) ∨
        ∃ m, TransGen w.Needs (.up n) (.down m) ∧ ReflTransGen w.Needs (.down m) next := by
    intro m next hpath hneeds
    obtain ⟨node, _, _, e, edge, hedge, rfl, rfl⟩ := (needs_up_iff hwf hbuilt).mp hneeds
    split
    · exact Or.inr (Or.inl ⟨e, edge, rfl, hedge, hpath⟩)
    · exact Or.inl ⟨_, rfl, .tail' hpath ⟨e, edge, hedge, rfl, rfl⟩⟩
  induction h with
  | single hneeds => exact hstep .refl hneeds
  | tail hreach hneeds ih =>
      rcases ih with ⟨m, rfl, hpath⟩ | ⟨e, edge, rfl, hedge, hpath⟩ | ⟨m, hdown, hrest⟩
      · exact hstep hpath.to_reflTransGen hneeds
      · obtain ⟨found, hfound, rfl | rfl⟩ := needs_edge_iff.mp hneeds
        · exact Or.inr (Or.inr ⟨_, hreach.tail hneeds, .refl⟩)
        · rw [hedge] at hfound
          cases hfound
          exact Or.inl ⟨_, rfl, .tail' hpath ⟨e, edge, hedge, rfl, rfl⟩⟩
      · exact Or.inr (Or.inr ⟨m, hdown, hrest.tail hneeds⟩)

/-- Where edges lead in no circle, and no fan-out leads to a fan-in through nodes that pass
parameters on, no key depends on itself. -/
theorem not_transGen_needs (key : FlowKey) : ¬ TransGen w.Needs key key := by
  have hup : ∀ n, ¬ TransGen w.Needs (.up n) (.up n) := by
    intro n hloop
    rcases transGen_up hwf hbuilt hloop with ⟨m, heq, hpath⟩ | ⟨e, _, heq, _⟩ | ⟨m, hdown, hrest⟩
    · cases heq
      exact hphysical _ hpath
    · cases heq
    · exact not_transGen_down hwf hbuilt hapart hphysical m (hdown.trans_right hrest)
  cases key with
  | down n => exact not_transGen_down hwf hbuilt hapart hphysical n
  | up n => exact hup n
  | edge e =>
      intro hloop
      obtain ⟨next, hneeds, hback⟩ := TransGen.head'_iff.mp hloop
      have hturned : TransGen w.Needs next next := .tail' hback hneeds
      obtain ⟨edge, _, rfl | rfl⟩ := needs_edge_iff.mp hneeds
      · exact not_transGen_down hwf hbuilt hapart hphysical _ hturned
      · exact hup _ hturned

end Circles

theorem Feeds.not_isSource (hwf : w.WellFormed) {a b : NodeId} (h : w.Feeds a b) {node : Node}
    (hnode : w.node? b = some node) : node.isSource = false := by
  obtain ⟨e, edge, hedge, _, rfl⟩ := h
  obtain ⟨hside, spec, hspec, _⟩ := (hwf.joined hedge).2.2
  cases node with
  | source name protocol cardinality offer =>
      rw [spec?, hnode, hside] at hspec
      cases hspec
  | _ => rfl

theorem IsNexus.passes {n : NodeId} {mode : GroupMode} (h : w.IsNexus n mode) :
    ∃ node, w.node? n = some node ∧ node.isDetached = false := by
  obtain ⟨node, hnode, hmode⟩ := h
  cases node with
  | nexus name mode protocol branches policy => exact ⟨_, hnode, rfl⟩
  | _ => cases hmode

section Ways

variable (hwf : w.WellFormed) (hbuilt : w.AllBuiltIn)

include hwf hbuilt

/-- Demand follows a way on which parameters are passed on downstream, to upward values. -/
theorem transGen_up_of_relays {a b : NodeId} (h : TransGen w.Relays a b) :
    TransGen w.Needs (.up a) (.up b) := by
  refine TransGen.lift' FlowKey.up (fun m n hstep => ?_) a b h
  change TransGen w.Needs (.up m) (.up n)
  obtain ⟨⟨e, edge, hedge, rfl, rfl⟩, node, hnode, hpasses⟩ := hstep
  have hneeds := (needs_up_iff hwf hbuilt).mpr ⟨node, hnode, hpasses, e, edge, hedge, rfl, rfl⟩
  by_cases hmode : node.nexusMode? = some .fanIn
  · rw [if_pos hmode] at hneeds
    exact .head hneeds (.single (needs_edge_iff.mpr ⟨edge, hedge, Or.inr rfl⟩))
  · rw [if_neg hmode] at hneeds
    exact .single hneeds

/-- Demand follows such a way upstream, to downward values. -/
theorem transGen_down_of_relays {a b : NodeId} (h : TransGen w.Relays a b)
    (hlast : ∃ node, w.node? b = some node ∧ node.isDetached = false) :
    TransGen w.Needs (.down b) (.down a) := by
  have hstep : ∀ {m n}, w.Feeds m n → (∃ node, w.node? n = some node ∧ node.isDetached = false) →
      TransGen w.Needs (.down n) (.down m) := by
    rintro m n hfeeds ⟨node, hnode, hpasses⟩
    have hsource := hfeeds.not_isSource hwf hnode
    obtain ⟨e, edge, hedge, rfl, rfl⟩ := hfeeds
    have hneeds := (needs_down_iff hwf hbuilt).mpr
      ⟨node, hnode, ⟨hpasses, hsource⟩, e, edge, hedge, rfl, rfl⟩
    by_cases hmode : node.nexusMode? = some .fanOut
    · rw [if_pos hmode] at hneeds
      exact .head hneeds (.single (needs_edge_iff.mpr ⟨edge, hedge, Or.inl rfl⟩))
    · rw [if_neg hmode] at hneeds
      exact .single hneeds
  induction h with
  | single hrelays => exact hstep hrelays.1 hlast
  | tail _ hrelays ih => exact (hstep hrelays.1 hlast).trans (ih hrelays.2)

/-- Where a way leads from a fan-out to a fan-in on which parameters are passed on, the trunk of
each waits for the trunk of the other. -/
theorem transGen_needs_trunk {x f : NodeId} (hx : w.IsNexus x .fanOut) (hf : w.IsNexus f .fanIn)
    (hpath : TransGen w.Relays x f) {trunk trunk' : EdgeId} {edge edge' : Edge}
    (hedge : w.edge? trunk = some edge) (hx' : edge.input.node = x)
    (hedge' : w.edge? trunk' = some edge') (hf' : edge'.output.node = f) :
    TransGen w.Needs (.edge trunk) (.edge trunk') ∧
      TransGen w.Needs (.edge trunk') (.edge trunk) := by
  obtain ⟨node, hnode, hmode⟩ := hx
  obtain ⟨node', hnode', hmode'⟩ := hf
  obtain ⟨found, hfound, hpasses⟩ := IsNexus.passes ⟨node, hnode, hmode⟩
  obtain ⟨found', hfound', hpasses'⟩ := IsNexus.passes ⟨node', hnode', hmode'⟩
  obtain rfl : node = found := Option.some.inj (hnode.symm.trans hfound)
  obtain rfl : node' = found' := Option.some.inj (hnode'.symm.trans hfound')
  have hsource := Feeds.not_isSource hwf ⟨trunk, edge, hedge, rfl, hx'⟩ hnode
  have hdown := (needs_down_iff hwf hbuilt).mpr
    ⟨node, hnode, ⟨hpasses, hsource⟩, trunk, edge, hedge, hx', rfl⟩
  have hup := (needs_up_iff hwf hbuilt).mpr
    ⟨node', hnode', hpasses', trunk', edge', hedge', hf', rfl⟩
  rw [if_pos hmode] at hdown
  rw [if_pos hmode'] at hup
  constructor
  · have hfirst : w.Needs (.edge trunk) (.up x) :=
      needs_edge_iff.mpr ⟨edge, hedge, Or.inr (congrArg FlowKey.up hx'.symm)⟩
    exact .head hfirst ((transGen_up_of_relays hwf hbuilt hpath).tail hup)
  · have hfirst : w.Needs (.edge trunk') (.down f) :=
      needs_edge_iff.mpr ⟨edge', hedge', Or.inl (congrArg FlowKey.down hf'.symm)⟩
    exact .head hfirst
      ((transGen_down_of_relays hwf hbuilt hpath ⟨node', hnode', hpasses'⟩).tail hdown)

end Ways

/-- Every edge leads from a node of lower rank to one of higher rank. -/
def Ranked (w : Wiring) (ranks : List Nat) : Prop :=
  ∀ edge ∈ w.edges.toList, ranks.getD edge.output.node.index 0 < ranks.getD edge.input.node.index 0

instance (ranks : List Nat) : Decidable (w.Ranked ranks) :=
  inferInstanceAs (Decidable (∀ edge ∈ w.edges.toList, _))

/-- What every step of a relation raises is raised along all of its ways. -/
theorem rank_lt_of_transGen {r : NodeId → NodeId → Prop} {ranks : List Nat}
    (hstep : ∀ {m n}, r m n → ranks.getD m.index 0 < ranks.getD n.index 0) {a b : NodeId}
    (h : TransGen r a b) : ranks.getD a.index 0 < ranks.getD b.index 0 := by
  induction h with
  | single hfirst => exact hstep hfirst
  | tail _ hnext ih => exact ih.trans (hstep hnext)

theorem Ranked.lt_of_feeds {ranks : List Nat} (hranks : w.Ranked ranks) {a b : NodeId}
    (h : TransGen w.Feeds a b) : ranks.getD a.index 0 < ranks.getD b.index 0 := by
  refine rank_lt_of_transGen ?_ h
  rintro m n ⟨e, edge, hedge, rfl, rfl⟩
  exact hranks edge (Array.mem_toList_iff.mpr (Array.mem_of_getElem? hedge))

theorem Ranked.not_transGen_feeds {ranks : List Nat} (hranks : w.Ranked ranks) (n : NodeId) :
    ¬ TransGen w.Feeds n n :=
  fun hloop => Nat.lt_irrefl _ (hranks.lt_of_feeds hloop)

theorem allBuiltIn_of_slots (h : ∀ slot ∈ w.slots.toList, slot.node.isBuiltIn = true) :
    w.AllBuiltIn := by
  intro n node hnode
  obtain ⟨slot, hslot, rfl⟩ := node?_eq_some.mp hnode
  exact h slot (Array.mem_toList_iff.mpr (Array.mem_of_getElem? hslot))

theorem IsNexus.bind_eq {n : NodeId} {mode : GroupMode} (h : w.IsNexus n mode) :
    (w.node? n).bind Node.nexusMode? = some mode := by
  obtain ⟨node, hnode, hmode⟩ := h
  rw [hnode]
  exact hmode

theorem IsNexus.mem_nodeIds {n : NodeId} {mode : GroupMode} (h : w.IsNexus n mode) :
    n ∈ w.nodeIds := by
  obtain ⟨node, hnode, _⟩ := h
  obtain ⟨slot, hslot, _⟩ := node?_eq_some.mp hnode
  exact List.mem_map.mpr
    ⟨n.index, List.mem_range.mpr (Array.getElem?_eq_some_iff.mp hslot).1, rfl⟩

end Wiring

namespace Graph

/-- No request to resolve reports a circle. -/
structure ReportsNoCycle (g : Graph) : Prop where
  resolve : ∀ e c, (g.resolve e).1 ≠ .error (.resolve (.cycle c))
  resolveAll : ∀ c, .cycle c ∉ g.resolveAll.1
  freeze : ∀ found, g.freeze.1 = .error found → ∀ v ∈ found, v.cycle? = none

section Reports

variable {g : Graph}

theorem Sound.entry_ne_cycle (hg : g.Sound) (hacyclic : ∀ key, ¬ TransGen g.wiring.Needs key key)
    (key : FlowKey) (c : Cycle) : g.entry key ≠ .failed (.cycle c) := by
  intro hentry
  obtain ⟨member, hcloses⟩ := (hg.settled.consistent.faults hentry).exists_closes
  exact hacyclic member hcloses.transGen

theorem mem_foldl_addDistinct {found errors : List ResolveError} {error : ResolveError}
    (h : error ∈ errors.foldl addDistinct found) : error ∈ found ∨ error ∈ errors := by
  induction errors generalizing found with
  | nil => exact Or.inl h
  | cons first rest ih =>
      rcases ih h with hfound | hrest
      · rw [addDistinct] at hfound
        split at hfound
        · exact Or.inl hfound
        · rcases List.mem_append.mp hfound with hold | hnew
          · exact Or.inl hold
          · exact Or.inr (by rw [List.mem_singleton.mp hnew]; exact List.mem_cons_self)
      · exact Or.inr (List.mem_cons_of_mem _ hrest)

theorem exists_of_mem_failures {error : ResolveError} (h : error ∈ g.failures) :
    ∃ e, g.wiring.HasKey (.edge e) ∧ g.entry (.edge e) = .failed error := by
  rcases mem_foldl_addDistinct h with hnil | hmem
  · cases hnil
  · obtain ⟨e, he, hfailure⟩ := List.mem_filterMap.mp hmem
    have hkey := mem_edgeIds.mp he
    rw [failure?_eq hkey] at hfailure
    exact ⟨e, hkey, Entry.failure?_eq_some_iff.mp hfailure⟩

theorem resolution_notMem_portViolations {n : NodeId} {side : Side} {index : Nat}
    {ports : List (PortSpec × List EdgeId)} {error : ResolveError} :
    .resolution error ∉ portViolations n side index ports := by
  intro h
  induction ports generalizing index with
  | nil => cases h
  | cons first rest ih =>
      obtain ⟨spec, edges⟩ := first
      rw [portViolations] at h
      split at h
      · exact ih h
      · rcases List.mem_cons.mp h with hfirst | hrest
        · cases hfirst
        · exact ih hrest

/-- Freezing reports no failures but those to resolve the edges. -/
theorem mem_of_resolution_mem {errors : List ResolveError} {reach : Reachability}
    {error : ResolveError} (h : .resolution error ∈ g.violations errors reach) :
    error ∈ errors := by
  rw [violations, List.mem_append, List.mem_append, List.mem_append, List.mem_append] at h
  rcases h with (((hresolution | hunresolved) | hcardinality) | horphan) | hunreachable
  · obtain ⟨found, hmem, hsame⟩ := List.mem_map.mp hresolution
    cases hsame
    exact hmem
  · obtain ⟨e, _, he⟩ := List.mem_filterMap.mp hunresolved
    split at he
    · cases he
    · cases he
  · obtain ⟨n, _, hn⟩ := List.mem_flatMap.mp hcardinality
    split at hn
    · rcases List.mem_append.mp hn with hin | hout
      · exact absurd hin resolution_notMem_portViolations
      · exact absurd hout resolution_notMem_portViolations
    · cases hn
  · rw [orphanViolations] at horphan
    split at horphan
    · obtain ⟨_, _, hsame⟩ := List.mem_map.mp horphan
      cases hsame
    · cases horphan
  · rw [unreachableViolations] at hunreachable
    split at hunreachable
    · obtain ⟨_, _, hsame⟩ := List.mem_map.mp hunreachable
      cases hsame
    · cases hunreachable

theorem mem_of_cycle?_eq_some {errors : List ResolveError} {reach : Reachability} {v : Violation}
    (h : v ∈ g.violations errors reach) {c : Cycle} (hcycle : v.cycle? = some c) :
    .cycle c ∈ errors := by
  cases v with
  | resolution error =>
      cases error with
      | mismatch m => cases hcycle
      | cycle d =>
          cases hcycle
          exact mem_of_resolution_mem h
  | unresolved e progress => cases hcycle
  | cardinality port name count wanted => cases hcycle
  | orphan n name => cases hcycle
  | unreachable e => cases hcycle

theorem cycle?_of_mem_violations {errors : List ResolveError} {reach : Reachability}
    (herrors : ∀ c, .cycle c ∉ errors) {v : Violation} (h : v ∈ g.violations errors reach) :
    v.cycle? = none := by
  cases hcycle : v.cycle? with
  | none => rfl
  | some c => exact absurd (mem_of_cycle?_eq_some h hcycle) (herrors c)

theorem error_of_resolve {e : EdgeId} {error : ResolveError}
    (h : (g.resolve e).1 = .error (.resolve error)) : (g.demand (.edge e)).1 = .error error := by
  rw [resolve] at h
  split at h
  · rename_i refused hedge
    rw [edge] at hedge
    split at hedge
    · cases hedge
    · cases hedge
      cases h
  · split at h
    · rename_i hdemand
      rw [hdemand]
      cases h
      rfl
    · split at h <;> cases h

/-- Where no key depends on itself, no circle is reported. -/
theorem Sound.reportsNoCycle (hg : g.Sound)
    (hacyclic : ∀ key, ¬ TransGen g.wiring.Needs key key) : g.ReportsNoCycle := by
  have hentry : ∀ {h : Graph}, h.Sound → h.wiring = g.wiring → ∀ key c,
      h.entry key ≠ .failed (.cycle c) := fun hh hwiring =>
    hh.entry_ne_cycle (hwiring ▸ hacyclic)
  have hfailures : ∀ {h : Graph}, h.Sound → h.wiring = g.wiring → ∀ c, .cycle c ∉ h.failures := by
    intro h hh hwiring c hmem
    obtain ⟨e, _, he⟩ := exists_of_mem_failures hmem
    exact hentry hh hwiring _ c he
  refine ⟨fun e c hresolve => ?_, fun c => ?_, fun found hfound v hv => ?_⟩
  · obtain ⟨hprogress, hsettled, hanswer⟩ := demand_spec hg.settled (.edge e)
    have hdemand := error_of_resolve hresolve
    rcases hanswer with ⟨hok, _⟩ | ⟨error, herror, hfailed⟩
    · rw [hdemand] at hok
      cases hok
    · rw [hdemand] at herror
      cases herror
      have hconsistent := hsettled.consistent
      rw [hprogress.wiring] at hconsistent
      obtain ⟨member, hcloses⟩ := (hconsistent.faults hfailed).exists_closes
      exact hacyclic member hcloses.transGen
  · obtain ⟨hprogress, hsound⟩ := hg.call .resolveAll
    obtain ⟨_, _, _, herrors⟩ := resolveAll_spec hg.settled
    rw [herrors]
    exact hfailures hsound hprogress.wiring c
  · obtain ⟨h, hh, _, hprogress, hfreeze⟩ := hg.exists_freeze_eq
    rw [hfreeze, verdict] at hfound
    split at hfound
    · cases hfound
    · cases hfound
      exact cycle?_of_mem_violations (hfailures hh hprogress.wiring) hv

/-- An edge that depends on itself never settles. -/
theorem Sound.progress_ne_resolved (hg : g.Sound) {e : EdgeId}
    (he : g.wiring.HasKey (.edge e)) (hloop : TransGen g.wiring.Needs (.edge e) (.edge e)) :
    g.progress (.edge e) ≠ .resolved := by
  intro hresolved
  rw [progress_eq he] at hresolved
  obtain ⟨values, hentry⟩ := Entry.progress_eq_resolved_iff.mp hresolved
  exact (hg.settled.consistent.yields hentry).not_transGen_self hloop

/-- A settled edge is resolved or failed, as it resolves or does not. -/
theorem Sound.settles (hg : g.Sound) {e : EdgeId} (he : g.wiring.HasKey (.edge e))
    (hterminal : (g.entry (.edge e)).isTerminal = true) :
    g.wiring.Resolvable (.edge e) ∧ g.progress (.edge e) = .resolved ∧ g.failure? e = none ∨
      ¬ g.wiring.Resolvable (.edge e) ∧ g.progress (.edge e) = .failed ∧
        ∃ error, g.failure? e = some error := by
  have hconsistent := hg.settled.consistent
  rw [progress_eq he, failure?_eq he]
  rcases Entry.isTerminal_iff.mp hterminal with ⟨values, hentry⟩ | ⟨error, hentry⟩
  · rw [hentry]
    exact .inl ⟨⟨values, hconsistent.yields hentry⟩, rfl, rfl⟩
  · rw [hentry]
    exact .inr ⟨(hconsistent.faults hentry).not_resolvable, rfl, error, rfl⟩

/-- A graph with an edge that does not resolve cannot be frozen: freezing leaves the edge failed, and
says so. -/
theorem Sound.freeze_of_not_resolvable (hg : g.Sound) {e : EdgeId}
    (he : g.wiring.HasKey (.edge e)) (hnot : ¬ g.wiring.Resolvable (.edge e)) :
    g.freeze.2.progress (.edge e) = .failed ∧
      ∃ found, g.freeze.1 = .error found ∧ .unresolved e .failed ∈ found := by
  obtain ⟨hafter, hcomplete, hprogress, hverdict⟩ := hg.freeze_spec
  rw [← hprogress.wiring] at he hnot
  rcases hafter.settles he (hcomplete e he) with ⟨hyes, _⟩ | ⟨_, hfailed, _⟩
  · exact absurd hyes hnot
  have hviolation : .unresolved e .failed ∈
      g.freeze.2.violations g.freeze.2.failures g.freeze.2.reachability := by
    have hmem : .unresolved e .failed ∈ g.freeze.2.unresolvedViolations :=
      List.mem_filterMap.mpr ⟨e, mem_edgeIds.mpr he, by rw [hfailed]; rfl⟩
    simp [violations, hmem]
  refine ⟨hfailed, _, ?_, hviolation⟩
  rw [hverdict, verdict, if_neg]
  intro hempty
  rw [List.isEmpty_iff.mp hempty] at hviolation
  cases hviolation

/-- A graph with an edge that depends on itself cannot be frozen. -/
theorem Sound.freeze_of_transGen_self (hg : g.Sound) {e : EdgeId}
    (he : g.wiring.HasKey (.edge e)) (hloop : TransGen g.wiring.Needs (.edge e) (.edge e)) :
    ∃ found, g.freeze.1 = .error found := by
  obtain ⟨_, found, hfound, _⟩ :=
    hg.freeze_of_not_resolvable he fun hresolvable => hresolvable.not_transGen_self hloop
  exact ⟨found, hfound⟩

end Reports

/-- Where edges lead in no circle, a circle of parameters takes a way from a fan-out to a fan-in on
which parameters are passed on.  Without such a way none is ever reported; with one, the trunks of
both never settle, and the graph cannot be frozen. -/
theorem circle_of_parameters {g : Graph} (hg : g.Reachable) (hbuilt : g.wiring.AllBuiltIn)
    (hphysical : ∀ n, ¬ TransGen g.wiring.Feeds n n) :
    ((∀ x f, g.wiring.IsNexus x .fanOut → g.wiring.IsNexus f .fanIn →
        ¬ TransGen g.wiring.Relays x f) → g.ReportsNoCycle) ∧
      ∀ x f, g.wiring.IsNexus x .fanOut → g.wiring.IsNexus f .fanIn →
        TransGen g.wiring.Relays x f →
        ∀ trunk trunk' edge edge', g.wiring.edge? trunk = some edge → edge.input.node = x →
          g.wiring.edge? trunk' = some edge' → edge'.output.node = f →
          g.progress (.edge trunk) ≠ .resolved ∧ g.progress (.edge trunk') ≠ .resolved ∧
            ∃ found, g.freeze.1 = .error found := by
  have hsound := hg.sound
  constructor
  · intro hapart
    exact hsound.reportsNoCycle (Wiring.not_transGen_needs hsound.wellFormed hbuilt hapart hphysical)
  · intro x f hx hf hpath trunk trunk' edge edge' hedge hx' hedge' hf'
    obtain ⟨hthere, hback⟩ := Wiring.transGen_needs_trunk hsound.wellFormed hbuilt hx hf hpath
      hedge hx' hedge' hf'
    have htrunk : g.wiring.HasKey (.edge trunk) := Wiring.HasKey.of_edge? hedge
    have htrunk' : g.wiring.HasKey (.edge trunk') := Wiring.HasKey.of_edge? hedge'
    exact ⟨hsound.progress_ne_resolved htrunk (hthere.trans hback),
      hsound.progress_ne_resolved htrunk' (hback.trans hthere),
      hsound.freeze_of_transGen_self htrunk (hthere.trans hback)⟩

/-- A fan-out whose branches meet again in a fan-in. -/
def diamond : Graph :=
  let width : Schema := .ofList [("width", .number)]
  let bus : Protocol := ⟨⟨"bus", width, width⟩, .policy .intersect, .absent, .absent⟩
  after {} [.build (.addNode (.source "cpu" bus (.exactly 1) (.ofList [("width", .num 16)]))),
    .build (.addNode (.identity "left" bus)), .build (.addNode (.identity "right" bus)),
    .build (.addNode (.sink "ram" bus (.exactly 1) (.ofList [("width", .num 16)]))),
    .build (.bindGroup ⟨.fanOut, NodeId.output ⟨0⟩ 0, [NodeId.input ⟨1⟩ 0, NodeId.input ⟨2⟩ 0],
      .intersect, .identity, .identity⟩),
    .build (.bindGroup ⟨.fanIn, NodeId.input ⟨3⟩ 0, [NodeId.output ⟨1⟩ 0, NodeId.output ⟨2⟩ 0],
      .intersect, .identity, .identity⟩)]

/-- The edges of the diamond lead in no circle, yet a circle of parameters is reported. -/
theorem diamond_reports_circle :
    diamond.Reachable ∧ diamond.wiring.AllBuiltIn ∧ (∀ n, ¬ TransGen diamond.wiring.Feeds n n) ∧
      ∃ c, (diamond.resolve ⟨0⟩).1 = .error (.resolve (.cycle c)) := by
  have hranks : diamond.wiring.Ranked [0, 2, 2, 4, 1, 3] := by decide
  exact ⟨reachable_after _ _, Wiring.allBuiltIn_of_slots (by decide), hranks.not_transGen_feeds,
    _, rfl⟩

/-- A fan-in that leads to a fan-out. -/
def hourglass : Graph :=
  let width : Schema := .ofList [("width", .number)]
  let bus : Protocol := ⟨⟨"bus", width, width⟩, .policy .intersect, .absent, .absent⟩
  after {} [.build (.addNode (.source "cpu" bus (.exactly 1) (.ofList [("width", .num 16)]))),
    .build (.addNode (.source "dma" bus (.exactly 1) (.ofList [("width", .span 1 32)]))),
    .build (.addNode (.identity "hub" bus)),
    .build (.addNode (.sink "ram" bus (.exactly 1) (.ofList [("width", .num 16)]))),
    .build (.addNode (.sink "rom" bus (.exactly 1) (.ofList [("width", .span 8 64)]))),
    .build (.bindGroup ⟨.fanIn, NodeId.input ⟨2⟩ 0, [NodeId.output ⟨0⟩ 0, NodeId.output ⟨1⟩ 0],
      .intersect, .identity, .identity⟩),
    .build (.bindGroup ⟨.fanOut, NodeId.output ⟨2⟩ 0, [NodeId.input ⟨3⟩ 0, NodeId.input ⟨4⟩ 0],
      .intersect, .identity, .identity⟩)]

/-- In the hourglass, no circle is reported. -/
theorem hourglass_reports_no_circle :
    hourglass.Reachable ∧ hourglass.wiring.AllBuiltIn ∧
      (∀ n, ¬ TransGen hourglass.wiring.Feeds n n) ∧ hourglass.ReportsNoCycle := by
  have hhourglass : hourglass.Reachable := reachable_after _ _
  have hbuilt : hourglass.wiring.AllBuiltIn := Wiring.allBuiltIn_of_slots (by decide)
  have hranks : hourglass.wiring.Ranked [0, 0, 2, 4, 4, 1, 3] := by decide
  have hfanOut : ∀ n ∈ hourglass.wiring.nodeIds,
      (hourglass.wiring.node? n).bind Node.nexusMode? = some .fanOut → n = ⟨6⟩ := by
    decide
  have hfanIn : ∀ n ∈ hourglass.wiring.nodeIds,
      (hourglass.wiring.node? n).bind Node.nexusMode? = some .fanIn → n = ⟨5⟩ := by
    decide
  refine ⟨hhourglass, hbuilt, hranks.not_transGen_feeds,
    (circle_of_parameters hhourglass hbuilt hranks.not_transGen_feeds).1 fun x f hx hf hpath => ?_⟩
  have hlt := hranks.lt_of_feeds (TransGen.mono (fun _ _ hstep => hstep.1) x f hpath)
  rw [hfanOut x hx.mem_nodeIds hx.bind_eq, hfanIn f hf.mem_nodeIds hf.bind_eq] at hlt
  exact absurd hlt (by decide)

end Graph

end Negotiation
