import Negotiation.Proofs.Circulation
import Negotiation.Proofs.GroupValue
import Negotiation.Proofs.OrderIndependence

/-!
Loops of edges, and what cuts them.

Values of a node are read from values of the nodes next to it, in the direction in which they travel
(`Wiring.Sways`); only where a nexus reads its trunk settled do keys of one direction need keys of
the other.  If all groups are of one mode, this happens in one direction alone, so that a circle of
keys stays in one direction and follows a loop of edges (`Wiring.not_transGen_needs_of_sways`).  A
node that passes nothing on cuts the loops that run through it; a loop that is not cut keeps a graph
from being frozen (`Graph.loops_cut`).
-/

namespace Negotiation

open Relation

namespace Direction

def reverse : Direction → Direction
  | .down => .up
  | .up => .down

/-- The groups whose nexus reads its trunk for what it emits in the direction. -/
def groupMode : Direction → GroupMode
  | .down => .fanOut
  | .up => .fanIn

theorem key_inj {direction : Direction} {m n : NodeId} :
    direction.key m = direction.key n ↔ m = n := by
  cases direction <;> simp [key]

theorem key_ne_reverse (direction : Direction) (m n : NodeId) :
    direction.key m ≠ direction.reverse.key n := by
  cases direction <;> exact nofun

theorem key_ne_edge (direction : Direction) (n : NodeId) (e : EdgeId) :
    direction.key n ≠ .edge e := by
  cases direction <;> exact nofun

theorem exists_groupMode_eq (mode : GroupMode) :
    ∃ direction : Direction, direction.reverse.groupMode = mode := by
  cases mode with
  | fanOut => exact ⟨.up, rfl⟩
  | fanIn => exact ⟨.down, rfl⟩

end Direction

namespace Wiring

variable {w : Wiring} {direction : Direction}

/-- The node passes on what it gets. -/
def Passes (w : Wiring) (n : NodeId) : Prop :=
  ∃ node, w.node? n = some node ∧ node.isDetached = false

/-- The second node passes on what it gets from the first, in the direction. -/
def Sways (w : Wiring) (direction : Direction) (m n : NodeId) : Prop :=
  (∃ e edge, w.edge? e = some edge ∧ (edge.origin direction).node = m ∧
    (edge.origin direction.reverse).node = n) ∧ w.Passes n

/-- What an edge needs is a value of either direction. -/
theorem exists_of_needs_edge (direction : Direction) {e : EdgeId} {edge : Edge} {key : FlowKey}
    (hedge : w.edge? e = some edge) (h : w.Needs (.edge e) key) :
    key = direction.key (edge.origin direction).node ∨ ∃ n, key = direction.reverse.key n := by
  obtain ⟨found, hfound, hends⟩ := needs_edge_iff.mp h
  rw [hedge] at hfound
  obtain rfl := Option.some.inj hfound
  cases direction with
  | down => exact hends.imp_right fun hup => ⟨_, hup⟩
  | up => exact hends.symm.imp_right fun hdown => ⟨_, hdown⟩

section Built

variable (hwf : w.WellFormed) (hbuilt : w.AllBuiltIn)

include hwf hbuilt

/-- What the values of a node need: values of the next nodes, or a trunk. -/
theorem exists_of_needs_key {n : NodeId} {key : FlowKey} (h : w.Needs (direction.key n) key) :
    ∃ e edge, w.edge? e = some edge ∧ w.Sways direction (edge.origin direction).node n ∧
      (key = direction.key (edge.origin direction).node ∨
        key = .edge e ∧ w.IsNexus n direction.groupMode) := by
  cases direction with
  | down =>
      obtain ⟨node, hnode, ⟨hpasses, _⟩, e, edge, hedge, hreads, hkey⟩ :=
        (needs_down_iff hwf hbuilt).mp h
      refine ⟨e, edge, hedge, ⟨⟨e, edge, hedge, rfl, hreads⟩, node, hnode, hpasses⟩, ?_⟩
      by_cases hmode : node.nexusMode? = some .fanOut
      · rw [if_pos hmode] at hkey
        exact Or.inr ⟨hkey, node, hnode, hmode⟩
      · rw [if_neg hmode] at hkey
        exact Or.inl hkey
  | up =>
      obtain ⟨node, hnode, hpasses, e, edge, hedge, hreads, hkey⟩ :=
        (needs_up_iff hwf hbuilt).mp h
      refine ⟨e, edge, hedge, ⟨⟨e, edge, hedge, rfl, hreads⟩, node, hnode, hpasses⟩, ?_⟩
      by_cases hmode : node.nexusMode? = some .fanIn
      · rw [if_pos hmode] at hkey
        exact Or.inr ⟨hkey, node, hnode, hmode⟩
      · rw [if_neg hmode] at hkey
        exact Or.inl hkey

/-- Where no nexus reads its trunk for them, values in a direction lead to nothing but values in
that direction. -/
theorem exists_of_transGen_key (hnone : ∀ n, ¬ w.IsNexus n direction.groupMode) {n : NodeId}
    {key : FlowKey} (h : TransGen w.Needs (direction.key n) key) :
    ∃ m, key = direction.key m ∧ TransGen (w.Sways direction) m n := by
  have hstep : ∀ {k next}, w.Needs (direction.key k) next →
      ∃ m, next = direction.key m ∧ w.Sways direction m k := by
    intro k next hneeds
    obtain ⟨e, edge, _, hsways, hkey | ⟨_, hnexus⟩⟩ := exists_of_needs_key hwf hbuilt hneeds
    · exact ⟨_, hkey, hsways⟩
    · exact absurd hnexus (hnone k)
  -- Along the way, whatever has been reached is again a value in the direction.
  induction h with
  | single hneeds =>
      obtain ⟨m, hkey, hsways⟩ := hstep hneeds
      exact ⟨m, hkey, .single hsways⟩
  | tail _ hneeds ih =>
      obtain ⟨k, rfl, hpath⟩ := ih
      obtain ⟨m, hkey, hsways⟩ := hstep hneeds
      exact ⟨m, hkey, .head hsways hpath⟩

end Built

/-- What the values of a node in a direction lead to, where no nexus reads its trunk for what it
emits in the other: the values of the nodes that sway it, the trunks on the way, and, from these,
values in the other direction, from where no way leads back. -/
inductive Behind (w : Wiring) (direction : Direction) (n : NodeId) : FlowKey → Prop
  | key {m : NodeId} (h : TransGen (w.Sways direction) m n) : Behind w direction n (direction.key m)
  | trunk {e : EdgeId} {edge : Edge} (hedge : w.edge? e = some edge)
      (h : TransGen (w.Sways direction) (edge.origin direction).node n) :
      Behind w direction n (.edge e)
  | other (m : NodeId) : Behind w direction n (direction.reverse.key m)

theorem Behind.transGen_sways {n m : NodeId} (h : w.Behind direction n (direction.key m)) :
    TransGen (w.Sways direction) m n := by
  generalize hkey : direction.key m = key at h
  cases h with
  | key hpath =>
      rw [Direction.key_inj.mp hkey]
      exact hpath
  | trunk hedge hpath => exact absurd hkey (direction.key_ne_edge m _)
  | other k => exact absurd hkey (direction.key_ne_reverse m k)

section OneMode

variable (hwf : w.WellFormed) (hbuilt : w.AllBuiltIn)
  (hnone : ∀ n, ¬ w.IsNexus n direction.reverse.groupMode)

include hwf hbuilt

theorem behind_of_needs {n m : NodeId} {key : FlowKey}
    (hpath : ReflTransGen (w.Sways direction) m n) (hneeds : w.Needs (direction.key m) key) :
    w.Behind direction n key := by
  obtain ⟨e, edge, hedge, hsways, rfl | ⟨rfl, _⟩⟩ := exists_of_needs_key hwf hbuilt hneeds
  · exact .key (.head' hsways hpath)
  · exact .trunk hedge (.head' hsways hpath)

include hnone

theorem Behind.needs {n : NodeId} {key next : FlowKey} (h : w.Behind direction n key)
    (hneeds : w.Needs key next) : w.Behind direction n next := by
  cases h with
  | key hpath => exact behind_of_needs hwf hbuilt hpath.to_reflTransGen hneeds
  | trunk hedge hpath =>
      rcases exists_of_needs_edge direction hedge hneeds with rfl | ⟨m, rfl⟩
      · exact .key hpath
      · exact .other m
  | other m =>
      obtain ⟨k, rfl, _⟩ := exists_of_transGen_key hwf hbuilt hnone (.single hneeds)
      exact .other k

theorem behind_of_transGen {n : NodeId} {key : FlowKey}
    (h : TransGen w.Needs (direction.key n) key) : w.Behind direction n key := by
  induction h with
  | single hneeds => exact behind_of_needs hwf hbuilt .refl hneeds
  | tail _ hneeds ih => exact ih.needs hwf hbuilt hnone hneeds

/-- Where all groups are of one mode, a key that depends on itself follows a loop on which nodes
sway one another. -/
theorem not_transGen_needs_of_sways (hfree : ∀ direction n, ¬ TransGen (w.Sways direction) n n)
    (key : FlowKey) : ¬ TransGen w.Needs key key := by
  have hthere : ∀ n, ¬ TransGen w.Needs (direction.key n) (direction.key n) := by
    intro n hloop
    exact hfree direction n (behind_of_transGen hwf hbuilt hnone hloop).transGen_sways
  have hback : ∀ n, ¬ TransGen w.Needs (direction.reverse.key n) (direction.reverse.key n) := by
    intro n hloop
    obtain ⟨m, heq, hpath⟩ := exists_of_transGen_key hwf hbuilt hnone hloop
    rw [← Direction.key_inj.mp heq] at hpath
    exact hfree _ n hpath
  have hnode : ∀ (d : Direction) n, ¬ TransGen w.Needs (d.key n) (d.key n) := by
    intro d
    cases d <;> cases direction
    · exact hthere
    · exact hback
    · exact hback
    · exact hthere
  cases key with
  | down n => exact hnode .down n
  | up n => exact hnode .up n
  | edge e =>
      -- An edge needs values of nodes only, so a circle through it can be entered at a node.
      intro hloop
      obtain ⟨next, hneeds, hrest⟩ := TransGen.head'_iff.mp hloop
      have hturned : TransGen w.Needs next next := .tail' hrest hneeds
      obtain ⟨edge, _, rfl | rfl⟩ := needs_edge_iff.mp hneeds
      · exact hnode .down _ hturned
      · exact hnode .up _ hturned

end OneMode

/-- On a loop it makes no difference whether each node passes on what it gets, or each passes on
what the next one gets. -/
theorem transGen_relays_of_sways {n : NodeId} (h : TransGen (w.Sways direction) n n) :
    TransGen w.Relays n n := by
  have hpasses : w.Passes n := by
    obtain ⟨_, _, hlast⟩ := TransGen.tail'_iff.mp h
    exact hlast.2
  cases direction with
  | up =>
      have hreversed : TransGen (Function.swap w.Relays) n n := by
        apply TransGen.mono _ n n h
        rintro a b ⟨⟨e, edge, hedge, hinput, houtput⟩, hpasses⟩
        exact ⟨⟨e, edge, hedge, houtput, hinput⟩, hpasses⟩
      exact transGen_swap.mp hreversed
  | down =>
      -- The node where the way starts passes on what it gets because the way also ends there.
      have hall : ∀ {m}, TransGen (w.Sways .down) n m → TransGen w.Relays n m ∧ w.Passes m := by
        intro m hpath
        induction hpath with
        | single hsways => exact ⟨.single ⟨hsways.1, hpasses⟩, hsways.2⟩
        | tail _ hsways ih => exact ⟨ih.1.tail ⟨hsways.1, ih.2⟩, hsways.2⟩
      exact (hall h).1

/-- The edges lead from one node to another, each on from where the last one arrived. -/
inductive Way (w : Wiring) : NodeId → List EdgeId → NodeId → Prop
  | here (n : NodeId) : Way w n [] n
  | along {m n : NodeId} {e : EdgeId} {edge : Edge} {rest : List EdgeId}
      (hedge : w.edge? e = some edge) (hfrom : edge.output.node = m)
      (h : Way w edge.input.node rest n) : Way w m (e :: rest) n

/-- The edges lead from a node back to it. -/
def IsLoop (w : Wiring) (edges : List EdgeId) : Prop :=
  edges ≠ [] ∧ ∃ n, w.Way n edges n

/-- One of the edges leaves a node that passes nothing on. -/
def IsCut (w : Wiring) (edges : List EdgeId) : Prop :=
  ∃ e ∈ edges, ∃ edge node, w.edge? e = some edge ∧ w.node? edge.output.node = some node ∧
    node.isDetached = true

section Ways

variable {a b c : NodeId} {edges more : List EdgeId}

theorem Way.append (h : w.Way a edges b) (h' : w.Way b more c) : w.Way a (edges ++ more) c := by
  induction h with
  | here n => exact h'
  | along hedge hfrom _ ih => exact .along hedge hfrom (ih h')

/-- A way can be interrupted at any of its edges. -/
theorem Way.split {e : EdgeId} {before after : List EdgeId}
    (h : w.Way a (before ++ e :: after) b) :
    ∃ edge, w.edge? e = some edge ∧ w.Way a before edge.output.node ∧
      w.Way edge.output.node (e :: after) b := by
  induction before generalizing a with
  | nil =>
      cases h with
      | along hedge hfrom hrest =>
          subst hfrom
          exact ⟨_, hedge, .here _, .along hedge rfl hrest⟩
  | cons first rest ih =>
      cases h with
      | along hfirst hfrom hrest =>
          obtain ⟨edge, hedge, hbefore, hafter⟩ := ih hrest
          exact ⟨edge, hedge, .along hfirst hfrom hbefore, hafter⟩

/-- A way on which parameters are passed on is not cut. -/
theorem exists_way_of_relays (h : TransGen w.Relays a b) :
    ∃ edges, edges ≠ [] ∧ w.Way a edges b ∧ ¬ w.IsCut edges := by
  have hkept : ∀ {m n rest}, w.Relays m n → w.Way n rest b → ¬ w.IsCut rest →
      ∃ edges, edges ≠ [] ∧ w.Way m edges b ∧ ¬ w.IsCut edges := by
    rintro m n rest ⟨⟨e, edge, hedge, rfl, rfl⟩, node, hnode, hpasses⟩ hway hwhole
    refine ⟨e :: rest, List.cons_ne_nil _ _, .along hedge rfl hway, ?_⟩
    rintro ⟨e', hmem, edge', node', hedge', hnode', hdetached⟩
    rcases List.mem_cons.mp hmem with rfl | hrest
    · rw [hedge] at hedge'
      cases hedge'
      rw [hnode] at hnode'
      cases hnode'
      rw [hpasses] at hdetached
      cases hdetached
    · exact hwhole ⟨e', hrest, edge', node', hedge', hnode', hdetached⟩
  induction h using TransGen.head_induction_on with
  | single hrelays =>
      apply hkept hrelays (.here b)
      rintro ⟨_, hmem, _⟩
      cases hmem
  | head hrelays _ ih =>
      obtain ⟨rest, _, hway, hwhole⟩ := ih
      exact hkept hrelays hway hwhole

/-- On a way that is not cut, parameters are passed on. -/
theorem Way.transGen_relays (hwf : w.WellFormed) (h : w.Way a edges b) (hne : edges ≠ [])
    (hwhole : ¬ w.IsCut edges) : TransGen w.Relays a b := by
  induction h with
  | here n => exact absurd rfl hne
  | @along m n e edge rest hedge hfrom hrest ih =>
      subst hfrom
      obtain ⟨_, ⟨_, spec, hspec, _⟩, _⟩ := hwf.joined hedge
      obtain ⟨node, hnode, _⟩ := Option.bind_eq_some_iff.mp hspec
      have hpasses : node.isDetached = false := by
        rw [← Bool.not_eq_true]
        intro hdetached
        exact hwhole ⟨e, List.mem_cons_self, edge, node, hedge, hnode, hdetached⟩
      have hrelays : w.Relays edge.output.node edge.input.node :=
        ⟨⟨e, edge, hedge, rfl, rfl⟩, node, hnode, hpasses⟩
      have hrestWhole : ¬ w.IsCut rest := fun ⟨e', hmem, hcut⟩ =>
        hwhole ⟨e', List.mem_cons_of_mem _ hmem, hcut⟩
      cases hrest with
      | here => exact .single hrelays
      | along => exact .head hrelays (ih (List.cons_ne_nil _ _) hrestWhole)

/-- From every edge of a loop that is not cut, parameters are passed on until they are back. -/
theorem IsLoop.exists_relays (hwf : w.WellFormed) (h : w.IsLoop edges) (hwhole : ¬ w.IsCut edges)
    {e : EdgeId} (he : e ∈ edges) :
    ∃ edge, w.edge? e = some edge ∧ TransGen w.Relays edge.output.node edge.output.node := by
  obtain ⟨_, n, hway⟩ := h
  obtain ⟨before, after, rfl⟩ := List.append_of_mem he
  obtain ⟨edge, hedge, hbefore, hafter⟩ := hway.split
  -- The loop is turned until it starts with the edge.
  refine ⟨edge, hedge, (hafter.append hbefore).transGen_relays hwf (List.cons_ne_nil _ _) ?_⟩
  rintro ⟨e', hmem, hcut⟩
  exact hwhole ⟨e', List.mem_append.mpr (List.mem_append.mp hmem).symm, hcut⟩

theorem not_transGen_relays (hcut : ∀ loop, w.IsLoop loop → w.IsCut loop) (n : NodeId) :
    ¬ TransGen w.Relays n n := by
  intro hloop
  obtain ⟨edges, hne, hway, hwhole⟩ := exists_way_of_relays hloop
  exact hwhole (hcut edges ⟨hne, n, hway⟩)

/-- An edge of a loop that is not cut does not resolve. -/
theorem IsLoop.not_resolvable (hwf : w.WellFormed) (hbuilt : w.AllBuiltIn) (h : w.IsLoop edges)
    (hwhole : ¬ w.IsCut edges) {e : EdgeId} (he : e ∈ edges) :
    w.HasKey (.edge e) ∧ ¬ w.Resolvable (.edge e) := by
  obtain ⟨edge, hedge, hrelays⟩ := h.exists_relays hwf hwhole he
  refine ⟨HasKey.of_edge? hedge, ?_⟩
  intro hresolvable
  have hpasses : w.Passes edge.output.node := by
    obtain ⟨_, hfirst, _⟩ := TransGen.head'_iff.mp hrelays
    exact hfirst.2
  have hloop := transGen_down_of_relays hwf hbuilt hrelays hpasses
  have hneeds : w.Needs (.edge e) (.down edge.output.node) :=
    needs_edge_iff.mpr ⟨edge, hedge, Or.inl rfl⟩
  exact (hresolvable.of_transGen (.single hneeds)).not_transGen_self hloop

end Ways

/-- Every edge leads from a node of lower rank to one of higher rank, unless it leaves a node that
passes nothing on. -/
def RankedBetweenCuts (w : Wiring) (ranks : List Nat) : Prop :=
  ∀ edge ∈ w.edges.toList, (w.node? edge.output.node).any Node.isDetached = true ∨
    ranks.getD edge.output.node.index 0 < ranks.getD edge.input.node.index 0

instance (ranks : List Nat) : Decidable (w.RankedBetweenCuts ranks) :=
  inferInstanceAs (Decidable (∀ edge ∈ w.edges.toList, _))

theorem RankedBetweenCuts.isCut {ranks : List Nat} (hranks : w.RankedBetweenCuts ranks)
    (hwf : w.WellFormed) {loop : List EdgeId} (hloop : w.IsLoop loop) : w.IsCut loop := by
  have hstep : ∀ {m n}, w.Relays m n → ranks.getD m.index 0 < ranks.getD n.index 0 := by
    rintro m n ⟨⟨e, edge, hedge, rfl, rfl⟩, node, hnode, hpasses⟩
    have hmem := Array.mem_toList_iff.mpr (Array.mem_of_getElem? hedge)
    have hrank := hranks edge hmem
    rw [hnode, Option.any_some, hpasses] at hrank
    exact hrank.resolve_left Bool.false_ne_true
  by_contra hwhole
  obtain ⟨e, he⟩ := List.exists_mem_of_ne_nil loop hloop.1
  obtain ⟨edge, _, hback⟩ := hloop.exists_relays hwf hwhole he
  exact Nat.lt_irrefl _ (rank_lt_of_transGen hstep hback)

end Wiring

namespace Graph

/-- Where all groups are of one mode and every loop of edges is cut, no circle is ever reported.  A
graph with a loop that is not cut cannot be frozen, and freezing leaves the edges of the loop
failed. -/
theorem loops_cut {g : Graph} (hg : g.Reachable) (hbuilt : g.wiring.AllBuiltIn) :
    ((∃ mode, ∀ n, ¬ g.wiring.IsNexus n mode) →
        (∀ loop, g.wiring.IsLoop loop → g.wiring.IsCut loop) → g.ReportsNoCycle) ∧
      ∀ loop, g.wiring.IsLoop loop → ¬ g.wiring.IsCut loop →
        (∃ found, g.freeze.1 = .error found) ∧
          ∀ e ∈ loop, g.freeze.2.progress (.edge e) = .failed := by
  have hsound := hg.sound
  have hwf := hsound.wellFormed
  constructor
  · rintro ⟨mode, hnone⟩ hcut
    obtain ⟨direction, rfl⟩ := Direction.exists_groupMode_eq mode
    apply hsound.reportsNoCycle
    apply Wiring.not_transGen_needs_of_sways hwf hbuilt hnone
    intro d n hsways
    exact Wiring.not_transGen_relays hcut n (Wiring.transGen_relays_of_sways hsways)
  · intro loop hloop hwhole
    have hedges : ∀ e ∈ loop, g.freeze.2.progress (.edge e) = .failed ∧
        ∃ found, g.freeze.1 = .error found ∧ .unresolved e .failed ∈ found := by
      intro e he
      obtain ⟨hkey, hnot⟩ := hloop.not_resolvable hwf hbuilt hwhole he
      exact hsound.freeze_of_not_resolvable hkey hnot
    constructor
    · obtain ⟨e, he⟩ := List.exists_mem_of_ne_nil loop hloop.1
      obtain ⟨_, found, hfound, _⟩ := hedges e he
      exact ⟨found, hfound⟩
    · intro e he
      exact (hedges e he).1

/-- A loop through a group, cut at a node that passes nothing on. -/
def lasso : Graph :=
  let width : Schema := .ofList [("width", .number)]
  let bus : Protocol := ⟨⟨"bus", width, width⟩, .policy .intersect, .absent, .absent⟩
  let eight : Parameter := .ofList [("width", .num 8)]
  after {} [.build (.addNode (.detached "east" bus bus eight eight)),
    .build (.addNode (.identity "hub" bus)),
    .build (.addNode (.sink "ram" bus (.exactly 1) (.ofList [("width", .span 1 32)]))),
    .build (.bind (NodeId.output ⟨0⟩ 0) (NodeId.input ⟨1⟩ 0)),
    .build (.bindGroup ⟨.fanOut, NodeId.output ⟨1⟩ 0, [NodeId.input ⟨0⟩ 0, NodeId.input ⟨2⟩ 0],
      .intersect, .identity, .identity⟩)]

/-- The loop of the lasso is cut, and no circle is reported; the loop of the ring is not. -/
theorem lasso_loops_cut :
    lasso.Reachable ∧ lasso.wiring.AllBuiltIn ∧ (∀ n, ¬ lasso.wiring.IsNexus n .fanIn) ∧
      lasso.wiring.IsLoop [⟨0⟩, ⟨1⟩, ⟨2⟩] ∧
      (∀ loop, lasso.wiring.IsLoop loop → lasso.wiring.IsCut loop) ∧ lasso.ReportsNoCycle ∧
      (∃ bound, lasso.freeze.1 = .ok bound) ∧
      ring.Reachable ∧ ring.wiring.AllBuiltIn ∧ ring.wiring.IsLoop [⟨0⟩, ⟨1⟩] ∧
      ¬ ring.wiring.IsCut [⟨0⟩, ⟨1⟩] ∧ (∃ found, ring.freeze.1 = .error found) ∧
      ring.freeze.2.progress (.edge ⟨0⟩) = .failed := by
  have hlasso : lasso.Reachable := reachable_after _ _
  have hbuilt : lasso.wiring.AllBuiltIn := Wiring.allBuiltIn_of_slots (by decide)
  have hmodes : ∀ n ∈ lasso.wiring.nodeIds,
      (lasso.wiring.node? n).bind Node.nexusMode? ≠ some .fanIn := by
    decide
  have hfanOut : ∀ n, ¬ lasso.wiring.IsNexus n .fanIn := fun n hnexus =>
    hmodes n hnexus.mem_nodeIds hnexus.bind_eq
  have hranks : lasso.wiring.RankedBetweenCuts [3, 0, 2, 1] := by decide
  have hcut : ∀ loop, lasso.wiring.IsLoop loop → lasso.wiring.IsCut loop := fun _ hloop =>
    hranks.isCut hlasso.sound.wellFormed hloop
  have hfreezes : lasso.freeze.1.toOption.isSome = true := by decide
  have hring : ring.Reachable := reachable_after _ _
  have hbuilt' : ring.wiring.AllBuiltIn := Wiring.allBuiltIn_of_slots (by decide)
  have hloop : ring.wiring.IsLoop [⟨0⟩, ⟨1⟩] :=
    ⟨List.cons_ne_nil _ _, ⟨0⟩, .along rfl rfl (.along rfl rfl (.here ⟨0⟩))⟩
  have hround : lasso.wiring.IsLoop [⟨0⟩, ⟨1⟩, ⟨2⟩] :=
    ⟨List.cons_ne_nil _ _, ⟨0⟩, .along rfl rfl (.along rfl rfl (.along rfl rfl (.here ⟨0⟩)))⟩
  have hpass : ∀ slot ∈ ring.wiring.slots.toList, slot.node.isDetached = false := by decide
  have hwhole : ¬ ring.wiring.IsCut [⟨0⟩, ⟨1⟩] := by
    rintro ⟨_, _, edge, node, _, hnode, hdetached⟩
    obtain ⟨slot, hslot, rfl⟩ := Wiring.node?_eq_some.mp hnode
    rw [hpass slot (Array.mem_toList_iff.mpr (Array.mem_of_getElem? hslot))] at hdetached
    cases hdetached
  obtain ⟨bound, hbound⟩ := Option.isSome_iff_exists.mp hfreezes
  obtain ⟨hfails, hfailed⟩ := (loops_cut hring hbuilt').2 _ hloop hwhole
  exact ⟨hlasso, hbuilt, hfanOut, hround, hcut,
    (loops_cut hlasso hbuilt).1 ⟨.fanIn, hfanOut⟩ hcut, ⟨bound, eq_ok_of_toOption hbound⟩, hring,
    hbuilt', hloop, hwhole, hfails, hfailed ⟨0⟩ List.mem_cons_self⟩

end Graph

end Negotiation
