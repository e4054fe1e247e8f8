import Negotiation.Proofs.Snapshot

/-!
Reachability is the existence of paths.

A search that is left to itself takes nodes as long as one waits.  It stops, whatever the tables of
neighbours list and wherever it stands (`Search.runs_rounds`), because no round brings back a node
that was taken; on a wiring it stops after at most as many rounds as there are nodes, with the marks
of `Search.from?` (`Search.runs_start`).  So what is marked is what lies on a path of edges with a
root (`Reachability.tells_ofRoots`), for every set of roots and however the edges run, in circles or
side by side.
-/

namespace Negotiation

open Relation

namespace Search

/-- The search takes waiting nodes until none is left, so many of them. -/
inductive Runs (neighbours : Array (List Nat)) : Nat → Search → Search → Prop
  | stop {s : Search} (h : s.waiting = []) : Runs neighbours 0 s s
  | round {s last : Search} {n : Nat} (h : s.waiting ≠ [])
      (hrest : Runs neighbours n (s.advance neighbours) last) : Runs neighbours (n + 1) s last

/-- The search that has met the roots and taken none of them. -/
def start (neighbours : Array (List Nat)) (roots : List NodeId) : Search :=
  roots.foldl (fun s root => s.meet root.index) (blank neighbours)

section Ending

variable {neighbours : Array (List Nat)} {s : Search}

/-- A round that takes a node brings the end nearer. -/
theorem budget_advance (neighbours : Array (List Nat)) (h : s.waiting ≠ []) :
    (s.advance neighbours).budget + 1 = s.budget := by
  obtain ⟨node, rest, hwaiting⟩ := List.exists_cons_of_ne_nil h
  obtain ⟨_, _, _, hbudget⟩ :=
    foldl_meet_spec (neighbours[node]?.getD []) { s with waiting := rest }
  rw [advance, hwaiting, hbudget, budget, budget, hwaiting]
  rfl

/-- Every search stops; with enough rounds allowed, it is where it stops. -/
theorem runs_rounds (neighbours : Array (List Nat)) {bound : Nat} (h : s.budget ≤ bound) :
    ∃ n ≤ bound, Runs neighbours n s (rounds neighbours bound s) := by
  induction bound generalizing s with
  | zero =>
      have hnone : s.waiting.length = 0 := (Nat.add_eq_zero_iff.mp (Nat.le_zero.mp h)).2
      exact ⟨0, Nat.le_refl 0, .stop (List.eq_nil_of_length_eq_zero hnone)⟩
  | succ bound ih =>
      rw [rounds]
      split
      · rename_i hwaiting
        exact ⟨0, Nat.zero_le _, .stop hwaiting⟩
      · rename_i hwaiting
        have hless := budget_advance neighbours hwaiting
        obtain ⟨n, hn, hruns⟩ := ih (s := s.advance neighbours) (by omega)
        exact ⟨n + 1, Nat.succ_le_succ hn, .round hwaiting hruns⟩

/-- A search from some roots takes no more nodes than there are, and marks those of `from?`. -/
theorem runs_start (neighbours : Array (List Nat)) (roots : List NodeId) :
    ∃ n ≤ neighbours.size, ∃ last, Runs neighbours n (start neighbours roots) last ∧
      last.met = from? neighbours roots := by
  obtain ⟨n, hn, hruns⟩ := runs_rounds neighbours
    (Nat.le_of_eq (explores_roots neighbours roots).2)
  exact ⟨n, hn, _, hruns, rfl⟩

end Ending

end Search

namespace Reachability

open Search

/-- The marks tell which nodes and edges lie on a path with one of the roots. -/
structure Tells (r : Reachability) (w : Wiring) (roots : List NodeId) : Prop where
  node : ∀ n, r.node n = true ↔
    ∃ root ∈ roots, ReflTransGen w.Feeds root n ∨ ReflTransGen w.Feeds n root
  edge : ∀ e, r.edge e = true ↔ ∃ edge, w.edge? e = some edge ∧ ∃ root ∈ roots,
    ReflTransGen w.Feeds root edge.output.node ∨ ReflTransGen w.Feeds edge.input.node root
  /-- Both ends of a marked edge are marked. -/
  ends : ∀ e edge, w.edge? e = some edge → r.edge e = true →
    ∀ side, r.node (edge.port side).node = true
  /-- The search along the edges stops, and its marks are the forward ones. -/
  forward : ∃ n ≤ w.slots.size, ∃ last,
    Runs (successors w) n (start (successors w) roots) last ∧ last.met = r.forward
  /-- The search against the edges stops, and its marks are the backward ones. -/
  backward : ∃ n ≤ w.slots.size, ∃ last,
    Runs (predecessors w) n (start (predecessors w) roots) last ∧ last.met = r.backward

section

variable {w : Wiring} {roots : List NodeId}

/-- A path ends where it starts, or both ends are nodes of the wiring. -/
theorem size_of_path (hwf : w.WellFormed) {a b : NodeId} (h : ReflTransGen w.Feeds a b) :
    a = b ∨ a.index < w.slots.size ∧ b.index < w.slots.size := by
  rcases ReflTransGen.cases_head h with rfl | ⟨_, hfirst, _⟩
  · exact .inl rfl
  · rcases ReflTransGen.cases_tail h with rfl | ⟨_, _, hlast⟩
    · exact .inl rfl
    · exact .inr ⟨(size_of_feeds hwf hfirst).1, (size_of_feeds hwf hlast).2⟩

/-- No mark is set beyond the nodes. -/
theorem node_ofRoots_size {n : NodeId} (h : (ofRoots w roots).node n = true) :
    n.index < w.slots.size := by
  rw [node, Bool.or_eq_true, marked_iff, marked_iff, ofRoots, met_from?_iff, met_from?_iff] at h
  rcases h with ⟨hlt, _⟩ | ⟨hlt, _⟩
  · exact (linked_table_iff _ _).1 ▸ hlt
  · exact (linked_table_iff _ _).1 ▸ hlt

/-- No mark is set beyond the edges. -/
theorem edge_ofRoots_exists {e : EdgeId} (h : (ofRoots w roots).edge e = true) :
    ∃ edge, w.edge? e = some edge := by
  rw [edge, ofRoots, Array.getElem?_map] at h
  cases hedge : w.edges[e.index]? with
  | none =>
      rw [hedge] at h
      cases h
  | some edge => exact ⟨edge, hedge⟩

/-- What is reachable from nodes of a wiring is what lies on a path with one of them. -/
theorem tells_ofRoots (hwf : w.WellFormed) (hroots : roots ⊆ w.nodeIds) :
    (ofRoots w roots).Tells w roots := by
  have hexists : ∀ root ∈ roots, root.index < w.slots.size := fun root hroot =>
    Wiring.mem_nodeIds_iff.mp (hroots hroot)
  have hnode : ∀ n, (ofRoots w roots).node n = true ↔
      ∃ root ∈ roots, ReflTransGen w.Feeds root n ∨ ReflTransGen w.Feeds n root := by
    refine fun n => ⟨fun h => (node_ofRoots_iff hwf (node_ofRoots_size h)).mp h, fun h => ?_⟩
    have hn : n.index < w.slots.size := by
      obtain ⟨root, hroot, hdriven | hdrives⟩ := h
      · rcases size_of_path hwf hdriven with rfl | ⟨_, hlt⟩
        · exact hexists root hroot
        · exact hlt
      · rcases size_of_path hwf hdrives with rfl | ⟨hlt, _⟩
        · exact hexists n hroot
        · exact hlt
    exact (node_ofRoots_iff hwf hn).mpr h
  refine ⟨hnode, fun e => ?_, fun e edge hedge hmark side => (hnode _).mpr ?_, ?_, ?_⟩
  · constructor
    · intro h
      obtain ⟨edge, hedge⟩ := edge_ofRoots_exists h
      exact ⟨edge, hedge, (edge_ofRoots_iff hwf hedge).mp h⟩
    · rintro ⟨edge, hedge, h⟩
      exact (edge_ofRoots_iff hwf hedge).mpr h
  · -- The edge itself is the last step of the one path, or the first of the other.
    have hfeeds : w.Feeds edge.output.node edge.input.node := ⟨e, edge, hedge, rfl, rfl⟩
    obtain ⟨root, hroot, hdriven | hdrives⟩ := (edge_ofRoots_iff hwf hedge).mp hmark
    · cases side with
      | input => exact ⟨root, hroot, .inl (hdriven.tail hfeeds)⟩
      | output => exact ⟨root, hroot, .inl hdriven⟩
    · cases side with
      | input => exact ⟨root, hroot, .inr hdrives⟩
      | output => exact ⟨root, hroot, .inr (hdrives.head hfeeds)⟩
  · have hsize : (successors w).size = w.slots.size := (linked_table_iff _ _).1
    exact hsize ▸ runs_start (successors w) roots
  · have hsize : (predecessors w).size = w.slots.size := (linked_table_iff _ _).1
    exact hsize ▸ runs_start (predecessors w) roots

end

end Reachability

namespace Graph

/-- In every graph that requests lead to, and whichever of its nodes are the roots, reachability
tells which nodes and edges lie on a path with a root. -/
theorem reachability_tells_paths {g : Graph} (hg : g.Reachable) :
    g.reachability.Tells g.wiring g.roots ∧
      ∀ roots ⊆ g.wiring.nodeIds, (Reachability.ofRoots g.wiring roots).Tells g.wiring roots := by
  have hwf : g.wiring.WellFormed := hg.sound.wellFormed
  have hroots : g.roots ⊆ g.wiring.nodeIds := fun _ => roots_subset
  exact ⟨Reachability.tells_ofRoots hwf hroots, fun _ => Reachability.tells_ofRoots hwf⟩

/-- Two edges side by side from a source to a sink, and two rings, in one of which a node was
declared a root. -/
def rings : Graph :=
  let bus : Protocol := ⟨⟨"bus", .empty, .empty⟩, .policy .intersect, .absent, .absent⟩
  after {} [.build (.addNode (.source "cpu" bus .star .empty)),
    .build (.addNode (.sink "ram" bus .star .empty)),
    .build (.addNode (.identity "left" bus)), .build (.addNode (.identity "right" bus)),
    .build (.addNode (.identity "upper" bus)), .build (.addNode (.identity "lower" bus)),
    .build (.bind (NodeId.output ⟨0⟩ 0) (NodeId.input ⟨1⟩ 0)),
    .build (.bind (NodeId.output ⟨0⟩ 0) (NodeId.input ⟨1⟩ 0)),
    .build (.bind (NodeId.output ⟨2⟩ 0) (NodeId.input ⟨3⟩ 0)),
    .build (.bind (NodeId.output ⟨3⟩ 0) (NodeId.input ⟨2⟩ 0)),
    .build (.bind (NodeId.output ⟨4⟩ 0) (NodeId.input ⟨5⟩ 0)),
    .build (.bind (NodeId.output ⟨5⟩ 0) (NodeId.input ⟨4⟩ 0)),
    .build (.markRoot ⟨3⟩)]

/-- The two edges side by side and the ring with the root are reachable; no path leads from a root
into the other ring, or out of it to a root. -/
theorem rings_tell_paths :
    rings.Reachable ∧ rings.roots = [⟨0⟩, ⟨3⟩] ∧
      rings.wiring.edgeIds.filter rings.reachability.edge = [⟨0⟩, ⟨1⟩, ⟨2⟩, ⟨3⟩] ∧
      rings.reachability.Tells rings.wiring rings.roots ∧
      ∀ root ∈ rings.roots, ¬ ReflTransGen rings.wiring.Feeds root ⟨5⟩ ∧
        ¬ ReflTransGen rings.wiring.Feeds ⟨5⟩ root := by
  have hreachable : rings.Reachable := reachable_after _ _
  have htells := (reachability_tells_paths hreachable).1
  have hunmarked : rings.reachability.node ⟨5⟩ = false := by decide
  refine ⟨hreachable, by decide, by decide +kernel, htells, fun root hroot =>
    not_or.mp fun hpath => ?_⟩
  have hmarked := (htells.node ⟨5⟩).mpr ⟨root, hroot, hpath⟩
  rw [hunmarked] at hmarked
  cases hmarked

end Graph

end Negotiation
