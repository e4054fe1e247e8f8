import Negotiation.Proofs.Circulation
import Negotiation.Reachability

/-!
What a search meets.

Every round of a search takes one node that waits and meets its neighbours, and a node waits
once.  So there are enough rounds, and the nodes that are met are those to which a path leads from
a root (`Search.met_from?_iff`).  On a wiring, a node is reachable if and only if the edges lead to
it from a root or from it to a root (`Reachability.node_ofRoots_iff`), and an edge is reachable if
and only if a root drives the node that it leaves or the node that it arrives at drives a root
(`Reachability.edge_ofRoots_iff`).
-/

namespace Negotiation

open Relation

namespace Search

/-- The node was met. -/
def Met (s : Search) (n : Nat) : Prop :=
  s.met[n]? = some true

/-- A list of neighbours leads from the first node to the second. -/
def Linked (neighbours : Array (List Nat)) (m n : Nat) : Prop :=
  ∃ next, neighbours[m]? = some next ∧ n ∈ next

/-- How many rounds are left: one for every node that waits or was not met. -/
def budget (s : Search) : Nat :=
  s.met.toList.count false + s.waiting.length

section Meet

variable (s : Search) (node : Nat)

theorem met_cases (n : Nat) (h : n < s.met.size) : s.Met n ∨ s.met[n]? = some false := by
  rw [Met, Array.getElem?_eq_getElem h]
  cases s.met[n] with
  | true => exact .inl rfl
  | false => exact .inr rfl

theorem size_meet : (s.meet node).met.size = s.met.size := by
  rw [meet]
  split
  · exact Array.size_setIfInBounds ..
  · rfl

theorem met_meet_iff {n : Nat} : (s.meet node).Met n ↔ s.Met n ∨ n = node ∧ n < s.met.size := by
  rw [meet]
  split
  · rename_i hfresh
    have hsize : node < s.met.size := (Array.getElem?_eq_some_iff.mp hfresh).1
    rw [Met, Array.getElem?_setIfInBounds]
    by_cases hsame : node = n
    · subst hsame
      simp [hsize]
    · simp [Met, hsame, Ne.symm hsame]
  · rename_i hknown
    refine ⟨.inl, fun h => h.elim id fun ⟨hsame, hsize⟩ => ?_⟩
    subst hsame
    exact (s.met_cases n hsize).resolve_right hknown

theorem mem_waiting_meet_iff {n : Nat} :
    n ∈ (s.meet node).waiting ↔ n ∈ s.waiting ∨ (s.meet node).Met n ∧ ¬ s.Met n := by
  rw [met_meet_iff, meet]
  split
  · rename_i hfresh
    have hsize : node < s.met.size := (Array.getElem?_eq_some_iff.mp hfresh).1
    have hnew : ¬ s.Met node := by
      rw [Met, hfresh]
      exact nofun
    rw [List.mem_cons]
    constructor
    · rintro (rfl | hmem)
      · exact .inr ⟨.inr ⟨rfl, hsize⟩, hnew⟩
      · exact .inl hmem
    · rintro (hmem | ⟨hmet | ⟨rfl, _⟩, hunmet⟩)
      · exact .inr hmem
      · exact absurd hmet hunmet
      · exact .inl rfl
  · rename_i hknown
    refine ⟨.inl, fun h => h.elim id fun ⟨hmet, hunmet⟩ => ?_⟩
    rcases hmet with hmet | ⟨rfl, hsize⟩
    · exact absurd hmet hunmet
    · exact absurd (s.met_cases n hsize) (not_or.mpr ⟨hunmet, hknown⟩)

theorem budget_meet : (s.meet node).budget = s.budget := by
  rw [meet]
  split
  · rename_i hfresh
    obtain ⟨hsize, hfalse⟩ := Array.getElem?_eq_some_iff.mp hfresh
    have hmem : false ∈ s.met.toList := by
      rw [Array.mem_toList_iff]
      exact hfalse ▸ Array.getElem_mem hsize
    have hpos := List.count_pos_iff.mpr hmem
    have hcount : (s.met.toList.set node true).count false = s.met.toList.count false - 1 := by
      rw [List.count_set (by simpa using hsize), Array.getElem_toList, hfalse]
      rfl
    simp only [budget, Array.toList_setIfInBounds, List.length_cons, hcount]
    omega
  · rfl

end Meet

section MeetAll

variable (nodes : List Nat) (s : Search)

/-- The search after it has met some nodes. -/
theorem foldl_meet_spec :
    (nodes.foldl meet s).met.size = s.met.size ∧
      (∀ n, (nodes.foldl meet s).Met n ↔ s.Met n ∨ n ∈ nodes ∧ n < s.met.size) ∧
      (∀ n, n ∈ (nodes.foldl meet s).waiting ↔
        n ∈ s.waiting ∨ (nodes.foldl meet s).Met n ∧ ¬ s.Met n) ∧
      (nodes.foldl meet s).budget = s.budget := by
  induction nodes generalizing s with
  | nil => simp
  | cons node rest ih =>
      obtain ⟨hsize, hmet, hwaiting, hbudget⟩ := ih (s.meet node)
      rw [size_meet] at hsize hmet
      rw [List.foldl_cons]
      refine ⟨hsize, fun n => ?_, fun n => ?_, hbudget.trans (s.budget_meet node)⟩
      · rw [hmet, met_meet_iff, List.mem_cons]
        grind
      · rw [hwaiting, mem_waiting_meet_iff]
        have hkept : s.Met n → (s.meet node).Met n := fun h => (s.met_meet_iff node).mpr (.inl h)
        have hkept' : (s.meet node).Met n → (rest.foldl meet (s.meet node)).Met n := fun h =>
          (hmet n).mpr (.inl h)
        grind

end MeetAll

/-- What holds of a search from some roots after every round. -/
structure Explores (neighbours : Array (List Nat)) (roots : List NodeId) (s : Search) : Prop where
  size : s.met.size = neighbours.size
  started : ∀ root ∈ roots, root.index < neighbours.size → s.Met root.index
  waiting : ∀ n ∈ s.waiting, s.Met n
  expanded : ∀ m, s.Met m → m ∈ s.waiting ∨
    ∀ n, Linked neighbours m n → n < neighbours.size → s.Met n
  reached : ∀ n, s.Met n → ∃ root ∈ roots, ReflTransGen (Linked neighbours) root.index n

namespace Explores

variable {neighbours : Array (List Nat)} {roots : List NodeId} {s : Search}

/-- The neighbours of a node that waits are met in one round. -/
theorem advance (h : Explores neighbours roots s) {node : Nat} {rest : List Nat}
    (hwaiting : s.waiting = node :: rest) :
    Explores neighbours roots (s.advance neighbours) ∧
      (s.advance neighbours).budget + 1 = s.budget := by
  have hnode : s.Met node := h.waiting node (hwaiting ▸ List.mem_cons_self)
  have hlinked : ∀ n, n ∈ neighbours[node]?.getD [] ↔ Linked neighbours node n := by
    intro n
    rw [Linked]
    cases neighbours[node]? <;> simp
  have hadvance : s.advance neighbours =
      (neighbours[node]?.getD []).foldl meet { s with waiting := rest } := by
    rw [Search.advance, hwaiting]
  obtain ⟨hsize, hmet, hwait, hbudget⟩ :=
    foldl_meet_spec (neighbours[node]?.getD []) { s with waiting := rest }
  rw [← hadvance] at hsize hmet hwait hbudget
  generalize s.advance neighbours = t at hsize hmet hwait hbudget ⊢
  simp only [hlinked] at hmet
  have hkept : ∀ n, s.Met n → t.Met n := fun n hn => (hmet n).mpr (.inl hn)
  refine ⟨⟨hsize.trans h.size, fun root hroot hlt => hkept _ (h.started root hroot hlt),
    fun n hn => ?_, fun m hm => ?_, fun n hn => ?_⟩, ?_⟩
  · rcases (hwait n).mp hn with hrest | ⟨hnew, _⟩
    · exact hkept n (h.waiting n (hwaiting ▸ List.mem_cons_of_mem _ hrest))
    · exact hnew
  · by_cases hold : s.Met m
    · rcases h.expanded m hold with hwaits | hall
      · rw [hwaiting, List.mem_cons] at hwaits
        rcases hwaits with rfl | hrest
        · exact .inr fun n hn hlt => (hmet n).mpr (.inr ⟨hn, h.size ▸ hlt⟩)
        · exact .inl ((hwait m).mpr (.inl hrest))
      · exact .inr fun n hn hlt => hkept n (hall n hn hlt)
    · exact .inl ((hwait m).mpr (.inr ⟨hm, hold⟩))
  · rcases (hmet n).mp hn with hold | ⟨hlink, _⟩
    · exact h.reached n hold
    · obtain ⟨root, hroot, hpath⟩ := h.reached node hnode
      exact ⟨root, hroot, hpath.tail hlink⟩
  · rw [hbudget, budget, budget, hwaiting]
    rfl

/-- With enough rounds, no node is left waiting. -/
theorem rounds {n : Nat} (h : Explores neighbours roots s) (hbudget : s.budget ≤ n) :
    Explores neighbours roots (rounds neighbours n s) ∧ (rounds neighbours n s).waiting = [] := by
  induction n generalizing s with
  | zero =>
      refine ⟨h, List.eq_nil_of_length_eq_zero ?_⟩
      have hzero := Nat.le_zero.mp hbudget
      exact (Nat.add_eq_zero_iff.mp hzero).2
  | succ n ih =>
      rw [Search.rounds]
      split
      · rename_i hwaiting
        exact ⟨h, hwaiting⟩
      · rename_i hwaiting
        obtain ⟨node, rest, hcons⟩ := List.exists_cons_of_ne_nil hwaiting
        obtain ⟨hnext, hless⟩ := h.advance hcons
        exact ih hnext (by omega)

/-- Every node to which a path leads from a root is met, once none waits. -/
theorem met_of_path (h : Explores neighbours roots s) (hwaiting : s.waiting = []) {root : NodeId}
    (hroot : root ∈ roots) {n : Nat} (hpath : ReflTransGen (Linked neighbours) root.index n)
    (hlt : n < neighbours.size) : s.Met n := by
  induction hpath with
  | refl => exact h.started root hroot hlt
  | tail _ hlink ih =>
      obtain ⟨next, hnext, _⟩ := id hlink
      rcases h.expanded _ (ih (Array.getElem?_eq_some_iff.mp hnext).1) with hwaits | hall
      · rw [hwaiting] at hwaits
        cases hwaits
      · exact hall _ hlink hlt

end Explores

/-- The search before it has met anything. -/
def blank (neighbours : Array (List Nat)) : Search :=
  ⟨.replicate neighbours.size false, []⟩

theorem explores_roots (neighbours : Array (List Nat)) (roots : List NodeId) :
    Explores neighbours roots (roots.foldl (fun s root => s.meet root.index) (blank neighbours)) ∧
      (roots.foldl (fun s root => s.meet root.index) (blank neighbours)).budget =
        neighbours.size := by
  have hblank : ∀ n, ¬ (blank neighbours).Met n := by
    intro n hn
    rw [Met, blank, Array.getElem?_replicate] at hn
    split at hn <;> cases hn
  have hlength : (blank neighbours).met.size = neighbours.size := Array.size_replicate
  obtain ⟨hsize, hmet, hwaiting, hbudget⟩ :=
    foldl_meet_spec (roots.map NodeId.index) (blank neighbours)
  rw [List.foldl_map] at hsize hmet hwaiting hbudget
  generalize roots.foldl _ _ = s at hsize hmet hwaiting hbudget ⊢
  simp only [hblank, false_or, hlength, List.mem_map] at hmet hsize
  have hall : ∀ n, s.Met n → n ∈ s.waiting := fun n hn => (hwaiting n).mpr (.inr ⟨hn, hblank n⟩)
  refine ⟨⟨hsize, fun root hroot hlt => (hmet _).mpr ⟨⟨root, hroot, rfl⟩, hlt⟩, fun n hn => ?_,
    fun m hm => .inl (hall m hm), fun n hn => ?_⟩, ?_⟩
  · rcases (hwaiting n).mp hn with hnone | ⟨hn, _⟩
    · cases hnone
    · exact hn
  · obtain ⟨⟨root, hroot, rfl⟩, _⟩ := (hmet n).mp hn
    exact ⟨root, hroot, .refl⟩
  · rw [hbudget]
    simp [budget, blank]

/-- A search meets the nodes to which a path leads from a root. -/
theorem met_from?_iff {neighbours : Array (List Nat)} {roots : List NodeId} {n : Nat} :
    (from? neighbours roots)[n]? = some true ↔
      n < neighbours.size ∧ ∃ root ∈ roots, ReflTransGen (Linked neighbours) root.index n := by
  obtain ⟨hroots, hbudget⟩ := explores_roots neighbours roots
  obtain ⟨hdone, hwaiting⟩ := hroots.rounds (Nat.le_of_eq hbudget)
  constructor
  · intro hmet
    have hsize := (Array.getElem?_eq_some_iff.mp hmet).1
    exact ⟨hdone.size ▸ hsize, hdone.reached n hmet⟩
  · rintro ⟨hlt, root, hroot, hpath⟩
    exact hdone.met_of_path hwaiting hroot hpath hlt

end Search

namespace Reachability

open Search

section Tables

theorem linked_modify_iff {table : Array (List Nat)} {k t m n : Nat} :
    Linked (table.modify k (t :: ·)) m n ↔ Linked table m n ∨ m < table.size ∧ k = m ∧ t = n := by
  simp only [Linked, Array.getElem?_modify]
  by_cases hsame : k = m
  · subst hsame
    by_cases hlt : k < table.size
    · simp [hlt, or_comm, eq_comm]
    · simp [hlt]
  · simp [hsame]

/-- The table of what each edge leads to. -/
theorem linked_foldl_iff (key target : Edge → Nat) (edges : List Edge) (table : Array (List Nat)) :
    (edges.foldl (fun table edge => table.modify (key edge) (target edge :: ·)) table).size =
        table.size ∧
      ∀ m n, Linked
        (edges.foldl (fun table edge => table.modify (key edge) (target edge :: ·)) table) m n ↔
          Linked table m n ∨
            m < table.size ∧ ∃ edge ∈ edges, key edge = m ∧ target edge = n := by
  induction edges generalizing table with
  | nil => simp
  | cons edge rest ih =>
      obtain ⟨hsize, hlinked⟩ := ih (table.modify (key edge) (target edge :: ·))
      rw [Array.size_modify] at hsize hlinked
      rw [List.foldl_cons]
      refine ⟨hsize, fun m n => ?_⟩
      rw [hlinked, linked_modify_iff, or_assoc, ← and_or_left]
      simp only [List.exists_mem_cons_iff]

end Tables

variable {w : Wiring} {roots : List NodeId}

theorem exists_mem_edges_iff {P : Edge → Prop} :
    (∃ edge ∈ w.edges.toList, P edge) ↔ ∃ e edge, w.edge? e = some edge ∧ P edge := by
  constructor
  · rintro ⟨edge, hmem, h⟩
    obtain ⟨i, hi, rfl⟩ := List.mem_iff_getElem.mp hmem
    exact ⟨⟨i⟩, _, Array.getElem?_eq_getElem (by simpa using hi), h⟩
  · rintro ⟨e, edge, hedge, h⟩
    obtain ⟨_, rfl⟩ := Array.getElem?_eq_some_iff.mp hedge
    exact ⟨_, Array.getElem_mem_toList _, h⟩

/-- Per node that is one end of an edge, the nodes that are the other end. -/
def table (w : Wiring) (key target : Edge → NodeId) : Array (List Nat) :=
  w.edges.foldl (fun table edge => table.modify (key edge).index ((target edge).index :: ·))
    (.replicate w.slots.size [])

theorem linked_table_iff (key target : Edge → NodeId) :
    (table w key target).size = w.slots.size ∧
      ∀ a b : NodeId, Linked (table w key target) a.index b.index ↔ a.index < w.slots.size ∧
        ∃ e edge, w.edge? e = some edge ∧ key edge = a ∧ target edge = b := by
  have hblank : ∀ m n, ¬ Linked (.replicate w.slots.size []) m n := by
    rintro m n ⟨next, hnext, hn⟩
    rw [Array.getElem?_replicate] at hnext
    split at hnext
    · rw [← Option.some.inj hnext] at hn
      cases hn
    · cases hnext
  have hsame : ∀ a b : NodeId, a.index = b.index ↔ a = b := fun a b =>
    ⟨fun h => by cases a; cases b; exact congrArg NodeId.mk h, congrArg NodeId.index⟩
  rw [table, ← Array.foldl_toList]
  obtain ⟨hsize, hlinked⟩ := linked_foldl_iff (fun edge => (key edge).index)
    (fun edge => (target edge).index) w.edges.toList (.replicate w.slots.size [])
  refine ⟨hsize.trans Array.size_replicate, fun a b => ?_⟩
  simp only [hlinked, hblank, false_or, Array.size_replicate, hsame, exists_mem_edges_iff]

/-- The nodes that an edge joins exist. -/
theorem size_of_feeds (hwf : w.WellFormed) {a b : NodeId} (h : w.Feeds a b) :
    a.index < w.slots.size ∧ b.index < w.slots.size := by
  have hnode : ∀ {port side protocol}, w.Faces port side protocol →
      port.node.index < w.slots.size := by
    rintro port side protocol ⟨_, spec, hspec, _⟩
    obtain ⟨node, hnode, _⟩ := Option.bind_eq_some_iff.mp hspec
    obtain ⟨slot, hslot, _⟩ := Wiring.node?_eq_some.mp hnode
    exact (Array.getElem?_eq_some_iff.mp hslot).1
  obtain ⟨e, edge, hedge, rfl, rfl⟩ := h
  obtain ⟨_, houtput, hinput⟩ := hwf.joined hedge
  exact ⟨hnode houtput, hnode hinput⟩

theorem linked_successors_iff (hwf : w.WellFormed) {a b : NodeId} :
    Linked (successors w) a.index b.index ↔ w.Feeds a b :=
  ((linked_table_iff (·.output.node) (·.input.node)).2 a b).trans
    ⟨fun h => h.2, fun h => ⟨(size_of_feeds hwf h).1, h⟩⟩

theorem linked_predecessors_iff (hwf : w.WellFormed) {a b : NodeId} :
    Linked (predecessors w) a.index b.index ↔ w.Feeds b a := by
  refine ((linked_table_iff (·.input.node) (·.output.node)).2 a b).trans
    ⟨fun ⟨_, e, edge, hedge, hinput, houtput⟩ => ⟨e, edge, hedge, houtput, hinput⟩, fun h => ?_⟩
  obtain ⟨e, edge, hedge, houtput, hinput⟩ := id h
  exact ⟨(size_of_feeds hwf h).2, e, edge, hedge, hinput, houtput⟩

/-- Paths in a table of neighbours are paths in the relation that the table lists. -/
theorem path_iff {neighbours : Array (List Nat)} {r : NodeId → NodeId → Prop}
    (h : ∀ a b : NodeId, Linked neighbours a.index b.index ↔ r a b) {a b : NodeId} :
    ReflTransGen (Linked neighbours) a.index b.index ↔ ReflTransGen r a b :=
  ⟨fun hpath => hpath.lift NodeId.mk fun m n hlink => (h ⟨m⟩ ⟨n⟩).mp hlink,
    fun hpath => hpath.lift NodeId.index fun a b hr => (h a b).mpr hr⟩

theorem marked_iff {marks : Array Bool} {n : NodeId} :
    marked marks n = true ↔ marks[n.index]? = some true := by
  rw [marked]
  cases marks[n.index]? with
  | none => simp
  | some mark => simp

/-- The nodes that some roots drive. -/
theorem marked_forward_iff (hwf : w.WellFormed) {n : NodeId} (hn : n.index < w.slots.size) :
    marked (ofRoots w roots).forward n = true ↔ ∃ root ∈ roots, ReflTransGen w.Feeds root n := by
  have hsize : (successors w).size = w.slots.size := (linked_table_iff _ _).1
  rw [marked_iff, ofRoots, met_from?_iff, hsize, and_iff_right hn]
  simp only [path_iff fun a b => linked_successors_iff hwf]

/-- The nodes that drive some roots. -/
theorem marked_backward_iff (hwf : w.WellFormed) {n : NodeId} (hn : n.index < w.slots.size) :
    marked (ofRoots w roots).backward n = true ↔ ∃ root ∈ roots, ReflTransGen w.Feeds n root := by
  have hsize : (predecessors w).size = w.slots.size := (linked_table_iff _ _).1
  have hpath : ∀ root : NodeId, ReflTransGen (Linked (predecessors w)) root.index n.index ↔
      ReflTransGen w.Feeds n root := fun root =>
    (path_iff fun a b => linked_predecessors_iff hwf).trans reflTransGen_swap
  rw [marked_iff, ofRoots, met_from?_iff, hsize, and_iff_right hn]
  simp only [hpath]

/-- A node is reachable if edges lead to it from a root, or from it to a root. -/
theorem node_ofRoots_iff (hwf : w.WellFormed) {n : NodeId} (hn : n.index < w.slots.size) :
    (ofRoots w roots).node n = true ↔
      ∃ root ∈ roots, ReflTransGen w.Feeds root n ∨ ReflTransGen w.Feeds n root := by
  rw [node, Bool.or_eq_true, marked_forward_iff hwf hn, marked_backward_iff hwf hn]
  simp only [and_or_left, exists_or]

/-- An edge is reachable if a root drives the node that it leaves, or the node at which it arrives
drives a root. -/
theorem edge_ofRoots_iff (hwf : w.WellFormed) {e : EdgeId} {edge : Edge}
    (hedge : w.edge? e = some edge) :
    (ofRoots w roots).edge e = true ↔ ∃ root ∈ roots,
      ReflTransGen w.Feeds root edge.output.node ∨ ReflTransGen w.Feeds edge.input.node root := by
  obtain ⟨houtput, hinput⟩ := size_of_feeds hwf ⟨e, edge, hedge, rfl, rfl⟩
  have hmarks : (ofRoots w roots).edge e = (marked (ofRoots w roots).forward edge.output.node ||
      marked (ofRoots w roots).backward edge.input.node) := by
    obtain ⟨hlt, rfl⟩ := Array.getElem?_eq_some_iff.mp hedge
    rw [Reachability.edge, ofRoots, Array.getElem?_map, Array.getElem?_eq_getElem hlt]
    rfl
  rw [hmarks, Bool.or_eq_true, marked_forward_iff hwf houtput, marked_backward_iff hwf hinput]
  simp only [and_or_left, exists_or]

end Reachability

end Negotiation
