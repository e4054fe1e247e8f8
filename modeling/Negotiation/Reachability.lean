import Negotiation.Wiring

/-!
Reachability: what the roots of a wiring drive, and what drives them.

A node is reachable if a path of edges leads to it from a root, or from it to a root.  An edge is
reachable if it leaves a node that a root drives, or arrives at a node that drives a root.
-/

namespace Negotiation

/-- The state of a search: which nodes were met, and which of them still wait. -/
structure Search where
  met : Array Bool
  waiting : List Nat

namespace Search

/-- A node is met; the first time, it joins those that wait. -/
def meet (s : Search) (node : Nat) : Search :=
  if s.met[node]? = some false then ⟨s.met.setIfInBounds node true, node :: s.waiting⟩ else s

/-- The neighbours of the first node that waits are met. -/
def advance (neighbours : Array (List Nat)) (s : Search) : Search :=
  match s.waiting with
  | [] => s
  | node :: rest => (neighbours[node]?.getD []).foldl meet { s with waiting := rest }

/-- So many rounds of a search. -/
def rounds (neighbours : Array (List Nat)) : Nat → Search → Search
  | 0, s => s
  | n + 1, s =>
      match s.waiting with
      | [] => s
      | _ => rounds neighbours n (s.advance neighbours)

/-- The nodes met from some roots.  Every round takes one node that was met for the first time, so
there are no more rounds than nodes. -/
def from? (neighbours : Array (List Nat)) (roots : List NodeId) : Array Bool :=
  let blank : Search := ⟨.replicate neighbours.size false, []⟩
  (rounds neighbours neighbours.size (roots.foldl (fun s root => s.meet root.index) blank)).met

end Search

/-- Which nodes the roots drive, which nodes drive the roots, and which edges are reachable. -/
structure Reachability where
  forward : Array Bool
  backward : Array Bool
  edges : Array Bool

namespace Reachability

/-- Per node, the nodes to which its edges lead. -/
def successors (w : Wiring) : Array (List Nat) :=
  w.edges.foldl
    (fun table edge => table.modify edge.output.node.index (edge.input.node.index :: ·))
    (.replicate w.slots.size [])

/-- Per node, the nodes from which edges lead to it. -/
def predecessors (w : Wiring) : Array (List Nat) :=
  w.edges.foldl
    (fun table edge => table.modify edge.input.node.index (edge.output.node.index :: ·))
    (.replicate w.slots.size [])

def marked (marks : Array Bool) (n : NodeId) : Bool :=
  marks[n.index]?.getD false

/-- What is reachable from some roots. -/
def ofRoots (w : Wiring) (roots : List NodeId) : Reachability :=
  let forward := Search.from? (successors w) roots
  let backward := Search.from? (predecessors w) roots
  { forward, backward
    edges := w.edges.map fun edge =>
      marked forward edge.output.node || marked backward edge.input.node }

def node (r : Reachability) (n : NodeId) : Bool :=
  marked r.forward n || marked r.backward n

def edge (r : Reachability) (e : EdgeId) : Bool :=
  r.edges[e.index]?.getD false

end Reachability

end Negotiation
