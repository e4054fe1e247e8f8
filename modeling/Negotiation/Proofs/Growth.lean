import Negotiation.Graph.Building

/-!
How building changes a wiring.

A wiring is read through its nodes (`Wiring.node?`), its edges (`Wiring.edge?`) and the edges at its
ports (`Wiring.portEdges`).  Building adds one node or one edge at a time (`Graph.Grows`), so
nothing that is there is ever changed, and the lists at the ports stay in step with the edges
(`Wiring.WellFormed`).
-/

namespace Negotiation

theorem MergeRule.agrees_refl (r : MergeRule) : r.agrees r = true := by
  cases r <;> simp [agrees]

theorem MergeRule.agrees_symm {r s : MergeRule} (h : r.agrees s = true) : s.agrees r = true := by
  cases r <;> cases s <;> simp_all [agrees]

/-- Protocols between whose ports an edge may run. -/
structure Protocol.Agrees (p q : Protocol) : Prop where
  signature : p.signature = q.signature
  merge : p.merge.agrees q.merge = true
  downFallback : p.downFallback = q.downFallback
  upFallback : p.upFallback = q.upFallback

namespace Protocol.Agrees

variable {p q : Protocol}

theorem refl (p : Protocol) : p.Agrees p :=
  ⟨rfl, p.merge.agrees_refl, rfl, rfl⟩

theorem symm (h : p.Agrees q) : q.Agrees p :=
  ⟨h.signature.symm, MergeRule.agrees_symm h.merge, h.downFallback.symm, h.upFallback.symm⟩

theorem of_settlesLike (hcompatible : p.isCompatible q = true) (hsettles : p.settlesLike q = true) :
    p.Agrees q := by
  simp only [isCompatible, decide_eq_true_eq] at hcompatible
  simp only [settlesLike, Bool.and_eq_true, decide_eq_true_eq] at hsettles
  exact ⟨hcompatible, hsettles.1.1, hsettles.1.2, hsettles.2⟩

end Protocol.Agrees

namespace Slot

theorem edges_attach (s : Slot) (side other : Side) (i : Nat) (e : EdgeId) :
    (s.attach side i e).edges other =
      if other = side then (s.edges other).modify i (· ++ [e]) else s.edges other := by
  cases side <;> cases other <;> rfl

theorem portEdges_attach (s : Slot) {side other : Side} {i j : Nat} (e : EdgeId)
    (hi : i < (s.edges side).length) :
    (s.attach side i e).portEdges other j =
      if other = side ∧ j = i then s.portEdges other j ++ [e] else s.portEdges other j := by
  rw [portEdges, edges_attach]
  by_cases hside : other = side
  · subst hside
    rw [if_pos rfl, List.getElem?_modify]
    by_cases hj : j = i
    · subst hj
      simp [portEdges, hi]
    · simp [portEdges, hj, Ne.symm hj]
  · simp [portEdges, hside]

theorem node_attach (s : Slot) (side : Side) (i : Nat) (e : EdgeId) :
    (s.attach side i e).node = s.node := by
  cases side <;> rfl

theorem portEdges_ofNode (node : Node) (side : Side) (i : Nat) :
    (ofNode node).portEdges side i = [] := by
  have hblank : ∀ ports : List PortSpec, (ports.map fun _ => ([] : List EdgeId))[i]?.getD [] = [] := by
    intro ports
    rw [List.getElem?_map]
    cases ports[i]? <;> rfl
  cases side with
  | input => exact hblank (node.sidePorts .input)
  | output => exact hblank (node.sidePorts .output)

end Slot

namespace Wiring

/-- The node of a number, without its edges. -/
def node? (w : Wiring) (n : NodeId) : Option Node :=
  (w.slot? n).map Slot.node

def spec? (w : Wiring) (port : Port) : Option PortSpec :=
  (w.node? port.node).bind fun node => (node.sidePorts port.side)[port.index]?

def portEdges (w : Wiring) (port : Port) : List EdgeId :=
  (w.slot? port.node).elim [] fun slot => slot.portEdges port.side port.index

theorem connectionCount_eq (w : Wiring) (port : Port) :
    w.connectionCount port = (w.portEdges port).length := by
  rw [connectionCount, portEdges]
  cases w.slot? port.node <;> rfl

theorem node?_eq_some {w : Wiring} {n : NodeId} {node : Node} :
    w.node? n = some node ↔ ∃ slot, w.slot? n = some slot ∧ slot.node = node :=
  Option.map_eq_some_iff

/-- The port faces the side, and its protocol agrees with this one. -/
def Faces (w : Wiring) (port : Port) (side : Side) (protocol : Protocol) : Prop :=
  port.side = side ∧ ∃ spec, w.spec? port = some spec ∧ spec.protocol.Agrees protocol

/-- The port takes one more edge. -/
def HasRoom (w : Wiring) (port : Port) : Prop :=
  ∃ spec, w.spec? port = some spec ∧ spec.cardinality.isFull (w.connectionCount port) = false

/-- An edge may be added between the two ports. -/
structure Admits (w : Wiring) (output input : Port) (protocol : Protocol) : Prop where
  apart : output.node ≠ input.node
  output : w.Faces output .output protocol ∧ w.HasRoom output
  input : w.Faces input .input protocol ∧ w.HasRoom input

/-- The lists at the ports are in step with the edges. -/
structure WellFormed (w : Wiring) : Prop where
  /-- A node has one list for each of its ports. -/
  tabled : ∀ {n slot}, w.slot? n = some slot → ∀ side,
    (slot.edges side).length = (slot.ports side).length
  numbered : ∀ {e edge}, w.edge? e = some edge → edge.id = e
  attached : ∀ {e port}, e ∈ w.portEdges port ↔
    ∃ edge, w.edge? e = some edge ∧ (edge.output = port ∨ edge.input = port)
  joined : ∀ {e edge}, w.edge? e = some edge → edge.output.node ≠ edge.input.node ∧
    w.Faces edge.output .output edge.protocol ∧ w.Faces edge.input .input edge.protocol

/-- Everything in the first wiring is in the second, in the same place. -/
structure Extends (w v : Wiring) : Prop where
  node : ∀ {n node}, w.node? n = some node → v.node? n = some node
  edge : ∀ {e edge}, w.edge? e = some edge → v.edge? e = some edge

namespace Extends

variable {w v u : Wiring}

theorem refl (w : Wiring) : Extends w w :=
  ⟨id, id⟩

theorem trans (hwv : Extends w v) (hvu : Extends v u) : Extends w u :=
  ⟨fun h => hvu.node (hwv.node h), fun h => hvu.edge (hwv.edge h)⟩

theorem spec (h : Extends w v) {port : Port} {spec : PortSpec} (hspec : w.spec? port = some spec) :
    v.spec? port = some spec := by
  obtain ⟨node, hnode, hport⟩ := Option.bind_eq_some_iff.mp hspec
  rw [spec?, h.node hnode]
  exact hport

theorem faces (h : Extends w v) {port : Port} {side : Side} {protocol : Protocol}
    (hfaces : w.Faces port side protocol) : v.Faces port side protocol := by
  obtain ⟨hside, spec, hspec, hagrees⟩ := hfaces
  exact ⟨hside, spec, h.spec hspec, hagrees⟩

end Extends

section AddSlot

variable (w : Wiring) (node : Node)

theorem slot?_addSlot (slot : Slot) (n : NodeId) :
    (w.addSlot slot).slot? n = if n = ⟨w.slots.size⟩ then some slot else w.slot? n := by
  obtain ⟨i⟩ := n
  simp only [slot?, addSlot, Array.getElem?_push, NodeId.mk.injEq]

theorem slot?_size : w.slot? ⟨w.slots.size⟩ = none :=
  Array.getElem?_eq_none (Nat.le_refl _)

/-- No edge is attached to a node that is not there yet. -/
theorem portEdges_size (side : Side) (i : Nat) : w.portEdges ⟨⟨w.slots.size⟩, side, i⟩ = [] := by
  rw [portEdges, slot?_size]
  rfl

theorem portEdges_addSlot (port : Port) :
    (w.addSlot (.ofNode node)).portEdges port = w.portEdges port := by
  rw [portEdges, portEdges, slot?_addSlot]
  split
  · rename_i hnew
    rw [hnew, slot?_size]
    exact Slot.portEdges_ofNode node port.side port.index
  · rfl

theorem node?_addSlot (n : NodeId) :
    (w.addSlot (.ofNode node)).node? n = if n = ⟨w.slots.size⟩ then some node else w.node? n := by
  rw [node?, slot?_addSlot]
  split <;> rfl

theorem extends_addSlot : Extends w (w.addSlot (.ofNode node)) := by
  refine ⟨fun {n found} hfound => ?_, id⟩
  rw [node?_addSlot, if_neg]
  · exact hfound
  · rintro rfl
    rw [node?, slot?_size] at hfound
    cases hfound

end AddSlot

theorem WellFormed.addSlot {w : Wiring} (h : w.WellFormed) (node : Node) :
    (w.addSlot (.ofNode node)).WellFormed := by
  refine ⟨fun {n slot} hslot side => ?_, fun hedge => h.numbered hedge, fun {e port} => ?_,
    fun hedge => ?_⟩
  · rw [slot?_addSlot] at hslot
    split at hslot
    · cases hslot
      cases side <;> simp [Slot.ofNode, Slot.edges, Slot.ports]
    · exact h.tabled hslot side
  · rw [portEdges_addSlot]
    exact h.attached
  · obtain ⟨hapart, houtput, hinput⟩ := h.joined hedge
    exact ⟨hapart, (w.extends_addSlot node).faces houtput, (w.extends_addSlot node).faces hinput⟩

section Attach

variable {w : Wiring}

theorem slot?_attach (w : Wiring) (place : Port) (e : EdgeId) (n : NodeId) :
    (w.attach place e).slot? n =
      (w.slot? n).map fun slot =>
        if n = place.node then slot.attach place.side place.index e else slot := by
  obtain ⟨⟨i⟩, side, index⟩ := place
  obtain ⟨j⟩ := n
  simp only [slot?, attach, Array.getElem?_modify, NodeId.mk.injEq]
  by_cases hij : i = j
  · simp [hij]
  · simp [hij, Ne.symm hij]

theorem node?_attach (w : Wiring) (place : Port) (e : EdgeId) (n : NodeId) :
    (w.attach place e).node? n = w.node? n := by
  rw [node?, slot?_attach, node?, Option.map_map]
  congr 1
  funext slot
  simp only [Function.comp_apply]
  split
  · exact slot.node_attach _ _ _
  · rfl

theorem tabled_attach
    (h : ∀ {n slot}, w.slot? n = some slot → ∀ side, (slot.edges side).length = (slot.ports side).length)
    (place : Port) (e : EdgeId) {n : NodeId} {slot : Slot}
    (hslot : (w.attach place e).slot? n = some slot) (side : Side) :
    (slot.edges side).length = (slot.ports side).length := by
  rw [slot?_attach] at hslot
  obtain ⟨old, hold, rfl⟩ := Option.map_eq_some_iff.mp hslot
  split
  · rw [Slot.edges_attach]
    rw [Slot.ports, Slot.node_attach]
    split
    · rw [List.length_modify]
      exact h hold side
    · exact h hold side
  · exact h hold side

theorem portEdges_attach
    (h : ∀ {n slot}, w.slot? n = some slot → ∀ side, (slot.edges side).length = (slot.ports side).length)
    {place : Port} (hplace : (w.spec? place).isSome = true) (e : EdgeId) (port : Port) :
    (w.attach place e).portEdges port =
      if port = place then w.portEdges port ++ [e] else w.portEdges port := by
  rw [portEdges, slot?_attach, portEdges]
  cases hslot : w.slot? port.node with
  | none =>
      rw [if_neg]
      · rfl
      · rintro rfl
        rw [spec?, node?, hslot] at hplace
        cases hplace
  | some slot =>
      simp only [Option.map_some, Option.elim_some]
      by_cases hnode : port.node = place.node
      · have hindex : place.index < (slot.edges place.side).length := by
          rw [h hslot place.side]
          rw [spec?, node?, ← hnode, hslot] at hplace
          obtain ⟨spec, hspec⟩ := Option.isSome_iff_exists.mp hplace
          exact (List.getElem?_eq_some_iff.mp hspec).1
        rw [if_pos hnode, Slot.portEdges_attach _ _ hindex]
        obtain ⟨n, side, index⟩ := port
        obtain ⟨m, side', index'⟩ := place
        obtain rfl : n = m := hnode
        simp
      · rw [if_neg hnode, if_neg]
        rintro rfl
        exact hnode rfl

end Attach

section AddEdge

variable {w : Wiring} {edge : Edge}

theorem node?_addEdge (w : Wiring) (edge : Edge) (n : NodeId) :
    (w.addEdge edge).node? n = w.node? n :=
  (node?_attach _ _ _ n).trans (node?_attach w _ _ n)

theorem edge?_addEdge (w : Wiring) (edge : Edge) (e : EdgeId) :
    (w.addEdge edge).edge? e = if e = ⟨w.edges.size⟩ then some edge else w.edge? e := by
  obtain ⟨i⟩ := e
  simp only [edge?, addEdge, attach, Array.getElem?_push, EdgeId.mk.injEq]

theorem edge?_size (w : Wiring) : w.edge? ⟨w.edges.size⟩ = none :=
  Array.getElem?_eq_none (Nat.le_refl _)

theorem extends_addEdge (w : Wiring) (edge : Edge) : Extends w (w.addEdge edge) := by
  refine ⟨fun {n node} hnode => (node?_addEdge w edge n).trans hnode, fun {e found} hfound => ?_⟩
  rw [edge?_addEdge, if_neg]
  · exact hfound
  · rintro rfl
    rw [edge?_size] at hfound
    cases hfound

theorem Faces.isSome {port : Port} {side : Side} {protocol : Protocol}
    (h : w.Faces port side protocol) : (w.spec? port).isSome = true := by
  obtain ⟨_, spec, hspec, _⟩ := h
  rw [hspec]
  rfl

theorem portEdges_addEdge (h : w.WellFormed)
    (hadmits : w.Admits edge.output edge.input edge.protocol) (port : Port) :
    (w.addEdge edge).portEdges port =
      if edge.output = port ∨ edge.input = port then w.portEdges port ++ [edge.id]
      else w.portEdges port := by
  have hinput : ((w.attach edge.output edge.id).spec? edge.input).isSome = true := by
    rw [spec?, node?_attach]
    exact hadmits.input.1.isSome
  have hboth := portEdges_attach (tabled_attach h.tabled edge.output edge.id) hinput edge.id port
  have houtput := portEdges_attach h.tabled hadmits.output.1.isSome edge.id port
  have hapart : edge.output ≠ edge.input := fun heq => hadmits.apart (congrArg Port.node heq)
  refine hboth.trans ?_
  rw [houtput]
  by_cases hport : port = edge.input
  · subst hport
    simp [Ne.symm hapart]
  · by_cases hport' : port = edge.output
    · subst hport'
      simp [hport]
    · simp [hport, hport', Ne.symm hport, Ne.symm hport']

theorem WellFormed.addEdge (h : w.WellFormed) (hid : edge.id = ⟨w.edges.size⟩)
    (hadmits : w.Admits edge.output edge.input edge.protocol) : (w.addEdge edge).WellFormed := by
  have hextends := w.extends_addEdge edge
  refine ⟨fun hslot => tabled_attach (tabled_attach h.tabled _ _) _ _ hslot, fun {e found} hfound => ?_,
    fun {e port} => ?_, fun {e found} hfound => ?_⟩
  · rw [edge?_addEdge] at hfound
    split at hfound
    · rename_i hnew
      cases hfound
      rw [hid, hnew]
    · exact h.numbered hfound
  · rw [portEdges_addEdge h hadmits, edge?_addEdge, ← hid]
    by_cases hnew : e = edge.id
    · have hold : e ∉ w.portEdges port := by
        rw [h.attached]
        rintro ⟨found, hfound, _⟩
        rw [hnew, hid, edge?_size] at hfound
        cases hfound
      subst hnew
      by_cases hmeets : edge.output = port ∨ edge.input = port
      · simp [hmeets]
      · simp [hmeets, hold]
    · rw [if_neg hnew, ← h.attached]
      split <;> simp [hnew]
  · rw [edge?_addEdge] at hfound
    split at hfound
    · cases hfound
      exact ⟨hadmits.apart, hextends.faces hadmits.output.1, hextends.faces hadmits.input.1⟩
    · obtain ⟨hapart, houtput, hinput⟩ := h.joined hfound
      exact ⟨hapart, hextends.faces houtput, hextends.faces hinput⟩

end AddEdge

section WellFormed

variable {w : Wiring} {n : NodeId} {slot : Slot} {e : EdgeId}

theorem mem_flatten_edges (hslot : w.slot? n = some slot) (side : Side) :
    e ∈ (slot.edges side).flatten ↔ ∃ i, e ∈ w.portEdges ⟨n, side, i⟩ := by
  simp only [portEdges, hslot, Option.elim_some, Slot.portEdges, List.mem_flatten]
  constructor
  · rintro ⟨edges, hedges, he⟩
    obtain ⟨i, hi, rfl⟩ := List.mem_iff_getElem.mp hedges
    exact ⟨i, by simpa [hi] using he⟩
  · rintro ⟨i, he⟩
    cases hi : (slot.edges side)[i]? with
    | none => simp [hi] at he
    | some edges => exact ⟨edges, List.mem_of_getElem? hi, by simpa [hi] using he⟩

/-- The edges that arrive at a node. -/
theorem WellFormed.mem_inward (h : w.WellFormed) (hslot : w.slot? n = some slot) :
    e ∈ slot.inward ↔ ∃ edge, w.edge? e = some edge ∧ edge.input.node = n := by
  refine (mem_flatten_edges hslot .input).trans ⟨?_, ?_⟩
  · rintro ⟨i, he⟩
    obtain ⟨edge, hedge, hport | hport⟩ := h.attached.mp he
    · have hside := (h.joined hedge).2.1.1
      rw [hport] at hside
      cases hside
    · exact ⟨edge, hedge, by rw [hport]⟩
  · rintro ⟨edge, hedge, rfl⟩
    have hside := (h.joined hedge).2.2.1
    refine ⟨edge.input.index, h.attached.mpr ⟨edge, hedge, Or.inr ?_⟩⟩
    rw [← hside]

/-- The edges that leave a node. -/
theorem WellFormed.mem_outward (h : w.WellFormed) (hslot : w.slot? n = some slot) :
    e ∈ slot.outward ↔ ∃ edge, w.edge? e = some edge ∧ edge.output.node = n := by
  refine (mem_flatten_edges hslot .output).trans ⟨?_, ?_⟩
  · rintro ⟨i, he⟩
    obtain ⟨edge, hedge, hport | hport⟩ := h.attached.mp he
    · exact ⟨edge, hedge, by rw [hport]⟩
    · have hside := (h.joined hedge).2.2.1
      rw [hport] at hside
      cases hside
  · rintro ⟨edge, hedge, rfl⟩
    have hside := (h.joined hedge).2.1.1
    refine ⟨edge.output.index, h.attached.mpr ⟨edge, hedge, Or.inl ?_⟩⟩
    rw [← hside]

end WellFormed

theorem wellFormed_empty : empty.WellFormed := by
  have hslot : ∀ n, empty.slot? n = none := fun n => Array.getElem?_eq_none (Nat.zero_le _)
  have hedge : ∀ e, empty.edge? e = none := fun e => Array.getElem?_eq_none (Nat.zero_le _)
  refine ⟨fun {n slot} h => ?_, fun {e edge} h => ?_, fun {e port} => ?_, fun {e edge} h => ?_⟩
  · rw [hslot] at h
    cases h
  · rw [hedge] at h
    cases h
  · rw [portEdges, hslot, hedge]
    simp
  · rw [hedge] at h
    cases h

end Wiring

end Negotiation
