import Negotiation.Proofs.Circles
import Negotiation.Proofs.GroupOutcome
import Negotiation.Proofs.Loops

/-!
Demands without fallbacks.

The functions of a negotiation have an answer for every look-up that finds nothing: a key that the
memo does not cover counts as failed, an edge that is not there adds no dependency, a value that was
not computed is a mismatch.  The functions here do the same work and have no such answers: a
look-up that finds nothing is a `Lapse`, and nothing after it happens.  On a well-formed wiring and
a settled ledger there is no lapse, whatever the nodes read: evaluation finds every value that it
reads (`Strict.evaluate_eq`), a walk finds every entry, failure and key of the pile that it looks
for (`Strict.step_eq`), and a demand comes to its end (`Strict.demand_eq`).
-/

namespace Negotiation

namespace Wiring

/-- What a node sees on the ports of one side: what it reads there, or nothing. -/
def readSide (w : Wiring) (memo : Memo) (slot : Slot) (side : Side) (direction : Direction)
    (resolved wanted : Bool) : Except Mismatch (List (List Parameter)) :=
  if wanted then w.gather memo slot side direction resolved else pure (unread slot side)

/-- Everything that a node reads to compute its values in a direction. -/
def nodeReadings (w : Wiring) (memo : Memo) (direction : Direction) (slot : Slot) :
    Except Mismatch Readings := do
  let flow := slot.node.flow
  let values ← w.readSide memo slot direction.arrival direction (flow.readsSettled direction)
    (flow.reads direction)
  let feedback ← w.readSide memo slot direction.departure direction.reverse false
    (flow.readsAgainst direction)
  return ⟨values, feedback⟩

def evaluateNode (w : Wiring) (memo : Memo) (direction : Direction) (n : NodeId) (slot : Slot) :
    Except Mismatch (List Parameter) := do
  let read ← w.nodeReadings memo direction slot
  let values ← (slot.node.emit direction read).mapError (Mismatch.ofKey (direction.key n))
  checkEmitted (direction.key n) direction values (slot.ports direction.departure)

theorem nodeReadings_down (w : Wiring) (memo : Memo) (slot : Slot) :
    w.nodeReadings memo .down slot = w.downReadings memo slot := by
  simp only [nodeReadings, readSide, downReadings, Flow.reads, Flow.readsAgainst]
  by_cases hread : slot.node.flow.downReadsInward = true <;>
    by_cases hagainst : slot.node.flow.downReadsOutwardUp = true <;>
    simp only [hread, hagainst, ↓reduceIte] <;> rfl

theorem nodeReadings_up (w : Wiring) (memo : Memo) (slot : Slot) :
    w.nodeReadings memo .up slot = w.upReadings memo slot := by
  simp only [nodeReadings, readSide, upReadings, Flow.reads, Flow.readsAgainst]
  by_cases hread : slot.node.flow.upReadsOutward = true <;>
    by_cases hagainst : slot.node.flow.upReadsInwardDown = true <;>
    simp only [hread, hagainst, ↓reduceIte] <;> rfl

theorem evaluate_node {w : Wiring} {n : NodeId} {slot : Slot} (hslot : w.slot? n = some slot)
    (memo : Memo) (direction : Direction) :
    w.evaluate memo (direction.key n) =
      (w.evaluateNode memo direction n slot).mapError fun mismatch =>
        .mismatch (mismatch.onEdge (w.locate (direction.key n))) := by
  cases direction with
  | down =>
      simp only [Direction.key, evaluate, hslot, evaluateNode, nodeReadings_down]
      rfl
  | up =>
      simp only [Direction.key, evaluate, hslot, evaluateNode, nodeReadings_up]
      rfl

end Wiring

namespace Strict

/-- A look-up that found nothing. -/
inductive Lapse where
  /-- A place outside of a table. -/
  | place (index size : Nat)
  /-- No value was emitted where the edge starts. -/
  | crossing (edge : EdgeId) (direction : Direction)
  /-- An edge whose settled parameter is read has none. -/
  | settled (edge : EdgeId)
  /-- A key that failed has no failure. -/
  | failure (key : FlowKey)
  /-- A key that is being resolved is not in the pile. -/
  | piled (key : FlowKey)
  /-- There are not enough rounds. -/
  | ending
  /-- A sealed graph has no ledger. -/
  | ledger
  /-- An edge was resolved and has no parameter. -/
  | answer (edge : EdgeId)
  /-- A reachable edge has nothing to hand out. -/
  | bound (edge : EdgeId)
deriving DecidableEq

section LookUps

variable {α : Type}

@[simp] theorem ok_bind {β : Type} (a : α) (next : α → Except Lapse β) :
    (Except.ok a >>= next) = next a :=
  rfl

/-- What a look-up finds. -/
def found (lapse : Lapse) : Option α → Except Lapse α
  | some a => .ok a
  | none => .error lapse

/-- What a table has at a place. -/
def place (table : Array α) (index : Nat) : Except Lapse α :=
  found (.place index table.size) table[index]?

theorem place_of_lt {table : Array α} {index : Nat} (h : index < table.size) :
    place table index = .ok table[index] := by
  rw [place, Array.getElem?_eq_getElem h]
  rfl

theorem place_of_eq_some {table : Array α} {index : Nat} {a : α} (h : table[index]? = some a) :
    place table index = .ok a := by
  rw [place, h]
  rfl

/-- Where every look-up finds what is there, all of them find everything that is there. -/
theorem mapM_filterMap {β : Type} {f : α → Except Lapse β} {g : α → Option β} {xs : List α}
    (h : ∀ x ∈ xs, ∃ y, g x = some y ∧ f x = .ok y) : xs.mapM f = .ok (xs.filterMap g) := by
  induction xs with
  | nil => rfl
  | cons x rest ih =>
      obtain ⟨y, hy, hfound⟩ := h x List.mem_cons_self
      have hrest := ih fun z hz => h z (List.mem_cons_of_mem _ hz)
      rw [List.mapM_cons, hfound, hrest, List.filterMap_cons_some hy]
      rfl

theorem mapM_ok {β : Type} {f : α → Except Lapse β} {g : α → β} {xs : List α}
    (h : ∀ x ∈ xs, f x = .ok (g x)) : xs.mapM f = .ok (xs.map g) := by
  rw [mapM_filterMap fun x hx => ⟨g x, rfl, h x hx⟩]
  exact congrArg Except.ok (congrFun List.filterMap_eq_map xs)

/-- What is kept by every step is kept by all of them, and they find what they look for. -/
theorem foldlM_ok {β : Type} {P : β → Prop} {f : β → α → Except Lapse β} {g : β → α → β}
    {xs : List α} (h : ∀ b, P b → ∀ x ∈ xs, f b x = .ok (g b x) ∧ P (g b x)) {b : β} (hb : P b) :
    xs.foldlM f b = .ok (xs.foldl g b) ∧ P (xs.foldl g b) := by
  induction xs generalizing b with
  | nil => exact ⟨rfl, hb⟩
  | cons x rest ih =>
      obtain ⟨hfirst, hnext⟩ := h b hb x List.mem_cons_self
      rw [List.foldlM_cons, hfirst]
      exact ih (fun c hc y hy => h c hc y (List.mem_cons_of_mem _ hy)) hnext

end LookUps

section Definitions

open Wiring

/-! ### The wiring -/

def slotAt (w : Wiring) (n : NodeId) : Except Lapse Slot :=
  place w.slots n.index

def edgeAt (w : Wiring) (e : EdgeId) : Except Lapse Edge :=
  place w.edges e.index

/-- The keys that are read from edges in a direction. -/
def reads (w : Wiring) (direction : Direction) (resolved : Bool) (edges : List EdgeId) :
    Except Lapse (List FlowKey) :=
  if resolved then return edges.map .edge
  else edges.mapM fun e => return emitter (← edgeAt w e) direction

def nodeDependencies (w : Wiring) (direction : Direction) (n : NodeId) :
    Except Lapse (List FlowKey) := do
  let slot ← slotAt w n
  let flow := slot.node.flow
  let arriving ←
    if flow.reads direction then
      reads w direction (flow.readsSettled direction) (slot.edges direction.arrival).flatten
    else pure []
  let against ←
    if flow.readsAgainst direction then
      reads w direction.reverse false (slot.edges direction.departure).flatten
    else pure []
  return arriving ++ against

def dependencies (w : Wiring) : FlowKey → Except Lapse (List FlowKey)
  | .edge e => do
      let edge ← edgeAt w e
      return [emitter edge .down, emitter edge .up]
  | .down n => nodeDependencies w .down n
  | .up n => nodeDependencies w .up n

def locate (w : Wiring) : FlowKey → Except Lapse (Option EdgeId)
  | .edge e => return some e
  | .down n => return (← slotAt w n).outward.head?
  | .up n => return (← slotAt w n).inward.head?

/-! ### The memo -/

def entryAt (memo : Memo) : FlowKey → Except Lapse Entry
  | .down n => place memo.down n.index
  | .up n => place memo.up n.index
  | .edge e => place memo.edge e.index

def failureAt (memo : Memo) (key : FlowKey) : Except Lapse ResolveError := do
  found (.failure key) (← entryAt memo key).failure?

def blocker (memo : Memo) : List FlowKey → Except Lapse (Option Blocker)
  | [] => return none
  | key :: rest => do
      match ← entryAt memo key with
      | .resolved _ => blocker memo rest
      | .unresolved => return some (.fresh key)
      | .resolving => return some (.inProgress key)
      | .failed _ => return some (.failed (← failureAt memo key))

/-! ### Evaluation -/

/-- An evaluation that may lapse, and may come to a mismatch. -/
abbrev Checked (α : Type) : Type :=
  ExceptT Mismatch (Except Lapse) α

/-- A look-up in an evaluation. -/
def look {α : Type} (result : Except Lapse α) : Checked α :=
  ExceptT.lift result

/-- An evaluation that does not lapse. -/
def plain {α : Type} (result : Except Mismatch α) : Checked α :=
  ExceptT.mk (.ok result)

def crossing (memo : Memo) (edge : Edge) (direction : Direction) : Checked Parameter := do
  let entry ← look (entryAt memo (emitter edge direction))
  let _ ← look (found (.crossing edge.id direction)
    (entry.values?.bind (·[(edge.origin direction).index]?)))
  plain (Wiring.crossing memo edge direction)

def flows (memo : Memo) (edge : Edge) : Checked (Parameter × Parameter) := do
  let down ← crossing memo edge .down
  let up ← crossing memo edge .up
  return (down, up)

def settle (memo : Memo) (edge : Edge) : Checked Parameter := do
  let (down, up) ← flows memo edge
  plain ((edge.rule.merge down up).mapError (Mismatch.ofKey (.edge edge.id)))

def readEdge (w : Wiring) (memo : Memo) (direction : Direction) (resolved : Bool) (e : EdgeId) :
    Checked Parameter :=
  if resolved then look (found (.settled e) (memo.settled? e))
  else do
    let edge ← look (edgeAt w e)
    crossing memo edge direction

def readPort (w : Wiring) (memo : Memo) (direction : Direction) (resolved : Bool)
    (port : PortSpec) : List EdgeId → Checked (List Parameter)
  | [] => return (port.protocol.fallbackValue direction).toList
  | edges => edges.mapM (readEdge w memo direction resolved)

def gather (w : Wiring) (memo : Memo) (slot : Slot) (side : Side) (direction : Direction)
    (resolved : Bool) : Checked (List (List Parameter)) :=
  ((slot.ports side).zip (slot.edges side)).mapM fun (port, edges) =>
    readPort w memo direction resolved port edges

def readSide (w : Wiring) (memo : Memo) (slot : Slot) (side : Side) (direction : Direction)
    (resolved wanted : Bool) : Checked (List (List Parameter)) :=
  if wanted then gather w memo slot side direction resolved else pure (unread slot side)

/-- Everything that a node reads to compute its values in a direction. -/
def readings (w : Wiring) (memo : Memo) (direction : Direction) (slot : Slot) :
    Checked Readings := do
  let flow := slot.node.flow
  let values ← readSide w memo slot direction.arrival direction (flow.readsSettled direction)
    (flow.reads direction)
  let feedback ← readSide w memo slot direction.departure direction.reverse false
    (flow.readsAgainst direction)
  return ⟨values, feedback⟩

def evaluateNode (w : Wiring) (memo : Memo) (direction : Direction) (n : NodeId) :
    Checked (List Parameter) := do
  let slot ← look (slotAt w n)
  let read ← readings w memo direction slot
  let values ← plain ((slot.node.emit direction read).mapError (Mismatch.ofKey (direction.key n)))
  plain (checkEmitted (direction.key n) direction values (slot.ports direction.departure))

def evaluateKey (w : Wiring) (memo : Memo) : FlowKey → Checked (List Parameter)
  | .edge e => do
      let edge ← look (edgeAt w e)
      return [← settle memo edge]
  | .down n => evaluateNode w memo .down n
  | .up n => evaluateNode w memo .up n

def evaluate (w : Wiring) (memo : Memo) (key : FlowKey) :
    Except Lapse (Except ResolveError (List Parameter)) := do
  let result ← (evaluateKey w memo key).run
  let located ← locate w key
  return result.mapError fun mismatch => .mismatch (mismatch.onEdge located)

/-! ### Walks -/

/-- No key in the pile can be resolved; each has an entry to say so. -/
def fail (walk : Walk) (error : ResolveError) : Except Lapse Arrival := do
  let _ ← walk.pile.mapM (entryAt walk.ledger.memo)
  return walk.fail error

/-- Evaluate the key on top of the pile; what comes of it has a place in the memo. -/
def evaluateTop (w : Wiring) (trace : Bool) (key : FlowKey) (below : List FlowKey) (walk : Walk) :
    Except Lapse (Walk ⊕ Arrival) := do
  match ← evaluate w walk.ledger.memo key with
  | .ok _ =>
      let _ ← entryAt walk.ledger.memo key
      return walk.evaluate w trace key below
  | .error error =>
      let _ ← fail walk error
      return walk.evaluate w trace key below

def step (w : Wiring) (trace : Bool) (walk : Walk) : Except Lapse (Walk ⊕ Arrival) :=
  match walk.pile with
  | [] => return .inr ⟨.ok (), walk.ledger, walk.events⟩
  | key :: below => do
      match ← blocker walk.ledger.memo (← dependencies w key) with
      | some (.fresh dependency) =>
          let _ ← entryAt walk.ledger.memo dependency
          return .inl (walk.push dependency)
      | some (.inProgress dependency) =>
          let _ ← found (.piled dependency) (walk.pile.idxOf? dependency)
          return .inr (← fail walk (.cycle (Walk.circle walk.pile dependency)))
      | some (.failed error) => return .inr (← fail walk error)
      | none => evaluateTop w trace key below walk

def run (w : Wiring) (trace : Bool) : Nat → Walk → Except Lapse (Walk ⊕ Arrival)
  | 0, walk => return .inl walk
  | n + 1, walk => do
      match ← step w trace walk with
      | .inl next => run w trace n next
      | .inr arrival => return .inr arrival

def demand (w : Wiring) (trace : Bool) (ledger : Ledger) (key : FlowKey) :
    Except Lapse Arrival := do
  match ← entryAt ledger.memo key with
  | .resolved _ => return ⟨.ok (), ledger, #[]⟩
  | .failed _ => return ⟨.error (← failureAt ledger.memo key), ledger, #[]⟩
  | _ =>
      match ← run w trace (Walk.horizon ledger.memo.size) (.start ledger key) with
      | .inl _ => .error .ending
      | .inr arrival => return arrival

end Definitions

variable {w : Wiring}

section Finding

/-! ### What is there is found -/

theorem slotAt_eq {n : NodeId} {slot : Slot} (h : w.slot? n = some slot) :
    slotAt w n = .ok slot :=
  place_of_eq_some h

theorem edgeAt_eq {e : EdgeId} {edge : Edge} (h : w.edge? e = some edge) :
    edgeAt w e = .ok edge :=
  place_of_eq_some h

theorem entryAt_eq {memo : Memo} {key : FlowKey} (h : memo.Covers key) :
    entryAt memo key = .ok (memo.get key) := by
  obtain ⟨entry, hentry⟩ := Option.isSome_iff_exists.mp h
  rw [Memo.get, hentry]
  cases key <;> exact place_of_eq_some hentry

theorem covers_of_get_resolved {memo : Memo} {key : FlowKey} {values : List Parameter}
    (h : memo.get key = .resolved values) : memo.Covers key := by
  refine Classical.byContradiction fun hnot => ?_
  rw [Memo.get_of_not_covers hnot] at h
  cases h

theorem failureAt_eq {memo : Memo} {key : FlowKey} {error : ResolveError}
    (hcovers : memo.Covers key) (h : memo.get key = .failed error) :
    failureAt memo key = .ok error := by
  rw [failureAt, entryAt_eq hcovers, h]
  rfl

/-- The port where an edge starts is one of its node. -/
theorem exists_slot_of_spec? {port : Port} (h : (w.spec? port).isSome = true) :
    ∃ slot, w.slot? port.node = some slot ∧ port.index < (slot.ports port.side).length := by
  obtain ⟨spec, hspec⟩ := Option.isSome_iff_exists.mp h
  obtain ⟨node, hnode, hport⟩ := Option.bind_eq_some_iff.mp hspec
  obtain ⟨slot, hslot, rfl⟩ := Wiring.node?_eq_some.mp hnode
  exact ⟨slot, hslot, (List.getElem?_eq_some_iff.mp hport).1⟩

theorem hasKey_emitter (hwf : w.WellFormed) {e : EdgeId} {edge : Edge}
    (hedge : w.edge? e = some edge) (direction : Direction) :
    w.HasKey (Wiring.emitter edge direction) := by
  obtain ⟨slot, hslot, _⟩ := exists_slot_of_spec? (hwf.faces_origin hedge direction).isSome
  have hlt := (Array.getElem?_eq_some_iff.mp hslot).1
  cases direction <;> exact hlt

/-- What a key needs is there. -/
theorem hasKey_of_needs (hwf : w.WellFormed) {key dependency : FlowKey}
    (h : w.Needs key dependency) : w.HasKey dependency := by
  cases hnode : key.node? with
  | none =>
      cases key with
      | edge e =>
          have hkey := Wiring.hasKey_of_needs h
          have hedge : w.edge? e = some w.edges[e.index] := Array.getElem?_eq_getElem hkey
          rw [Wiring.Needs, Wiring.dependencies_edge hedge] at h
          rcases List.mem_cons.mp h with rfl | h
          · exact hasKey_emitter hwf hedge .down
          · rw [List.mem_singleton.mp h]
            exact hasKey_emitter hwf hedge .up
      | _ => cases hnode
  | some n =>
      obtain ⟨e, edge, hedge, ⟨rfl, _⟩ | ⟨rfl, _⟩ | ⟨rfl, _⟩⟩ := hwf.exists_of_needs hnode h
      · exact .of_edge? hedge
      · exact hasKey_emitter hwf hedge .down
      · exact hasKey_emitter hwf hedge .up

/-- The edges at a node are there. -/
theorem exists_edge?_of_mem (hwf : w.WellFormed) {n : NodeId} {slot : Slot}
    (hslot : w.slot? n = some slot) (side : Side) {e : EdgeId}
    (he : e ∈ (slot.edges side).flatten) : ∃ edge, w.edge? e = some edge := by
  cases side with
  | input => exact ((hwf.mem_inward hslot).mp he).imp fun _ h => h.1
  | output => exact ((hwf.mem_outward hslot).mp he).imp fun _ h => h.1

theorem reads_eq (direction : Direction) (resolved : Bool) {edges : List EdgeId}
    (h : ∀ e ∈ edges, ∃ edge, w.edge? e = some edge) :
    reads w direction resolved edges = .ok (w.reads direction resolved edges) := by
  cases resolved with
  | true => rfl
  | false =>
      refine mapM_filterMap fun e he => ?_
      obtain ⟨edge, hedge⟩ := h e he
      refine ⟨Wiring.emitter edge direction, by rw [hedge]; rfl, ?_⟩
      rw [edgeAt_eq hedge]
      rfl

/-- The values of a node need what arrives in their direction and what arrives against it, as far as
the flow of the node says that they are read. -/
theorem dependencies_node {n : NodeId} {slot : Slot} (hslot : w.slot? n = some slot)
    (direction : Direction) :
    w.dependencies (direction.key n) =
      (if slot.node.flow.reads direction
        then w.reads direction (slot.node.flow.readsSettled direction)
          (slot.edges direction.arrival).flatten else []) ++
      (if slot.node.flow.readsAgainst direction
        then w.reads direction.reverse false (slot.edges direction.departure).flatten else []) := by
  cases direction with
  | down => exact Wiring.dependencies_down hslot
  | up => exact Wiring.dependencies_up hslot

theorem nodeDependencies_eq (hwf : w.WellFormed) (direction : Direction) {n : NodeId} {slot : Slot}
    (hslot : w.slot? n = some slot) :
    nodeDependencies w direction n = .ok (w.dependencies (direction.key n)) := by
  have hreads : ∀ side towards resolved, reads w towards resolved (slot.edges side).flatten =
      .ok (w.reads towards resolved (slot.edges side).flatten) := fun side towards resolved =>
    reads_eq towards resolved fun e he => exists_edge?_of_mem hwf hslot side he
  rw [dependencies_node hslot]
  simp only [nodeDependencies, slotAt_eq hslot, ok_bind, hreads]
  cases slot.node.flow.reads direction <;> cases slot.node.flow.readsAgainst direction <;> rfl

theorem dependencies_eq (hwf : w.WellFormed) {key : FlowKey} (hkey : w.HasKey key) :
    dependencies w key = .ok (w.dependencies key) := by
  cases key with
  | edge e =>
      have hedge : w.edge? e = some w.edges[e.index] := Array.getElem?_eq_getElem hkey
      rw [dependencies, edgeAt_eq hedge, Wiring.dependencies_edge hedge]
      rfl
  | down n =>
      have hslot : w.slot? n = some w.slots[n.index] := Array.getElem?_eq_getElem hkey
      exact nodeDependencies_eq hwf .down hslot
  | up n =>
      have hslot : w.slot? n = some w.slots[n.index] := Array.getElem?_eq_getElem hkey
      exact nodeDependencies_eq hwf .up hslot

theorem locate_eq {key : FlowKey} (hkey : w.HasKey key) : locate w key = .ok (w.locate key) := by
  cases key with
  | edge e => rfl
  | down n =>
      have hslot : w.slot? n = some w.slots[n.index] := Array.getElem?_eq_getElem hkey
      rw [locate, slotAt_eq hslot, Wiring.locate, hslot]
      rfl
  | up n =>
      have hslot : w.slot? n = some w.slots[n.index] := Array.getElem?_eq_getElem hkey
      rw [locate, slotAt_eq hslot, Wiring.locate, hslot]
      rfl

theorem blocker_eq {memo : Memo} {keys : List FlowKey} (h : ∀ key ∈ keys, memo.Covers key) :
    blocker memo keys = .ok (Blocker.find? memo keys) := by
  induction keys with
  | nil => rfl
  | cons key rest ih =>
      have hcovers := h key List.mem_cons_self
      rw [blocker, entryAt_eq hcovers, Blocker.find?, List.findSome?_cons]
      cases hget : memo.get key with
      | resolved values => exact ih fun k hk => h k (List.mem_cons_of_mem _ hk)
      | unresolved => rfl
      | resolving => rfl
      | failed error =>
          have hfailure := failureAt_eq hcovers hget
          simp only [hfailure]
          rfl

end Finding

section Evaluating

/-! ### Evaluation finds every value that it reads -/

section Plain

variable {α β : Type}

@[simp] theorem look_ok (a : α) : look (.ok a) = pure a :=
  rfl

theorem plain_bind (first : Except Mismatch α) (next : α → Except Mismatch β) :
    plain (first >>= next) = plain first >>= fun a => plain (next a) := by
  cases first <;> rfl

theorem mapM_plain {f : α → Checked β} {g : α → Except Mismatch β} {xs : List α}
    (h : ∀ x ∈ xs, f x = plain (g x)) : xs.mapM f = plain (xs.mapM g) := by
  induction xs with
  | nil => rfl
  | cons x rest ih =>
      have hrest := ih fun y hy => h y (List.mem_cons_of_mem _ hy)
      simp only [List.mapM_cons, h x List.mem_cons_self, hrest, plain_bind]
      rfl

end Plain

variable {memo : Memo}

theorem length_of_checkEmitted {key : FlowKey} {direction : Direction} {values out : List Parameter}
    {ports : List PortSpec} (h : Wiring.checkEmitted key direction values ports = .ok out) :
    out.length = ports.length := by
  obtain rfl := Wiring.checkEmitted_ok h
  by_cases hlength : out.length = ports.length
  · exact hlength
  · rw [Wiring.checkEmitted, if_pos hlength] at h
    cases h

/-- A node that is resolved has emitted one value per port. -/
theorem length_of_yields {n : NodeId} {slot : Slot} (hslot : w.slot? n = some slot)
    {direction : Direction} {values : List Parameter} (h : w.Yields (direction.key n) values) :
    values.length = (slot.ports direction.departure).length := by
  obtain ⟨memo, _, hevaluate⟩ := Wiring.yields_iff.mp h
  rw [Wiring.evaluate_node hslot, mapError_eq_ok_iff] at hevaluate
  obtain ⟨_, _, hemit⟩ := exists_of_bind_eq_ok hevaluate
  obtain ⟨_, _, hcheck⟩ := exists_of_bind_eq_ok hemit
  exact length_of_checkEmitted hcheck

/-- What crosses an edge is found once the node where the edge starts has emitted its values. -/
theorem crossing_eq (hwf : w.WellFormed) {e : EdgeId} {edge : Edge} (hedge : w.edge? e = some edge)
    {direction : Direction} {values : List Parameter}
    (hget : memo.get (Wiring.emitter edge direction) = .resolved values)
    (hyields : w.Yields (Wiring.emitter edge direction) values) :
    crossing memo edge direction = plain (Wiring.crossing memo edge direction) := by
  have hfaces := hwf.faces_origin hedge direction
  obtain ⟨slot, hslot, hport⟩ := exists_slot_of_spec? hfaces.isSome
  rw [Wiring.emitter_eq] at hyields
  rw [hfaces.1, ← length_of_yields hslot hyields] at hport
  have hemitted := List.getElem?_eq_getElem hport
  rw [crossing, entryAt_eq (covers_of_get_resolved hget), hget]
  simp only [look_ok, pure_bind, Entry.values?, Option.bind_some, hemitted, found]

theorem flows_eq (hwf : w.WellFormed) {e : EdgeId} {edge : Edge} (hedge : w.edge? e = some edge)
    (hsupports : w.Supports memo (.edge e)) : flows memo edge = plain (Wiring.flows memo edge) := by
  have hcrossing : ∀ direction,
      crossing memo edge direction = plain (Wiring.crossing memo edge direction) := by
    intro direction
    obtain ⟨values, hget, hyields⟩ :=
      hsupports _ (Wiring.emitter_mem_dependencies hedge direction)
    exact crossing_eq hwf hedge hget hyields
  simp only [flows, hcrossing, Wiring.flows, plain_bind]
  rfl

section Reading

variable {direction : Direction} {resolved : Bool}

/-- A read finds its value if what it reads is resolved. -/
theorem readEdge_eq (hwf : w.WellFormed) {edges : List EdgeId}
    (hreads : ∀ key ∈ w.reads direction resolved edges,
      ∃ values, memo.get key = .resolved values ∧ w.Yields key values)
    {e : EdgeId} (he : e ∈ edges) {edge : Edge} (hedge : w.edge? e = some edge) :
    readEdge w memo direction resolved e =
      plain (w.readEdge memo direction resolved e) := by
  cases resolved with
  | true =>
      obtain ⟨values, hget, hyields⟩ := hreads _ (Wiring.mem_reads_resolved.mpr ⟨e, he, rfl⟩)
      obtain ⟨value, rfl⟩ := hyields.edge_singleton
      have hsettled : memo.settled? e = some value := by
        rw [Memo.settled?, Memo.values?, hget]
        rfl
      simp only [readEdge, Wiring.readEdge, ↓reduceIte, hsettled]
      rfl
  | false =>
      obtain ⟨values, hget, hyields⟩ :=
        hreads _ (Wiring.mem_reads_emitted.mpr ⟨e, he, edge, hedge, rfl⟩)
      simp only [readEdge, Wiring.readEdge, Bool.false_eq_true, ↓reduceIte, edgeAt_eq hedge, hedge,
        look_ok, pure_bind]
      exact crossing_eq hwf hedge hget hyields

theorem gather_eq (hwf : w.WellFormed) {n : NodeId} {slot : Slot} (hslot : w.slot? n = some slot)
    {side : Side}
    (hreads : ∀ key ∈ w.reads direction resolved (slot.edges side).flatten,
      ∃ values, memo.get key = .resolved values ∧ w.Yields key values) :
    gather w memo slot side direction resolved =
      plain (w.gather memo slot side direction resolved) := by
  refine mapM_plain fun (port, edges) hport => ?_
  have hsub : ∀ e ∈ edges, e ∈ (slot.edges side).flatten := fun e he =>
    List.mem_flatten.mpr ⟨edges, (List.of_mem_zip hport).2, he⟩
  cases edges with
  | nil => rfl
  | cons first rest =>
      refine mapM_plain fun e he => ?_
      obtain ⟨edge, hedge⟩ := exists_edge?_of_mem hwf hslot side (hsub e he)
      exact readEdge_eq hwf hreads (hsub e he) hedge

theorem readSide_eq (hwf : w.WellFormed) {n : NodeId} {slot : Slot} (hslot : w.slot? n = some slot)
    {side : Side} {wanted : Bool}
    (hreads : wanted = true → ∀ key ∈ w.reads direction resolved (slot.edges side).flatten,
      ∃ values, memo.get key = .resolved values ∧ w.Yields key values) :
    readSide w memo slot side direction resolved wanted =
      plain (w.readSide memo slot side direction resolved wanted) := by
  cases wanted with
  | false => rfl
  | true => exact gather_eq hwf hslot (hreads rfl)

end Reading

/-- A node finds everything that it reads, whatever its flow says that it reads. -/
theorem readings_eq (hwf : w.WellFormed) {n : NodeId} {slot : Slot} (hslot : w.slot? n = some slot)
    (direction : Direction) (hsupports : w.Supports memo (direction.key n)) :
    readings w memo direction slot = plain (w.nodeReadings memo direction slot) := by
  rw [Wiring.Supports, dependencies_node hslot] at hsupports
  have harriving : readSide w memo slot direction.arrival direction _ _ = plain _ :=
    readSide_eq hwf hslot fun hread key hkey =>
      hsupports key (List.mem_append_left _ (by rwa [if_pos hread]))
  have hagainst : readSide w memo slot direction.departure direction.reverse _ _ = plain _ :=
    readSide_eq hwf hslot fun hread key hkey =>
      hsupports key (List.mem_append_right _ (by rwa [if_pos hread]))
  simp only [readings, Wiring.nodeReadings, plain_bind, harriving, hagainst]
  rfl

theorem evaluateNode_eq (hwf : w.WellFormed) {n : NodeId} {slot : Slot}
    (hslot : w.slot? n = some slot) (direction : Direction)
    (hsupports : w.Supports memo (direction.key n)) :
    evaluateNode w memo direction n = plain (w.evaluateNode memo direction n slot) := by
  simp only [evaluateNode, Wiring.evaluateNode, slotAt_eq hslot, look_ok, pure_bind, plain_bind,
    readings_eq hwf hslot direction hsupports]

theorem evaluate_node_eq (hwf : w.WellFormed) {n : NodeId} {slot : Slot}
    (hslot : w.slot? n = some slot) (direction : Direction) (hkey : w.HasKey (direction.key n))
    (hsupports : w.Supports memo (direction.key n)) :
    evaluate w memo (direction.key n) = .ok (w.evaluate memo (direction.key n)) := by
  have hnode : evaluateKey w memo (direction.key n) = evaluateNode w memo direction n := by
    cases direction <;> rfl
  rw [evaluate, hnode, evaluateNode_eq hwf hslot direction hsupports, locate_eq hkey,
    Wiring.evaluate_node hslot]
  rfl

theorem evaluate_edge_eq (hwf : w.WellFormed) {e : EdgeId} {edge : Edge}
    (hedge : w.edge? e = some edge) (hsupports : w.Supports memo (.edge e)) :
    evaluate w memo (.edge e) = .ok (w.evaluate memo (.edge e)) := by
  have hsettle : settle memo edge = plain (Wiring.settle memo edge) := by
    rw [settle, flows_eq hwf hedge hsupports, Wiring.settle, plain_bind]
  simp only [evaluate, evaluateKey, edgeAt_eq hedge, look_ok, pure_bind, hsettle, Wiring.evaluate,
    hedge]
  cases Wiring.settle memo edge <;> rfl

/-- Evaluation finds everything that it looks for, once what the key needs is resolved. -/
theorem evaluate_eq (hwf : w.WellFormed) {key : FlowKey} (hkey : w.HasKey key)
    (hsupports : w.Supports memo key) : evaluate w memo key = .ok (w.evaluate memo key) := by
  cases key with
  | edge e => exact evaluate_edge_eq hwf (Array.getElem?_eq_getElem hkey) hsupports
  | down n => exact evaluate_node_eq hwf (Array.getElem?_eq_getElem hkey) .down hkey hsupports
  | up n => exact evaluate_node_eq hwf (Array.getElem?_eq_getElem hkey) .up hkey hsupports

end Evaluating

section Walking

/-! ### A walk finds every entry, failure and key that it looks for -/

variable {origin : Memo} {target : FlowKey} {walk : Walk}

theorem fail_eq (h : walk.Coherent w origin target) (error : ResolveError) :
    fail walk error = .ok (walk.fail error) := by
  rw [fail, mapM_ok fun key hkey => entryAt_eq (h.covers hkey)]
  rfl

theorem evaluateTop_eq (hwf : w.WellFormed) (h : walk.Coherent w origin target) (trace : Bool)
    {top : FlowKey} {below : List FlowKey} (hpile : walk.pile = top :: below)
    (hsupports : w.Supports walk.ledger.memo top) :
    evaluateTop w trace top below walk = .ok (walk.evaluate w trace top below) := by
  have htop : top ∈ walk.pile := hpile ▸ List.mem_cons_self
  rw [evaluateTop, evaluate_eq hwf (h.hasKey htop) hsupports, ok_bind]
  cases w.evaluate walk.ledger.memo top with
  | ok values => simp only [entryAt_eq (h.covers htop), ok_bind]; rfl
  | error error => simp only [fail_eq h, ok_bind]; rfl

/-- The keys that are being resolved are just those in the pile, and what the top needs is covered:
so a step finds everything that it looks for. -/
theorem step_eq (hwf : w.WellFormed) (h : walk.Coherent w origin target) (trace : Bool) :
    step w trace walk = .ok (walk.step w trace) := by
  cases hpile : walk.pile with
  | nil =>
      simp only [step, Walk.step, hpile]
      rfl
  | cons top below =>
      have hkey := h.hasKey (hpile ▸ List.mem_cons_self : top ∈ walk.pile)
      have hcovers : ∀ key ∈ w.dependencies top, walk.ledger.memo.Covers key := fun key hneeds =>
        (h.consistent.covers key).mpr (hasKey_of_needs hwf hneeds)
      simp only [step, Walk.step, hpile, dependencies_eq hwf hkey, ok_bind, blocker_eq hcovers]
      cases hfind : Blocker.find? walk.ledger.memo (w.dependencies top) with
      | none =>
          exact evaluateTop_eq hwf h trace hpile
            (h.consistent.supports (Blocker.resolved_of_find?_eq_none hfind))
      | some blocker =>
          cases blocker with
          | fresh dependency =>
              have hneeds := (Walk.get_eq_unresolved_of_find? hfind).2
              simp only [entryAt_eq (hcovers _ hneeds), ok_bind]
              rfl
          | inProgress dependency =>
              have hmem : dependency ∈ top :: below := by
                obtain ⟨key, _, hblocker⟩ := Blocker.awaits_of_find?_eq_some hfind
                rw [← hpile, ← h.resolving_iff]
                cases hget : walk.ledger.memo.get key with
                | resolving =>
                    rw [hget] at hblocker
                    obtain rfl := Blocker.inProgress.inj (Option.some.inj hblocker)
                    exact hget
                | _ =>
                    rw [hget] at hblocker
                    cases hblocker
              obtain ⟨position, hposition⟩ :=
                Option.ne_none_iff_exists'.mp (mt List.idxOf?_eq_none_iff.mp (not_not.mpr hmem))
              simp only [hposition, found, fail_eq h, ok_bind]
              rfl
          | failed error =>
              simp only [fail_eq h, ok_bind]
              rfl

theorem run_eq (hwf : w.WellFormed) (h : walk.Coherent w origin target) (trace : Bool) (n : Nat) :
    run w trace n walk = .ok (walk.run w trace n) := by
  induction n generalizing walk with
  | zero => rfl
  | succ n ih =>
      have hcontinues := h.step trace
      rw [run, step_eq hwf h, ok_bind, Walk.run]
      cases hstep : walk.step w trace with
      | inl next =>
          rw [hstep] at hcontinues
          exact ih hcontinues
      | inr arrival => rfl

/-- A demand on a settled ledger has no lapse. -/
theorem demand_eq (hwf : w.WellFormed) {ledger : Ledger} (hsettled : ledger.Settled w)
    {key : FlowKey} (hkey : w.HasKey key) (trace : Bool) :
    demand w trace ledger key = .ok (ledger.demand w trace key) := by
  have hcovers := (hsettled.consistent.covers key).mpr hkey
  rw [demand, entryAt_eq hcovers, ok_bind, Ledger.demand]
  cases hget : ledger.memo.get key with
  | resolved values => rfl
  | failed error =>
      simp only [failureAt_eq hcovers hget, ok_bind]
      rfl
  | resolving => exact absurd hget (hsettled.idle key)
  | unresolved =>
      have hrun := run_eq hwf (Walk.coherent_start hsettled hget) trace
        (Walk.horizon ledger.memo.size)
      have hend : Walk.run w trace (Walk.horizon ledger.memo.size) (.start ledger key) =
          .inr (Walk.toEnd w trace ledger key) := (Sum.inr_getRight _ _).symm
      simp only [hrun, hend, ok_bind]
      rfl

/-- A wiring without nodes has no place for a key of a node. -/
example : demand .empty false (.blank .empty) (.down ⟨0⟩) = .error (.place 0 0) := rfl

end Walking

end Strict

end Negotiation
