import Mathlib.Data.List.Forall2
import Negotiation.Proofs.Emission
import Negotiation.Proofs.Lockstep
import Negotiation.Proofs.Snapshot

/-!
Wirings that are alike at a key.

What a node reads is laid down twice: by the keys that it needs, and by the evaluation that reads
them.  Here the two are held against one another for any flow of a node: wirings that are alike at a
key, in what is read and in what is made of it, need the same there (`Wiring.AlikeAt.dependencies`)
and evaluate it alike (`Wiring.AlikeAt.evaluate`).  So on keys that need one another only, they
coincide (`Wiring.coincides_of_alikeAt`).
-/

namespace Negotiation

/-- The ports show a node the same: what flows each way, and what stands in where no edge is
attached. -/
structure PortSpec.Resembles (p q : PortSpec) : Prop where
  name : p.name = q.name
  side : p.side = q.side
  schema : ∀ direction, p.protocol.schema direction = q.protocol.schema direction
  fallback : ∀ direction, p.protocol.fallback direction = q.protocol.fallback direction

/-- The nodes have the same ports, read the same and have the same edges; they may emit different
values. -/
structure Slot.Resembles (s t : Slot) : Prop where
  ports : List.Forall₂ PortSpec.Resembles s.node.ports t.node.ports
  flow : s.node.flow = t.node.flow
  edges : ∀ side, s.edges side = t.edges side

/-- The edges join the same ports and let the same through; they may settle it differently. -/
structure Edge.Resembles (d e : Edge) : Prop where
  id : d.id = e.id
  port : ∀ side, d.port side = e.port side
  adapter : d.adapter = e.adapter
  schema : ∀ direction, d.protocol.schema direction = e.protocol.schema direction

theorem PortSpec.Resembles.refl (p : PortSpec) : p.Resembles p :=
  ⟨rfl, rfl, fun _ => rfl, fun _ => rfl⟩

theorem Slot.Resembles.refl (s : Slot) : s.Resembles s :=
  ⟨List.forall₂_same.mpr fun p _ => .refl p, rfl, fun _ => rfl⟩

theorem Edge.Resembles.refl (e : Edge) : e.Resembles e :=
  ⟨rfl, fun _ => rfl, rfl, fun _ => rfl⟩

theorem Slot.Resembles.sidePorts {s t : Slot} (h : s.Resembles t) (side : Side) :
    List.Forall₂ PortSpec.Resembles (s.ports side) (t.ports side) := by
  apply List.rel_filter _ h.ports
  intro p q hpq
  simp only [decide_eq_true_eq, hpq.side]

theorem Slot.Resembles.inward {s t : Slot} (h : s.Resembles t) : s.inward = t.inward :=
  congrArg List.flatten (h.edges .input)

theorem Slot.Resembles.outward {s t : Slot} (h : s.Resembles t) : s.outward = t.outward :=
  congrArg List.flatten (h.edges .output)

/-- Related options are both there or both missing. -/
theorem exists_of_rel {α β : Type} {r : α → β → Prop} {a : Option α} {b : Option β}
    (h : Option.Rel r a b) : (a = none ∧ b = none) ∨ ∃ x y, a = some x ∧ b = some y ∧ r x y := by
  cases h with
  | none => exact Or.inl ⟨rfl, rfl⟩
  | some hr => exact Or.inr ⟨_, _, rfl, rfl, hr⟩

/-- Computations over two lists come to the same if they do so member by member. -/
theorem mapM_eq_of_forall₂ {α β γ ε : Type} {f : α → Except ε γ} {g : β → Except ε γ}
    {xs : List α} {ys : List β} (h : List.Forall₂ (fun x y => f x = g y) xs ys) :
    xs.mapM f = ys.mapM g := by
  induction h with
  | nil => rfl
  | cons hfirst _ ih => rw [List.mapM_cons, List.mapM_cons, hfirst, ih]

theorem forall₂_zip_right {α β γ : Type} {r : α → β → Prop} {xs : List α} {ys : List β}
    (h : List.Forall₂ r xs ys) (zs : List γ) :
    List.Forall₂ (fun x y => r x.1 y.1 ∧ x.2 = y.2 ∧ x.2 ∈ zs) (xs.zip zs) (ys.zip zs) := by
  induction h generalizing zs with
  | nil => exact .nil
  | cons hfirst _ ih =>
      cases zs with
      | nil => exact .nil
      | cons z rest =>
          rw [List.zip_cons_cons, List.zip_cons_cons]
          refine .cons ⟨hfirst, rfl, List.mem_cons_self⟩ ?_
          apply (ih rest).imp
          intro x y hxy
          exact ⟨hxy.1, hxy.2.1, List.mem_cons_of_mem _ hxy.2.2⟩

namespace Wiring

variable {w v : Wiring} {memo : Memo}

section Edges

variable {d e : Edge}

theorem emitter_of_resembles (h : d.Resembles e) (direction : Direction) :
    emitter d direction = emitter e direction := by
  cases direction with
  | down => exact congrArg (fun port : Port => FlowKey.down port.node) (h.port .output)
  | up => exact congrArg (fun port : Port => FlowKey.up port.node) (h.port .input)

theorem origin_of_resembles (h : d.Resembles e) (direction : Direction) :
    d.origin direction = e.origin direction := by
  cases direction with
  | down => exact h.port .output
  | up => exact h.port .input

theorem crossing_of_resembles (h : d.Resembles e) (direction : Direction) :
    crossing memo d direction = crossing memo e direction := by
  simp only [crossing, emitter_of_resembles h, origin_of_resembles h, h.adapter, h.schema, h.id]

theorem flows_of_resembles (h : d.Resembles e) : flows memo d = flows memo e := by
  simp only [flows, crossing_of_resembles h]

end Edges

/-- The edge of this number is there in both wirings or in neither, and lets the same through. -/
def SharesEdge (w v : Wiring) (e : EdgeId) : Prop :=
  Option.Rel Edge.Resembles (w.edge? e) (v.edge? e)

theorem SharesEdge.readEdge {e : EdgeId} (h : w.SharesEdge v e) (direction : Direction)
    (resolved : Bool) :
    w.readEdge memo direction resolved e = v.readEdge memo direction resolved e := by
  simp only [Wiring.readEdge]
  split
  · rfl
  · rcases exists_of_rel h with ⟨hw, hv⟩ | ⟨d, d', hw, hv, hedge⟩
    · simp only [hw, hv]
    · simp only [hw, hv]
      exact crossing_of_resembles hedge direction

section Reading

variable {s t : Slot}

theorem gather_of_resembles (h : s.Resembles t) {side : Side}
    (hedges : ∀ e ∈ (s.edges side).flatten, w.SharesEdge v e) (direction : Direction)
    (resolved : Bool) :
    w.gather memo s side direction resolved = v.gather memo t side direction resolved := by
  rw [gather, gather, ← h.edges side]
  apply mapM_eq_of_forall₂
  apply (forall₂_zip_right (h.sidePorts side) (s.edges side)).imp
  rintro ⟨p, edges⟩ ⟨q, _⟩ ⟨hpq, rfl, hmem⟩
  cases edges with
  | nil =>
      -- Without an edge, a port shows what stands in for it, and resembling ports show the same.
      simp only [readPort, Protocol.fallbackValue, hpq.schema, hpq.fallback]
  | cons first rest =>
      apply mapM_congr_of_mem
      intro e he
      exact (hedges e (List.mem_flatten.mpr ⟨_, hmem, he⟩)).readEdge direction resolved

theorem unread_of_resembles (h : s.Resembles t) (side : Side) : unread s side = unread t side := by
  have hlength := (h.sidePorts side).length_eq
  simp only [unread, List.map_const', hlength]

theorem reads_of_sharesEdge {direction : Direction} {resolved : Bool} {edges : List EdgeId}
    (hedges : ∀ e ∈ edges, w.SharesEdge v e) :
    w.reads direction resolved edges = v.reads direction resolved edges := by
  cases resolved with
  | true => rfl
  | false =>
      simp only [reads, Bool.false_eq_true, ↓reduceIte]
      apply List.filterMap_congr
      intro e he
      rcases exists_of_rel (hedges e he) with ⟨hw, hv⟩ | ⟨d, d', hw, hv, hedge⟩
      · rw [hw, hv]
      · rw [hw, hv]
        exact congrArg some (emitter_of_resembles hedge direction)

theorem reads_inward_of_resembles (h : s.Resembles t)
    (hedges : ∀ e ∈ (s.edges .input).flatten, w.SharesEdge v e) (direction : Direction)
    (resolved : Bool) :
    w.reads direction resolved s.inward = v.reads direction resolved t.inward := by
  rw [← h.inward]
  exact reads_of_sharesEdge hedges

theorem reads_outward_of_resembles (h : s.Resembles t)
    (hedges : ∀ e ∈ (s.edges .output).flatten, w.SharesEdge v e) (direction : Direction)
    (resolved : Bool) :
    w.reads direction resolved s.outward = v.reads direction resolved t.outward := by
  rw [← h.outward]
  exact reads_of_sharesEdge hedges

theorem downReadings_of_resembles (h : s.Resembles t)
    (hedges : ∀ side, ∀ e ∈ (s.edges side).flatten, w.SharesEdge v e) :
    w.downReadings memo s = v.downReadings memo t := by
  simp only [downReadings, ← h.flow, gather_of_resembles h (hedges .input),
    gather_of_resembles h (hedges .output), unread_of_resembles h]

theorem upReadings_of_resembles (h : s.Resembles t)
    (hedges : ∀ side, ∀ e ∈ (s.edges side).flatten, w.SharesEdge v e) :
    w.upReadings memo s = v.upReadings memo t := by
  simp only [upReadings, ← h.flow, gather_of_resembles h (hedges .input),
    gather_of_resembles h (hedges .output), unread_of_resembles h]

theorem checkEmitted_of_resembles (h : s.Resembles t) (key : FlowKey) (direction : Direction)
    (values : List Parameter) (side : Side) :
    checkEmitted key direction values (s.ports side) =
      checkEmitted key direction values (t.ports side) := by
  have hfault : portFault direction values (s.ports side) =
      portFault direction values (t.ports side) := by
    have hports := h.sidePorts side
    simp only [portFault]
    generalize s.ports side = ps at hports
    generalize t.ports side = qs at hports
    induction hports generalizing values with
    | nil => rfl
    | cons hfirst _ ih =>
        cases values with
        | nil => rfl
        | cons value rest =>
            rw [List.zip_cons_cons, List.zip_cons_cons, List.findSome?_cons, List.findSome?_cons,
              ih rest, hfirst.name, hfirst.schema]
  rw [checkEmitted, checkEmitted, (h.sidePorts side).length_eq, hfault]

end Reading

/-- At the node, the wirings have the same to read and to check, and make the same of it in a
direction. -/
def AlikeNode (w v : Wiring) (direction : Direction) (n : NodeId) : Prop :=
  Option.Rel (fun s t => s.Resembles t ∧
    (∀ side, ∀ e ∈ (s.edges side).flatten, w.SharesEdge v e) ∧
    ∀ readings, s.node.emit direction readings = t.node.emit direction readings)
    (w.slot? n) (v.slot? n)

/-- The wirings are alike in what the key needs and in what is made of it. -/
def AlikeAt (w v : Wiring) : FlowKey → Prop
  | .down n => w.AlikeNode v .down n
  | .up n => w.AlikeNode v .up n
  | .edge e => Option.Rel (fun d d' => d.Resembles d' ∧
      ∀ down up, d.rule.merge down up = d'.rule.merge down up) (w.edge? e) (v.edge? e)

namespace AlikeAt

variable {key : FlowKey}

theorem dependencies (h : w.AlikeAt v key) : w.dependencies key = v.dependencies key := by
  cases key with
  | edge e =>
      rcases exists_of_rel h with ⟨hw, hv⟩ | ⟨d, d', hw, hv, hedge, _⟩
      · simp only [Wiring.dependencies, hw, hv]
      · rw [dependencies_edge hw, dependencies_edge hv, emitter_of_resembles hedge,
          emitter_of_resembles hedge]
  | down n =>
      rcases exists_of_rel h with ⟨hw, hv⟩ | ⟨s, t, hw, hv, hslot, hedges, _⟩
      · simp only [Wiring.dependencies, hw, hv]
      · rw [dependencies_down hw, dependencies_down hv, ← hslot.flow,
          reads_inward_of_resembles hslot (hedges .input),
          reads_outward_of_resembles hslot (hedges .output)]
  | up n =>
      rcases exists_of_rel h with ⟨hw, hv⟩ | ⟨s, t, hw, hv, hslot, hedges, _⟩
      · simp only [Wiring.dependencies, hw, hv]
      · rw [dependencies_up hw, dependencies_up hv, ← hslot.flow,
          reads_inward_of_resembles hslot (hedges .input),
          reads_outward_of_resembles hslot (hedges .output)]

theorem evaluate (h : w.AlikeAt v key) (memo : Memo) :
    w.evaluate memo key = v.evaluate memo key := by
  cases key with
  | edge e =>
      rcases exists_of_rel h with ⟨hw, hv⟩ | ⟨d, d', hw, hv, hedge, hmerge⟩
      · simp only [Wiring.evaluate, hw, hv, locate]
      · have hsettle : settle memo d = settle memo d' := by
          simp only [settle, flows_of_resembles hedge, hmerge, hedge.id]
        simp only [Wiring.evaluate, hw, hv, hsettle, locate]
  | down n =>
      rcases exists_of_rel h with ⟨hw, hv⟩ | ⟨s, t, hw, hv, hslot, hedges, hemit⟩
      · simp only [Wiring.evaluate, hw, hv, locate]
      · have hvalues : w.evaluateDown memo n s = v.evaluateDown memo n t := by
          have hdownward : s.node.downward = t.node.downward := funext hemit
          simp only [evaluateDown, downReadings_of_resembles hslot hedges, hdownward,
            checkEmitted_of_resembles hslot]
        simp only [Wiring.evaluate, hw, hv, hvalues, locate, Option.bind_some, hslot.outward]
  | up n =>
      rcases exists_of_rel h with ⟨hw, hv⟩ | ⟨s, t, hw, hv, hslot, hedges, hemit⟩
      · simp only [Wiring.evaluate, hw, hv, locate]
      · have hvalues : w.evaluateUp memo n s = v.evaluateUp memo n t := by
          have hupward : s.node.upward = t.node.upward := funext hemit
          simp only [evaluateUp, upReadings_of_resembles hslot hedges, hupward,
            checkEmitted_of_resembles hslot]
        simp only [Wiring.evaluate, hw, hv, hvalues, locate, Option.bind_some, hslot.inward]

theorem hasKey_iff (h : w.AlikeAt v key) : w.HasKey key ↔ v.HasKey key := by
  have hsize : ∀ {α β : Type} {r : α → β → Prop} {xs : Array α} {ys : Array β} {i : Nat},
      Option.Rel r xs[i]? ys[i]? → (i < xs.size ↔ i < ys.size) := by
    intro α β r xs ys i hrel
    rcases exists_of_rel hrel with ⟨hx, hy⟩ | ⟨x, y, hx, hy, _⟩
    · exact iff_of_false (Nat.not_lt_of_le (Array.getElem?_eq_none_iff.mp hx))
        (Nat.not_lt_of_le (Array.getElem?_eq_none_iff.mp hy))
    · exact iff_of_true (Array.getElem?_eq_some_iff.mp hx).1 (Array.getElem?_eq_some_iff.mp hy).1
  cases key with
  | down n => exact hsize h
  | up n => exact hsize h
  | edge e => exact hsize h

end AlikeAt

/-- Wirings that are alike at keys which need one another only coincide on them. -/
theorem coincides_of_alikeAt {keys : Set FlowKey}
    (hclosed : ∀ {key dependency}, key ∈ keys → w.Needs key dependency → dependency ∈ keys)
    (halike : ∀ key ∈ keys, w.AlikeAt v key) : w.Coincides keys v where
  closed := hclosed
  dependencies hkey := (halike _ hkey).dependencies
  evaluate hkey := (halike _ hkey).evaluate

/-- The wirings have the same ports, flows, edges, adapters, schemas and fallbacks; what nodes emit
and how edges are settled is the same at these keys, and may differ at others. -/
structure Resembles (keys : Set FlowKey) (w v : Wiring) : Prop where
  slot : ∀ n, Option.Rel Slot.Resembles (w.slot? n) (v.slot? n)
  edge : ∀ e, Option.Rel Edge.Resembles (w.edge? e) (v.edge? e)
  downward : ∀ {n s t}, .down n ∈ keys → w.slot? n = some s → v.slot? n = some t →
    ∀ readings, s.node.downward readings = t.node.downward readings
  upward : ∀ {n s t}, .up n ∈ keys → w.slot? n = some s → v.slot? n = some t →
    ∀ readings, s.node.upward readings = t.node.upward readings
  merge : ∀ {e d d'}, .edge e ∈ keys → w.edge? e = some d → v.edge? e = some d' →
    ∀ down up, d.rule.merge down up = d'.rule.merge down up

theorem Resembles.alikeAt {keys : Set FlowKey} (h : w.Resembles keys v) {key : FlowKey}
    (hkey : key ∈ keys) : w.AlikeAt v key := by
  have hnode : ∀ direction n, (∀ s t, w.slot? n = some s → v.slot? n = some t →
      ∀ readings, s.node.emit direction readings = t.node.emit direction readings) →
        w.AlikeNode v direction n := by
    intro direction n hemit
    rw [AlikeNode]
    rcases exists_of_rel (h.slot n) with ⟨hw, hv⟩ | ⟨s, t, hw, hv, hslot⟩
    · rw [hw, hv]
      exact .none
    · rw [hw, hv]
      exact .some ⟨hslot, fun side e _ => h.edge e, hemit s t hw hv⟩
  cases key with
  | down n => exact hnode .down n fun s t hw hv => h.downward hkey hw hv
  | up n => exact hnode .up n fun s t hw hv => h.upward hkey hw hv
  | edge e =>
      rw [AlikeAt]
      rcases exists_of_rel (h.edge e) with ⟨hw, hv⟩ | ⟨d, d', hw, hv, hedge⟩
      · rw [hw, hv]
        exact .none
      · rw [hw, hv]
        exact .some ⟨hedge, h.merge hkey hw hv⟩

end Wiring

end Negotiation
