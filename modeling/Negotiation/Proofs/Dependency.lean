import Mathlib.Logic.Relation
import Negotiation.Evaluation
import Negotiation.Proofs.Records

/-!
What the evaluation of a key depends on.

`Wiring.Needs` relates a key to the keys that must be resolved before it.  Evaluation looks at
nothing else in the memo (`Wiring.evaluate_congr`), and what it refuses is a mismatch, never a
circle (`Wiring.exists_mismatch_of_evaluate`).
-/

namespace Negotiation

namespace Wiring

open Relation

/-- The second key must be resolved before the first can be evaluated. -/
def Needs (w : Wiring) (key dependency : FlowKey) : Prop :=
  dependency ∈ w.dependencies key

/-- The keys that are read from edges in a direction: the edges themselves where settled
parameters are read, the emitting ends of the edges otherwise. -/
def reads (w : Wiring) (direction : Direction) (resolved : Bool) (edges : List EdgeId) :
    List FlowKey :=
  if resolved then edges.map .edge
  else edges.filterMap fun e => (w.edge? e).map fun edge => emitter edge direction

theorem dependencies_edge {w : Wiring} {e : EdgeId} {edge : Edge} (h : w.edge? e = some edge) :
    w.dependencies (.edge e) = [emitter edge .down, emitter edge .up] := by
  simp [dependencies, h, emitter]

theorem dependencies_down {w : Wiring} {n : NodeId} {slot : Slot} (h : w.slot? n = some slot) :
    w.dependencies (.down n) =
      (if slot.node.flow.downReadsInward
        then w.reads .down slot.node.flow.downReadsResolved slot.inward else []) ++
      (if slot.node.flow.downReadsOutwardUp then w.reads .up false slot.outward else []) := by
  simp only [dependencies, h, downDependencies, sources, sinks, reads, emitter]
  split <;> split <;> simp

theorem dependencies_up {w : Wiring} {n : NodeId} {slot : Slot} (h : w.slot? n = some slot) :
    w.dependencies (.up n) =
      (if slot.node.flow.upReadsOutward
        then w.reads .up slot.node.flow.upReadsResolved slot.outward else []) ++
      (if slot.node.flow.upReadsInwardDown then w.reads .down false slot.inward else []) := by
  simp only [dependencies, h, upDependencies, sources, sinks, reads, emitter]
  split <;> split <;> simp

theorem mem_reads_resolved {w : Wiring} {direction : Direction} {edges : List EdgeId}
    {key : FlowKey} : key ∈ w.reads direction true edges ↔ ∃ e ∈ edges, key = .edge e := by
  simp [reads, eq_comm]

theorem mem_reads_emitted {w : Wiring} {direction : Direction} {edges : List EdgeId}
    {key : FlowKey} :
    key ∈ w.reads direction false edges ↔
      ∃ e ∈ edges, ∃ edge, w.edge? e = some edge ∧ key = emitter edge direction := by
  simp only [reads, Bool.false_eq_true, ↓reduceIte, List.mem_filterMap, Option.map_eq_some_iff]
  simp only [eq_comm]

section Congruence

/-! Two memos that show the same values for what is read give the same result. -/

variable {w : Wiring} {left right : Memo}

theorem crossing_congr {edge : Edge} {direction : Direction}
    (h : left.values? (emitter edge direction) = right.values? (emitter edge direction)) :
    crossing left edge direction = crossing right edge direction := by
  simp only [crossing, h]

theorem flows_congr {edge : Edge}
    (hdown : left.values? (emitter edge .down) = right.values? (emitter edge .down))
    (hup : left.values? (emitter edge .up) = right.values? (emitter edge .up)) :
    flows left edge = flows right edge := by
  simp only [flows, crossing_congr hdown, crossing_congr hup]

theorem settle_congr {edge : Edge}
    (hdown : left.values? (emitter edge .down) = right.values? (emitter edge .down))
    (hup : left.values? (emitter edge .up) = right.values? (emitter edge .up)) :
    settle left edge = settle right edge := by
  simp only [settle, flows_congr hdown hup]

theorem readEdge_congr {direction : Direction} {resolved : Bool} {edges : List EdgeId}
    (h : ∀ key ∈ w.reads direction resolved edges, left.values? key = right.values? key)
    {e : EdgeId} (he : e ∈ edges) :
    w.readEdge left direction resolved e = w.readEdge right direction resolved e := by
  cases resolved with
  | true =>
      have hkey := h (.edge e) (mem_reads_resolved.mpr ⟨e, he, rfl⟩)
      simp only [readEdge, Memo.settled?, hkey, ↓reduceIte]
  | false =>
      cases hedge : w.edge? e with
      | none => simp only [readEdge, hedge, Bool.false_eq_true, ↓reduceIte]
      | some edge =>
          have hkey := h (emitter edge direction) (mem_reads_emitted.mpr ⟨e, he, edge, hedge, rfl⟩)
          simp only [readEdge, hedge, crossing_congr hkey, Bool.false_eq_true, ↓reduceIte]

theorem mapM_congr_of_mem {α β ε : Type} {f g : α → Except ε β} {xs : List α}
    (h : ∀ x ∈ xs, f x = g x) : xs.mapM f = xs.mapM g := by
  induction xs with
  | nil => rfl
  | cons x rest ih =>
      have htail : rest.mapM f = rest.mapM g := ih fun y hy => h y (List.mem_cons_of_mem _ hy)
      rw [List.mapM_cons, List.mapM_cons, h x List.mem_cons_self, htail]

theorem gather_congr {slot : Slot} {side : Side} {direction : Direction} {resolved : Bool}
    (h : ∀ key ∈ w.reads direction resolved (slot.edges side).flatten,
      left.values? key = right.values? key) :
    w.gather left slot side direction resolved = w.gather right slot side direction resolved := by
  refine mapM_congr_of_mem fun (port, edges) hport => ?_
  have hsub : ∀ e ∈ edges, e ∈ (slot.edges side).flatten := fun e he =>
    List.mem_flatten.mpr ⟨edges, (List.of_mem_zip hport).2, he⟩
  cases edges with
  | nil => rfl
  | cons first rest => exact mapM_congr_of_mem fun e he => readEdge_congr h (hsub e he)

theorem downReadings_congr {slot : Slot} {n : NodeId} (hslot : w.slot? n = some slot)
    (h : ∀ key ∈ w.dependencies (.down n), left.values? key = right.values? key) :
    w.downReadings left slot = w.downReadings right slot := by
  rw [dependencies_down hslot] at h
  have hvalues : slot.node.flow.downReadsInward = true →
      w.gather left slot .input .down slot.node.flow.downReadsResolved =
        w.gather right slot .input .down slot.node.flow.downReadsResolved := fun hread =>
    gather_congr fun key hkey => h key (List.mem_append_left _ (by rwa [if_pos hread]))
  have hfeedback : slot.node.flow.downReadsOutwardUp = true →
      w.gather left slot .output .up false = w.gather right slot .output .up false := fun hread =>
    gather_congr fun key hkey => h key (List.mem_append_right _ (by rwa [if_pos hread]))
  simp only [downReadings]
  split
  · rename_i hread
    rw [hvalues hread]
    split
    · rename_i hagainst
      rw [hfeedback hagainst]
    · rfl
  · split
    · rename_i hagainst
      rw [hfeedback hagainst]
    · rfl

theorem upReadings_congr {slot : Slot} {n : NodeId} (hslot : w.slot? n = some slot)
    (h : ∀ key ∈ w.dependencies (.up n), left.values? key = right.values? key) :
    w.upReadings left slot = w.upReadings right slot := by
  rw [dependencies_up hslot] at h
  have hvalues : slot.node.flow.upReadsOutward = true →
      w.gather left slot .output .up slot.node.flow.upReadsResolved =
        w.gather right slot .output .up slot.node.flow.upReadsResolved := fun hread =>
    gather_congr fun key hkey => h key (List.mem_append_left _ (by rwa [if_pos hread]))
  have hfeedback : slot.node.flow.upReadsInwardDown = true →
      w.gather left slot .input .down false = w.gather right slot .input .down false := fun hread =>
    gather_congr fun key hkey => h key (List.mem_append_right _ (by rwa [if_pos hread]))
  simp only [upReadings]
  split
  · rename_i hread
    rw [hvalues hread]
    split
    · rename_i hagainst
      rw [hfeedback hagainst]
    · rfl
  · split
    · rename_i hagainst
      rw [hfeedback hagainst]
    · rfl

/-- The dependencies of a key cover every read: evaluation gives the same result in two memos that
show the same values for the dependencies. -/
theorem evaluate_congr {key : FlowKey}
    (h : ∀ dependency ∈ w.dependencies key, left.values? dependency = right.values? dependency) :
    w.evaluate left key = w.evaluate right key := by
  cases key with
  | edge e =>
      cases hedge : w.edge? e with
      | none => simp only [evaluate, hedge]
      | some edge =>
          rw [dependencies_edge hedge] at h
          have hsettle : settle left edge = settle right edge :=
            settle_congr (h _ (by simp)) (h _ (by simp))
          simp only [evaluate, hedge, hsettle]
  | down n =>
      cases hslot : w.slot? n with
      | none => simp only [evaluate, hslot]
      | some slot => simp only [evaluate, hslot, evaluateDown, downReadings_congr hslot h]
  | up n =>
      cases hslot : w.slot? n with
      | none => simp only [evaluate, hslot]
      | some slot => simp only [evaluate, hslot, evaluateUp, upReadings_congr hslot h]

end Congruence

/-- What evaluation refuses is a mismatch. -/
theorem exists_mismatch_of_evaluate {w : Wiring} {memo : Memo} {key : FlowKey}
    {error : ResolveError} (h : w.evaluate memo key = .error error) :
    ∃ mismatch, error = .mismatch mismatch := by
  obtain ⟨mismatch, -, hmismatch⟩ := exists_of_mapError_eq_error h
  exact ⟨_, hmismatch.symm⟩

end Wiring

end Negotiation
