import Negotiation.Proofs.Attachment
import Negotiation.Proofs.Conformance
import Negotiation.Proofs.GroupValue
import Negotiation.Proofs.Reference

/-!
What nodes emit and what edges carry, without a memo.

`Wiring.Yields` says to which values a key resolves.  Here this is spelled out: an edge resolves to
the merge of what crosses it (`Wiring.yields_edge_iff`), a source or a sink to what it states
(`Wiring.yields_statement_iff`), a nexus to the settled trunk or to what the branches reduce to
(`Wiring.yields_nexus_iff`), and a node that passes parameters through to what crosses its edge
(`Wiring.yields_identity_iff`).
-/

namespace Negotiation

namespace Direction

/-- The side from which parameters that travel in a direction leave. -/
def departure : Direction → Side
  | .down => .output
  | .up => .input

end Direction

namespace Flow

/-- Whether the values that arrive in a direction are read to compute those that leave in it. -/
def reads (flow : Flow) : Direction → Bool
  | .down => flow.downReadsInward
  | .up => flow.upReadsOutward

/-- Whether what arrives against a direction is read to compute the values that leave in it. -/
def readsAgainst (flow : Flow) : Direction → Bool
  | .down => flow.downReadsOutwardUp
  | .up => flow.upReadsInwardDown

/-- Whether the values that are read in a direction are the settled ones. -/
def readsSettled (flow : Flow) : Direction → Bool
  | .down => flow.downReadsResolved
  | .up => flow.upReadsResolved

end Flow

namespace Node

/-- What a node emits in a direction, one parameter per port. -/
def emit (node : Node) : Direction → Readings → Except Reason (List Parameter)
  | .down => node.downward
  | .up => node.upward

/-- What a source offers and what a sink demands, with the protocol of its port. -/
def statement? : Node → Direction → Option (Protocol × Parameter)
  | .source _ protocol _ offer, .down => some (protocol, offer)
  | .sink _ protocol _ demand, .up => some (protocol, demand)
  | _, _ => none

end Node

namespace Wiring

variable {w : Wiring} {memo : Memo}

section Computing

/-! ### What comes to a result -/

theorem crossing_eq_ok_iff {edge : Edge} {direction : Direction} {value : Parameter} :
    crossing memo edge direction = .ok value ↔
      ∃ values emitted, memo.values? (emitter edge direction) = some values ∧
        values[(edge.origin direction).index]? = some emitted ∧
        edge.adapter.apply direction emitted = .ok value ∧
        (edge.protocol.schema direction).admits value = true := by
  constructor
  · intro h
    obtain ⟨values, emitted, hvalues, hindex, happly⟩ := crossing_ok h
    refine ⟨values, emitted, hvalues, hindex, happly, Schema.check_eq_ok_iff.mp ?_⟩
    simp only [crossing, hvalues, Option.bind_some, hindex, happly] at h
    split at h
    · cases h
    · rename_i hcheck
      exact hcheck
  · rintro ⟨values, emitted, hvalues, hindex, happly, hadmits⟩
    simp only [crossing, hvalues, Option.bind_some, hindex, happly,
      Schema.check_eq_ok_iff.mpr hadmits]

theorem evaluate_edge_eq_ok {e : EdgeId} {edge : Edge} {down up value : Parameter}
    (hedge : w.edge? e = some edge) (hdown : crossing memo edge .down = .ok down)
    (hup : crossing memo edge .up = .ok up) (hmerge : edge.rule.merge down up = .ok value) :
    w.evaluate memo (.edge e) = .ok [value] := by
  have hsettle : settle memo edge = .ok value := by
    rw [settle, flows, hdown, hup]
    exact mapError_eq_ok_iff.mpr hmerge
  rw [evaluate, mapError_eq_ok_iff]
  simp only [hedge, hsettle]
  rfl

theorem evaluate_edge_eq_error {e : EdgeId} {edge : Edge} {down up : Parameter} {reason : Reason}
    (hedge : w.edge? e = some edge) (hdown : crossing memo edge .down = .ok down)
    (hup : crossing memo edge .up = .ok up) (hmerge : edge.rule.merge down up = .error reason) :
    w.evaluate memo (.edge e) = .error (.mismatch ⟨.edge edge.id, some edge.id, reason⟩) := by
  have hsettle : settle memo edge = .error ⟨.edge edge.id, some edge.id, reason⟩ := by
    rw [settle, flows, hdown, hup]
    exact congrArg (Except.mapError _) hmerge
  simp only [evaluate, hedge, hsettle]
  rfl

/-- A node with one port on a side emits one value there, which fits the schema of the port. -/
theorem checkEmitted_singleton {key : FlowKey} {direction : Direction} {values out : List Parameter}
    {spec : PortSpec} :
    checkEmitted key direction values [spec] = .ok out ↔
      ∃ value, values = [value] ∧ (spec.protocol.schema direction).admits value = true ∧
        out = [value] := by
  rw [checkEmitted]
  by_cases hlength : values.length = 1
  · obtain ⟨value, rfl⟩ := List.length_eq_one_iff.mp hlength
    simp only [Schema.admits, portFault]
    cases hfault : (spec.protocol.schema direction).fault value with
    | some reason => simp [hfault]
    | none =>
        simp only [ne_eq, List.length_singleton, not_true_eq_false, ↓reduceIte, List.zip_cons_cons,
          List.zip_nil_right, List.findSome?_cons, hfault, Option.map_none, List.findSome?_nil,
          Except.ok.injEq, List.cons.injEq, and_true, Option.isNone_none, true_and, exists_eq_left']
        exact eq_comm
  · rw [if_pos (by simpa using hlength)]
    constructor
    · intro h
      cases h
    · rintro ⟨value, rfl, _⟩
      exact absurd rfl hlength

variable {n : NodeId} {slot : Slot} {direction : Direction} {out : List Parameter}

/-- A node that reads nothing against a direction emits what it makes of what arrives in it. -/
theorem evaluate_key_eq_ok_iff (hslot : w.slot? n = some slot)
    (hreads : slot.node.flow.reads direction = true)
    (hagainst : slot.node.flow.readsAgainst direction = false) :
    w.evaluate memo (direction.key n) = .ok out ↔ ∃ gathered values,
      w.gather memo slot direction.arrival direction (slot.node.flow.readsSettled direction) =
        .ok gathered ∧
      slot.node.emit direction ⟨gathered, unread slot direction.departure⟩ = .ok values ∧
      checkEmitted (direction.key n) direction values (slot.ports direction.departure) =
        .ok out := by
  cases direction with
  | down =>
      change slot.node.flow.downReadsInward = true at hreads
      change slot.node.flow.downReadsOutwardUp = false at hagainst
      rw [Direction.key, evaluate, mapError_eq_ok_iff]
      simp only [hslot, evaluateDown, downReadings, hreads, hagainst, ↓reduceIte,
        Bool.false_eq_true, bind_eq_ok_iff, mapError_eq_ok_iff]
      constructor
      · rintro ⟨_, ⟨gathered, hgathered, _, hunread, hpair⟩, values, hvalues, hcheck⟩
        cases hunread
        cases hpair
        exact ⟨gathered, values, hgathered, hvalues, hcheck⟩
      · rintro ⟨gathered, values, hgathered, hvalues, hcheck⟩
        exact ⟨_, ⟨gathered, hgathered, _, rfl, rfl⟩, values, hvalues, hcheck⟩
  | up =>
      change slot.node.flow.upReadsOutward = true at hreads
      change slot.node.flow.upReadsInwardDown = false at hagainst
      rw [Direction.key, evaluate, mapError_eq_ok_iff]
      simp only [hslot, evaluateUp, upReadings, hreads, hagainst, ↓reduceIte,
        Bool.false_eq_true, bind_eq_ok_iff, mapError_eq_ok_iff]
      constructor
      · rintro ⟨_, ⟨gathered, hgathered, _, hunread, hpair⟩, values, hvalues, hcheck⟩
        cases hunread
        cases hpair
        exact ⟨gathered, values, hgathered, hvalues, hcheck⟩
      · rintro ⟨gathered, values, hgathered, hvalues, hcheck⟩
        exact ⟨_, ⟨gathered, hgathered, _, rfl, rfl⟩, values, hvalues, hcheck⟩

theorem dependencies_key (hslot : w.slot? n = some slot)
    (hreads : slot.node.flow.reads direction = true)
    (hagainst : slot.node.flow.readsAgainst direction = false) :
    w.dependencies (direction.key n) =
      w.reads direction (slot.node.flow.readsSettled direction)
        (slot.edges direction.arrival).flatten := by
  cases direction with
  | down =>
      change slot.node.flow.downReadsInward = true at hreads
      change slot.node.flow.downReadsOutwardUp = false at hagainst
      rw [Direction.key, dependencies_down hslot, if_pos hreads, hagainst,
        if_neg Bool.false_ne_true, List.append_nil]
      rfl
  | up =>
      change slot.node.flow.upReadsOutward = true at hreads
      change slot.node.flow.upReadsInwardDown = false at hagainst
      rw [Direction.key, dependencies_up hslot, if_pos hreads, hagainst, if_neg Bool.false_ne_true,
        List.append_nil]
      rfl

/-- A node with one port on a side has the edges of that port there. -/
theorem edges_singleton {side : Side} {spec : PortSpec} (hports : slot.ports side = [spec])
    (htabled : (slot.edges side).length = (slot.ports side).length) :
    slot.edges side = [slot.portEdges side 0] := by
  rw [hports] at htabled
  obtain ⟨edges, hedges⟩ := List.length_eq_one_iff.mp htabled
  rw [Slot.portEdges, hedges]
  rfl

theorem gather_singleton {side : Side} {resolved : Bool} {spec : PortSpec} {edges : List EdgeId}
    {gathered : List (List Parameter)} (hports : slot.ports side = [spec])
    (hedges : slot.edges side = [edges]) (hne : edges ≠ []) :
    w.gather memo slot side direction resolved = .ok gathered ↔
      ∃ read, gathered = [read] ∧ edges.mapM (w.readEdge memo direction resolved) = .ok read := by
  have hread : w.readPort memo direction resolved spec edges =
      edges.mapM (w.readEdge memo direction resolved) := by
    cases edges with
    | nil => exact absurd rfl hne
    | cons first rest => rfl
  rw [gather, hports, hedges, List.zip_cons_cons, List.zip_nil_right, List.mapM_cons,
    bind_eq_ok_iff]
  simp only [hread]
  constructor
  · rintro ⟨read, hread, hrest⟩
    cases hrest
    exact ⟨read, rfl, hread⟩
  · rintro ⟨read, rfl, hread⟩
    exact ⟨read, hread, rfl⟩

end Computing

section Meaning

/-! ### What keys resolve to -/

variable {key : FlowKey} {out : List Parameter}

theorem Ready.exists_supports (h : w.Ready key) : ∃ memo, w.Supports memo key := by
  choose! values hyields using h
  refine ⟨.showing w ((w.dependencies key).map fun d => (d, values d)), fun d hd =>
    ⟨values d, ?_, hyields d hd⟩⟩
  exact Memo.get_showing (fun k hk => (hyields k hk).hasKey) hd

/-- A key resolves to what its evaluation makes of a memo that supports it. -/
theorem yields_iff : w.Yields key out ↔
    ∃ memo, w.Supports memo key ∧ w.evaluate memo key = .ok out := by
  constructor
  · rintro ⟨memo, values, holds, yields, result⟩
    exact ⟨memo, fun d hd => ⟨values d, holds d hd, yields d hd⟩, result⟩
  · rintro ⟨memo, hsupports, hevaluate⟩
    exact hsupports.yields hevaluate

theorem Supports.values?_iff (h : w.Supports memo key) {dependency : FlowKey}
    (hd : dependency ∈ w.dependencies key) {values : List Parameter} :
    memo.values? dependency = some values ↔ w.Yields dependency values := by
  obtain ⟨found, hget, hyields⟩ := h dependency hd
  rw [Memo.values?, hget]
  constructor
  · intro hsome
    rw [← Option.some.inj hsome]
    exact hyields
  · intro hother
    exact congrArg some (hyields.unique hother)

/-- What crosses an edge in a direction: what is emitted where it starts, through the adapter, if
that fits the schema of the protocol. -/
def Crosses (w : Wiring) (edge : Edge) (direction : Direction) (value : Parameter) : Prop :=
  ∃ values emitted, w.Yields (emitter edge direction) values ∧
    values[(edge.origin direction).index]? = some emitted ∧
    edge.adapter.apply direction emitted = .ok value ∧
    (edge.protocol.schema direction).admits value = true

theorem Supports.crossing_iff (h : w.Supports memo key) {edge : Edge} {direction : Direction}
    (hd : emitter edge direction ∈ w.dependencies key) {value : Parameter} :
    crossing memo edge direction = .ok value ↔ w.Crosses edge direction value := by
  simp only [crossing_eq_ok_iff, Crosses, h.values?_iff hd]

theorem emitter_mem_dependencies {e : EdgeId} {edge : Edge} (hedge : w.edge? e = some edge)
    (direction : Direction) : emitter edge direction ∈ w.dependencies (.edge e) := by
  rw [dependencies_edge hedge]
  cases direction with
  | down => exact List.mem_cons_self
  | up => exact List.mem_cons_of_mem _ List.mem_cons_self

/-- What crosses an edge in both directions is found in some memo. -/
theorem Crosses.exists_supports {e : EdgeId} {edge : Edge} (hedge : w.edge? e = some edge)
    {down up : Parameter} (hdown : w.Crosses edge .down down) (hup : w.Crosses edge .up up) :
    ∃ memo, w.Supports memo (.edge e) ∧ crossing memo edge .down = .ok down ∧
      crossing memo edge .up = .ok up := by
  have hmem := emitter_mem_dependencies hedge
  have hready : w.Ready (.edge e) := by
    intro d hd
    rw [dependencies_edge hedge] at hd
    obtain ⟨values, _, hvalues, _⟩ := hdown
    obtain ⟨values', _, hvalues', _⟩ := hup
    rcases List.mem_cons.mp hd with rfl | hd
    · exact ⟨values, hvalues⟩
    · rw [List.mem_singleton.mp hd]
      exact ⟨values', hvalues'⟩
  obtain ⟨memo, hsupports⟩ := hready.exists_supports
  exact ⟨memo, hsupports, (hsupports.crossing_iff (hmem .down)).mpr hdown,
    (hsupports.crossing_iff (hmem .up)).mpr hup⟩

/-- An edge resolves to the merge of the two parameters that cross it. -/
theorem yields_edge_iff {e : EdgeId} {edge : Edge} (hedge : w.edge? e = some edge) :
    w.Yields (.edge e) out ↔ ∃ down up value, w.Crosses edge .down down ∧ w.Crosses edge .up up ∧
      edge.rule.merge down up = .ok value ∧ out = [value] := by
  have hmem := emitter_mem_dependencies hedge
  constructor
  · intro h
    obtain ⟨memo, hsupports, hevaluate⟩ := yields_iff.mp h
    obtain ⟨down, up, value, rfl, _, hdown, hup, hmerge⟩ := evaluate_edge_ok hedge hevaluate
    exact ⟨down, up, value, (hsupports.crossing_iff (hmem .down)).mp hdown,
      (hsupports.crossing_iff (hmem .up)).mp hup, hmerge, rfl⟩
  · rintro ⟨down, up, value, hdown, hup, hmerge, rfl⟩
    obtain ⟨memo, hsupports, hdown, hup⟩ := Crosses.exists_supports hedge hdown hup
    exact hsupports.yields (evaluate_edge_eq_ok hedge hdown hup hmerge)

/-- An edge refuses two parameters that its rule does not merge, for the reason of the rule. -/
theorem Crosses.refuses {e : EdgeId} {edge : Edge} (hedge : w.edge? e = some edge)
    {down up : Parameter} (hdown : w.Crosses edge .down down) (hup : w.Crosses edge .up up)
    {reason : Reason} (hmerge : edge.rule.merge down up = .error reason) :
    w.Refuses (.edge e) (.mismatch ⟨.edge edge.id, some edge.id, reason⟩) := by
  obtain ⟨memo, hsupports, hdown, hup⟩ := Crosses.exists_supports hedge hdown hup
  exact ⟨memo, hsupports, evaluate_edge_eq_error hedge hdown hup hmerge⟩

theorem Yields.edge_singleton {e : EdgeId} (h : w.Yields (.edge e) out) :
    ∃ value, out = [value] := by
  have hkey : e.index < w.edges.size := h.hasKey
  have hedge : w.edge? e = some w.edges[e.index] := Array.getElem?_eq_getElem hkey
  obtain ⟨_, _, value, _, _, _, rfl⟩ := (yields_edge_iff hedge).mp h
  exact ⟨value, rfl⟩

/-- What is read from an edge: its settled parameter, or what crosses it. -/
def Reads (w : Wiring) (direction : Direction) (resolved : Bool) (e : EdgeId) (value : Parameter) :
    Prop :=
  if resolved then w.Yields (.edge e) [value]
  else ∃ edge, w.edge? e = some edge ∧ w.Crosses edge direction value

variable {direction : Direction} {resolved : Bool} {edges : List EdgeId}

theorem Supports.readEdge_iff (h : w.Supports memo key)
    (hdeps : w.dependencies key = w.reads direction resolved edges) {e : EdgeId} (he : e ∈ edges)
    {value : Parameter} :
    w.readEdge memo direction resolved e = .ok value ↔ w.Reads direction resolved e value := by
  cases resolved with
  | true =>
      have hmem : .edge e ∈ w.dependencies key := by
        rw [hdeps]
        exact mem_reads_resolved.mpr ⟨e, he, rfl⟩
      simp only [readEdge, Reads, ↓reduceIte]
      rw [← h.values?_iff hmem, Memo.settled?]
      obtain ⟨values, hget, hyields⟩ := h _ hmem
      obtain ⟨settled, rfl⟩ := hyields.edge_singleton
      rw [Memo.values?, hget]
      simp [Entry.values?]
  | false =>
      simp only [readEdge, Reads, Bool.false_eq_true, ↓reduceIte]
      cases hedge : w.edge? e with
      | none => simp
      | some edge =>
          have hmem : emitter edge direction ∈ w.dependencies key := by
            rw [hdeps]
            exact mem_reads_emitted.mpr ⟨e, he, edge, hedge, rfl⟩
          simp [h.crossing_iff hmem]

theorem ready_of_reads (hdeps : w.dependencies key = w.reads direction resolved edges)
    (h : ∀ e ∈ edges, ∃ value, w.Reads direction resolved e value) : w.Ready key := by
  intro d hd
  rw [hdeps] at hd
  cases resolved with
  | true =>
      obtain ⟨e, he, rfl⟩ := mem_reads_resolved.mp hd
      obtain ⟨value, hvalue⟩ := h e he
      exact ⟨[value], hvalue⟩
  | false =>
      obtain ⟨e, he, edge, hedge, rfl⟩ := mem_reads_emitted.mp hd
      obtain ⟨value, edge', hedge', values, _, hvalues, _⟩ := h e he
      obtain rfl : edge = edge' := Option.some.inj (hedge.symm.trans hedge')
      exact ⟨values, hvalues⟩

/-- Computations over a list come to a list of results, one for each member. -/
theorem mapM_eq_ok_iff {α β ε : Type} {f : α → Except ε β} {xs : List α} {ys : List β} :
    xs.mapM f = .ok ys ↔ List.Forall₂ (fun x y => f x = .ok y) xs ys := by
  induction xs generalizing ys with
  | nil =>
      rw [List.forall₂_nil_left_iff]
      exact ⟨fun h => (Except.ok.inj h).symm, fun h => by rw [h]; rfl⟩
  | cons x xs ih =>
      rw [List.mapM_cons, bind_eq_ok_iff, List.forall₂_cons_left_iff]
      constructor
      · rintro ⟨y, hy, hrest⟩
        obtain ⟨others, hothers, hpair⟩ := exists_of_bind_eq_ok hrest
        cases hpair
        exact ⟨y, others, hy, ih.mp hothers, rfl⟩
      · rintro ⟨y, others, hy, hothers, rfl⟩
        refine ⟨y, hy, ?_⟩
        rw [ih.mpr hothers]
        rfl

theorem exists_of_forall₂ {α β : Type} {r : α → β → Prop} {xs : List α} {ys : List β}
    (h : List.Forall₂ r xs ys) {x : α} (hx : x ∈ xs) : ∃ y ∈ ys, r x y := by
  induction h with
  | nil => cases hx
  | @cons first y _ _ hfirst _ ih =>
      rcases List.mem_cons.mp hx with rfl | hmem
      · exact ⟨y, List.mem_cons_self, hfirst⟩
      · obtain ⟨z, hz, hrel⟩ := ih hmem
        exact ⟨z, List.mem_cons_of_mem _ hz, hrel⟩

theorem forall₂_congr_of_mem {α β : Type} {r s : α → β → Prop} {xs : List α} {ys : List β}
    (h : ∀ x ∈ xs, ∀ y, r x y ↔ s x y) : List.Forall₂ r xs ys ↔ List.Forall₂ s xs ys := by
  induction xs generalizing ys with
  | nil => simp
  | cons x xs ih =>
      have hrest := fun others => @ih others fun z hz => h z (List.mem_cons_of_mem _ hz)
      simp only [List.forall₂_cons_left_iff, h x List.mem_cons_self, hrest]

/-- What is read from several edges. -/
theorem Supports.mapM_readEdge_iff (h : w.Supports memo key)
    (hdeps : w.dependencies key = w.reads direction resolved edges) {read : List Parameter} :
    edges.mapM (w.readEdge memo direction resolved) = .ok read ↔
      List.Forall₂ (w.Reads direction resolved) edges read :=
  mapM_eq_ok_iff.trans (forall₂_congr_of_mem fun _ he _ => h.readEdge_iff hdeps he)

end Meaning

section Nodes

variable {n : NodeId} {node : Node} {direction : Direction} {out : List Parameter}

/-- A key without dependencies resolves to what it evaluates to, whatever is known. -/
theorem yields_iff_evaluate {key : FlowKey} (h : w.dependencies key = []) (memo : Memo) :
    w.Yields key out ↔ w.evaluate memo key = .ok out := by
  have hsupports : ∀ memo, w.Supports memo key := fun memo d hd => by
    rw [h] at hd
    cases hd
  rw [yields_iff]
  constructor
  · rintro ⟨other, hother, hresult⟩
    rw [(hsupports memo).evaluate_eq hother, hresult]
  · exact fun hresult => ⟨memo, hsupports memo, hresult⟩

section Statements

variable {name : String} {protocol : Protocol} {cardinality : Cardinality} {value : Parameter}

/-- A source emits its offer, if that fits the schema of its port. -/
theorem yields_offer_iff (hnode : w.node? n = some (.source name protocol cardinality value)) :
    w.Yields (.down n) out ↔ (protocol.schema .down).admits value = true ∧ out = [value] := by
  obtain ⟨slot, hslot, hkind⟩ := node?_eq_some.mp hnode
  have hdeps : w.dependencies (.down n) = [] := by
    rw [dependencies_down hslot, hkind]
    rfl
  have hports : slot.ports .output = [⟨"out", .output, protocol, cardinality⟩] := by
    rw [Slot.ports, hkind]
    rfl
  have hevaluate : w.evaluate (.blank 0 0) (.down n) = .ok out ↔
      checkEmitted (.down n) .down [value] (slot.ports .output) = .ok out := by
    rw [evaluate, mapError_eq_ok_iff]
    simp only [hslot, evaluateDown, downReadings, hkind]
    rfl
  rw [yields_iff_evaluate hdeps, hevaluate, hports, checkEmitted_singleton]
  simp

/-- A sink emits its demand, if that fits the schema of its port. -/
theorem yields_demand_iff (hwf : w.WellFormed)
    (hnode : w.node? n = some (.sink name protocol cardinality value)) :
    w.Yields (.up n) out ↔ (protocol.schema .up).admits value = true ∧ out = [value] := by
  obtain ⟨slot, hslot, hkind⟩ := node?_eq_some.mp hnode
  have hreads : slot.node.flow.reads .up = true := by
    rw [hkind]
    rfl
  have hagainst : slot.node.flow.readsAgainst .up = false := by
    rw [hkind]
    rfl
  have hsilent : slot.ports .output = [] := by
    rw [Slot.ports, hkind]
    rfl
  have hlists : slot.edges .output = [] := by
    have hlength := hwf.tabled hslot .output
    rw [hsilent] at hlength
    exact List.eq_nil_of_length_eq_zero hlength
  have hdeps : w.dependencies (Direction.up.key n) = [] := by
    rw [dependencies_key hslot hreads hagainst, Direction.arrival, hlists, hkind]
    rfl
  have hports : slot.ports .input = [⟨"in", .input, protocol, cardinality⟩] := by
    rw [Slot.ports, hkind]
    rfl
  have hgather : ∀ memo resolved, w.gather memo slot .output .up resolved = .ok [] := by
    intro memo resolved
    rw [gather, hsilent]
    rfl
  have hemit : ∀ readings, slot.node.emit .up readings = .ok [value] := fun readings => by
    rw [hkind]
    rfl
  change w.Yields (Direction.up.key n) out ↔ _
  rw [yields_iff_evaluate hdeps (.blank 0 0), evaluate_key_eq_ok_iff hslot hreads hagainst]
  simp [Direction.arrival, Direction.departure, hgather, hemit, hports, checkEmitted_singleton]

/-- What a node states in a direction is what it emits, if that fits the schema of its port. -/
theorem yields_statement_iff (hwf : w.WellFormed) (hnode : w.node? n = some node)
    (hstates : node.statement? direction = some (protocol, value)) :
    w.Yields (direction.key n) out ↔
      (protocol.schema direction).admits value = true ∧ out = [value] := by
  cases node with
  | source name own cardinality offer =>
      cases direction with
      | up => cases hstates
      | down =>
          cases hstates
          exact yields_offer_iff hnode
  | sink name own cardinality demand =>
      cases direction with
      | down => cases hstates
      | up =>
          cases hstates
          exact yields_demand_iff hwf hnode
  | _ => cases hstates

end Statements

variable {name : String} {mode : GroupMode} {protocol : Protocol} {count : Nat} {policy : Policy}
  {edges : List EdgeId}

theorem single_eq_ok_iff {read : List Parameter} {feedback : List (List Parameter)}
    {value : Parameter} : Readings.single ⟨[read], feedback⟩ 0 = .ok value ↔ read = [value] := by
  refine ⟨single_ok, ?_⟩
  rintro rfl
  rfl

/-- A nexus passes on the one value of its single side, and reduces those of its many side. -/
theorem emit_nexus_iff {read : List Parameter} {feedback : List (List Parameter)}
    {value : Parameter} :
    (Node.nexus name mode protocol count policy).emit direction ⟨[read], feedback⟩ = .ok [value] ↔
      if direction = mode.forward then read = [value] else policy.reduce read = .ok value := by
  have hsingle : (Readings.single ⟨[read], feedback⟩ 0).map ([·]) = .ok [value] ↔
      read = [value] := map_singleton_eq_ok_iff.trans single_eq_ok_iff
  have haggregate : (Node.aggregate policy read).map ([·]) = .ok [value] ↔
      policy.reduce read = .ok value := map_singleton_eq_ok_iff.trans mapError_eq_ok_iff
  cases mode <;> cases direction
  · exact hsingle
  · exact haggregate
  · exact haggregate
  · exact hsingle

/-- A node with one port on either side emits what it makes of what it reads from the edges of the
one, if that fits the schema of the other. -/
theorem yields_single_iff (hwf : w.WellFormed) (hnode : w.node? n = some node)
    (hreads : node.flow.reads direction = true)
    (hagainst : node.flow.readsAgainst direction = false) {arrival departure : PortSpec}
    (harrival : node.sidePorts direction.arrival = [arrival])
    (hdeparture : node.sidePorts direction.departure = [departure])
    (hedges : w.portEdges ⟨n, direction.arrival, 0⟩ = edges) (hne : edges ≠ []) :
    w.Yields (direction.key n) out ↔ ∃ read value,
      List.Forall₂ (w.Reads direction (node.flow.readsSettled direction)) edges read ∧
      node.emit direction ⟨[read], [[]]⟩ = .ok [value] ∧
      (departure.protocol.schema direction).admits value = true ∧ out = [value] := by
  obtain ⟨slot, hslot, rfl⟩ := node?_eq_some.mp hnode
  have hlists : slot.edges direction.arrival = [edges] := by
    rw [edges_singleton harrival (hwf.tabled hslot _), ← hedges, portEdges, hslot]
    rfl
  have hports : slot.ports direction.departure = [departure] := hdeparture
  have hunread : unread slot direction.departure = [[]] := by
    rw [unread, hports]
    rfl
  have hdeps : w.dependencies (direction.key n) =
      w.reads direction (slot.node.flow.readsSettled direction) edges := by
    rw [dependencies_key hslot hreads hagainst, hlists, List.flatten_singleton]
  have hevaluate : ∀ memo, w.evaluate memo (direction.key n) = .ok out ↔ ∃ read value,
      edges.mapM (w.readEdge memo direction (slot.node.flow.readsSettled direction)) = .ok read ∧
      slot.node.emit direction ⟨[read], [[]]⟩ = .ok [value] ∧
      (departure.protocol.schema direction).admits value = true ∧ out = [value] := by
    intro memo
    rw [evaluate_key_eq_ok_iff hslot hreads hagainst, hunread, hports]
    simp only [gather_singleton harrival hlists hne, checkEmitted_singleton]
    constructor
    · rintro ⟨_, _, ⟨read, rfl, hread⟩, hvalues, value, rfl, hadmits, hout⟩
      exact ⟨read, value, hread, hvalues, hadmits, hout⟩
    · rintro ⟨read, value, hread, hvalues, hadmits, hout⟩
      exact ⟨_, _, ⟨read, rfl, hread⟩, hvalues, value, rfl, hadmits, hout⟩
  constructor
  · intro h
    obtain ⟨memo, hsupports, hresult⟩ := yields_iff.mp h
    obtain ⟨read, value, hread, hrest⟩ := (hevaluate memo).mp hresult
    exact ⟨read, value, (hsupports.mapM_readEdge_iff hdeps).mp hread, hrest⟩
  · rintro ⟨read, value, hread, hrest⟩
    have hready : w.Ready (direction.key n) := by
      refine ready_of_reads hdeps fun e he => ?_
      obtain ⟨value, _, hvalue⟩ := exists_of_forall₂ hread he
      exact ⟨value, hvalue⟩
    obtain ⟨memo, hsupports⟩ := hready.exists_supports
    exact hsupports.yields
      ((hevaluate memo).mpr ⟨read, value, (hsupports.mapM_readEdge_iff hdeps).mpr hread, hrest⟩)

/-- A nexus emits what it makes of what it reads from its edges. -/
theorem yields_nexus_iff (hwf : w.WellFormed)
    (hnode : w.node? n = some (.nexus name mode protocol count policy))
    (hedges : w.portEdges ⟨n, direction.arrival, 0⟩ = edges) (hne : edges ≠ []) :
    w.Yields (direction.key n) out ↔ ∃ read value,
      List.Forall₂ (w.Reads direction (direction = mode.forward)) edges read ∧
      (if direction = mode.forward then read = [value] else policy.reduce read = .ok value) ∧
      (protocol.schema direction).admits value = true ∧ out = [value] := by
  have hreads : (Node.nexus name mode protocol count policy).flow.reads direction = true := by
    cases mode <;> cases direction <;> rfl
  have hagainst :
      (Node.nexus name mode protocol count policy).flow.readsAgainst direction = false := by
    cases mode <;> cases direction <;> rfl
  have hsettled : (Node.nexus name mode protocol count policy).flow.readsSettled direction =
      decide (direction = mode.forward) := by
    cases mode <;> cases direction <;> rfl
  have hports : ∀ side, ∃ spec,
      (Node.nexus name mode protocol count policy).sidePorts side = [spec] ∧
        spec.protocol = protocol := by
    intro side
    cases mode <;> cases side <;> exact ⟨_, rfl, rfl⟩
  obtain ⟨arrival, harrival, _⟩ := hports direction.arrival
  obtain ⟨departure, hdeparture, rfl⟩ := hports direction.departure
  rw [yields_single_iff hwf hnode hreads hagainst harrival hdeparture hedges hne, hsettled]
  simp only [emit_nexus_iff]

/-- A node that passes parameters through emits the one value that it reads. -/
theorem yields_identity_iff (hwf : w.WellFormed)
    (hnode : w.node? n = some (.identity name protocol)) {e : EdgeId} {edge : Edge}
    (hedge : w.edge? e = some edge) (hedges : w.portEdges ⟨n, direction.arrival, 0⟩ = [e]) :
    w.Yields (direction.key n) out ↔ ∃ value, w.Crosses edge direction value ∧
      (protocol.schema direction).admits value = true ∧ out = [value] := by
  have hports : ∀ side, ∃ spec, (Node.identity name protocol).sidePorts side = [spec] ∧
      spec.protocol = protocol := by
    intro side
    cases side <;> exact ⟨_, rfl, rfl⟩
  have hreads : (Node.identity name protocol).flow.reads direction = true := by
    cases direction <;> rfl
  have hagainst : (Node.identity name protocol).flow.readsAgainst direction = false := by
    cases direction <;> rfl
  have hsettled : (Node.identity name protocol).flow.readsSettled direction = false := by
    cases direction <;> rfl
  have hemit : ∀ read value, (Node.identity name protocol).emit direction ⟨[read], [[]]⟩ =
      .ok [value] ↔ read = [value] := by
    intro read value
    cases direction <;> exact map_singleton_eq_ok_iff.trans single_eq_ok_iff
  obtain ⟨arrival, harrival, _⟩ := hports direction.arrival
  obtain ⟨departure, hdeparture, rfl⟩ := hports direction.departure
  rw [yields_single_iff hwf hnode hreads hagainst harrival hdeparture hedges (List.cons_ne_nil _ _),
    hsettled]
  have hread : ∀ value, w.Reads direction false e value ↔ w.Crosses edge direction value := by
    intro value
    simp only [Reads, Bool.false_eq_true, ↓reduceIte, hedge, Option.some.injEq, exists_eq_left']
  simp only [hemit]
  constructor
  · rintro ⟨_, value, hforall, rfl, hrest⟩
    cases hforall with
    | cons hfirst _ => exact ⟨value, (hread value).mp hfirst, hrest⟩
  · rintro ⟨value, hcrosses, hrest⟩
    exact ⟨[value], value, .cons ((hread value).mpr hcrosses) .nil, rfl, hrest⟩

end Nodes

end Wiring

end Negotiation
