import Negotiation.Proofs.Attachment
import Negotiation.Proofs.OrderIndependence
import Negotiation.Proofs.Reached

/-!
What freezing requires.

A graph is frozen if every edge resolves, every port has as many edges as it wants, and, where the
settings ask for it, no interior node stands alone and every edge is reachable (`Graph.Fulfilled`).
Otherwise freezing reports each failure to resolve once, and one violation for each requirement
that is not met (`Graph.freeze_reports`).
-/

namespace Negotiation

open Relation

namespace Wiring

def portsAt (w : Wiring) (n : NodeId) (side : Side) : List (Port × PortSpec) :=
  ((w.node? n).elim [] (·.sidePorts side)).zipIdx.map fun entry => (⟨n, side, entry.2⟩, entry.1)

/-- The declared ports, node by node, inputs first. -/
def ports (w : Wiring) : List (Port × PortSpec) :=
  w.nodeIds.flatMap fun n => w.portsAt n .input ++ w.portsAt n .output

section Ports

variable {w : Wiring} {n : NodeId} {side : Side} {port : Port} {spec : PortSpec}

theorem mem_portsAt_iff :
    (port, spec) ∈ w.portsAt n side ↔
      (port.node = n ∧ port.side = side) ∧ w.spec? port = some spec := by
  obtain ⟨node, own, index⟩ := port
  simp only [portsAt, List.mem_map, Prod.exists, List.mem_zipIdx_iff_getElem?, Prod.mk.injEq,
    Port.mk.injEq, spec?]
  constructor
  · rintro ⟨found, i, hfound, ⟨rfl, rfl, rfl⟩, rfl⟩
    cases hnode : w.node? n with
    | none =>
        rw [hnode] at hfound
        cases hfound
    | some node =>
        rw [hnode] at hfound
        exact ⟨⟨rfl, rfl⟩, hfound⟩
  · rintro ⟨⟨rfl, rfl⟩, hspec⟩
    obtain ⟨found, hnode, hfound⟩ := Option.bind_eq_some_iff.mp hspec
    refine ⟨spec, index, ?_, ⟨rfl, rfl, rfl⟩, rfl⟩
    rw [hnode]
    exact hfound

theorem mem_nodeIds_iff : n ∈ w.nodeIds ↔ n.index < w.slots.size := by
  simp only [nodeIds, List.mem_map, List.mem_range]
  constructor
  · rintro ⟨i, hi, rfl⟩
    exact hi
  · intro hn
    exact ⟨n.index, hn, rfl⟩

theorem index_of_node? {node : Node} (h : w.node? n = some node) : n.index < w.slots.size := by
  obtain ⟨slot, hslot, _⟩ := node?_eq_some.mp h
  exact (Array.getElem?_eq_some_iff.mp hslot).1

theorem mem_ports_iff : (port, spec) ∈ w.ports ↔ w.spec? port = some spec := by
  simp only [ports, List.mem_flatMap, List.mem_append, mem_portsAt_iff]
  constructor
  · rintro ⟨n, _, ⟨_, hspec⟩ | ⟨_, hspec⟩⟩
    · exact hspec
    · exact hspec
  · intro hspec
    obtain ⟨node, hnode, _⟩ := Option.bind_eq_some_iff.mp hspec
    refine ⟨port.node, mem_nodeIds_iff.mpr (index_of_node? hnode), ?_⟩
    cases hside : port.side with
    | input => exact .inl ⟨⟨rfl, rfl⟩, hspec⟩
    | output => exact .inr ⟨⟨rfl, rfl⟩, hspec⟩

theorem nodup_nodeIds (w : Wiring) : w.nodeIds.Nodup :=
  List.nodup_range.map fun _ _ h => congrArg NodeId.index h

theorem nodup_portsAt (w : Wiring) (n : NodeId) (side : Side) : (w.portsAt n side).Nodup := by
  refine List.Nodup.of_map (fun entry => entry.1.index) ?_
  rw [portsAt, List.map_map]
  exact (List.zipIdx_map_snd 0 _).symm ▸ List.nodup_range'

theorem nodup_ports (w : Wiring) : w.ports.Nodup := by
  refine List.nodup_flatMap.mpr ⟨fun n _ => ?_, w.nodup_nodeIds.imp fun hne => ?_⟩
  · refine (w.nodup_portsAt n .input).append (w.nodup_portsAt n .output) ?_
    rintro ⟨port, spec⟩ hin hout
    have hinput := (mem_portsAt_iff.mp hin).1.2
    rw [(mem_portsAt_iff.mp hout).1.2] at hinput
    cases hinput
  · have hnode : ∀ {m : NodeId} {entry : Port × PortSpec},
        entry ∈ w.portsAt m .input ++ w.portsAt m .output → entry.1.node = m := by
      rintro m ⟨port, spec⟩ hmem
      rcases List.mem_append.mp hmem with h | h
      · exact (mem_portsAt_iff.mp h).1.1
      · exact (mem_portsAt_iff.mp h).1.1
    exact fun entry hleft hright => hne ((hnode hleft).symm.trans (hnode hright))

end Ports

/-- Whether a port has fewer edges than it wants. -/
def lacks (w : Wiring) (port : Port × PortSpec) : Bool :=
  w.connectionCount port.1 < port.2.cardinality.min

/-- The number of edges at a port, as a violation. -/
def shortfall (w : Wiring) (port : Port × PortSpec) : Violation :=
  .cardinality port.1 port.2.name (w.connectionCount port.1) port.2.cardinality

/-- No edge leads from the node or to it. -/
def Isolated (w : Wiring) (n : NodeId) : Prop :=
  ∀ m, ¬ w.Feeds n m ∧ ¬ w.Feeds m n

end Wiring

namespace Violation

/-- The place of the kind of a violation in a report. -/
def rank : Violation → Nat
  | .resolution _ => 0
  | .unresolved _ _ => 1
  | .cardinality _ _ _ _ => 2
  | .orphan _ _ => 3
  | .unreachable _ => 4

/-- Violations of one kind do not repeat any of other kinds. -/
theorem nodup_append_of_rank {xs ys : List Violation} {k : Nat}
    (hxs : xs.Nodup ∧ ∀ v ∈ xs, v.rank < k) (hys : ys.Nodup) (hrank : ∀ v ∈ ys, v.rank = k) :
    (xs ++ ys).Nodup ∧ ∀ v ∈ xs ++ ys, v.rank < k + 1 := by
  refine ⟨hxs.1.append hys fun v hx hy => ?_, fun v hv => ?_⟩
  · exact Nat.ne_of_lt (hxs.2 v hx) (hrank v hy)
  · rcases List.mem_append.mp hv with hx | hy
    · exact Nat.lt_succ_of_lt (hxs.2 v hx)
    · exact (hrank v hy) ▸ Nat.lt_succ_self k

end Violation

namespace Graph

/-- An interior node that was not declared a root and to which no edge is attached. -/
def IsStray (g : Graph) (n : NodeId) : Prop :=
  (∃ node, g.wiring.node? n = some node ∧ node.role = .interior) ∧ n ∉ g.markedRoots ∧
    g.wiring.Isolated n

/-- A root drives the node that the edge leaves, or the node at which it arrives drives a root. -/
def IsDriven (g : Graph) (e : EdgeId) : Prop :=
  ∃ edge, g.wiring.edge? e = some edge ∧ ∃ root ∈ g.roots,
    ReflTransGen g.wiring.Feeds root edge.output.node ∨
      ReflTransGen g.wiring.Feeds edge.input.node root

/-- What freezing requires of a graph. -/
structure Fulfilled (g : Graph) : Prop where
  resolves : ∀ e ∈ g.wiring.edgeIds, g.wiring.Resolvable (.edge e)
  counts : ∀ port spec, g.wiring.spec? port = some spec →
    spec.cardinality.contains (g.wiring.connectionCount port) = true
  attached : g.settings.orphans = .error → ∀ n, ¬ g.IsStray n
  driven : g.settings.strictReachability = true → ∀ e ∈ g.wiring.edgeIds, g.IsDriven e

open Classical in
/-- What a graph does not fulfil, in the order in which it is reported. -/
noncomputable def unmet (g : Graph) : List Violation :=
  g.resolveAll.1.map .resolution ++
    (g.wiring.edgeIds.filter fun e => ¬ g.wiring.Resolvable (.edge e)).map
      (.unresolved · .failed) ++
    (g.wiring.ports.filter g.wiring.lacks).map g.wiring.shortfall ++
    (if g.settings.orphans = .error then
      (g.wiring.nodeIds.filter fun n => g.IsStray n).map fun n =>
        .orphan n ((g.nodeName? n).getD "")
      else []) ++
    if g.settings.strictReachability then
      (g.wiring.edgeIds.filter fun e => ¬ g.IsDriven e).map .unreachable
      else []

section Lists

variable {α β : Type}

/-- What is kept of a list, and its image. -/
theorem filterMap_eq_map_filter {f : α → Option β} {p : α → Bool} {image : α → β} {xs : List α}
    (h : ∀ x ∈ xs, f x = if p x then some (image x) else none) :
    xs.filterMap f = (xs.filter p).map image := by
  induction xs with
  | nil => rfl
  | cons x rest ih =>
      obtain ⟨hx, hrest⟩ := List.forall_mem_cons.mp h
      rw [List.filterMap_cons, hx, List.filter_cons, ih hrest]
      cases p x <;> rfl

/-- What was collected of some failures: each once, where it was met first. -/
theorem foldl_addDistinct (errors : List ResolveError) :
    errors.foldl addDistinct [] = errors.eraseDups := by
  induction errors using List.reverseRecOn with
  | nil => rfl
  | append_singleton errors error ih =>
      rw [List.foldl_append, ih, List.eraseDups_append, List.foldl_cons, List.foldl_nil,
        addDistinct]
      by_cases hmem : error ∈ errors
      · simp [List.removeAll, hmem]
      · simp [List.removeAll, hmem, List.eraseDups_cons]

theorem nodup_foldl_addDistinct (errors : List ResolveError) {found : List ResolveError}
    (h : found.Nodup) : (errors.foldl addDistinct found).Nodup := by
  induction errors generalizing found with
  | nil => exact h
  | cons error rest ih =>
      refine ih ?_
      rw [addDistinct]
      split
      · exact h
      · rename_i hnew
        refine h.append (List.nodup_singleton error) fun other hother hsame => hnew ?_
        rw [← List.mem_singleton.mp hsame]
        exact hother

end Lists

section Parts

variable {g : Graph}

theorem portViolations_eq {w : Wiring} {n : NodeId} {side : Side} {specs : List PortSpec}
    {lists : List (List EdgeId)} {index : Nat} (hlength : lists.length = specs.length)
    (h : ∀ i spec edges, specs[i]? = some spec → lists[i]? = some edges →
      w.connectionCount ⟨n, side, index + i⟩ = edges.length ∧
        spec.cardinality.contains edges.length = !w.lacks (⟨n, side, index + i⟩, spec)) :
    portViolations n side index (specs.zip lists) =
      (((specs.zipIdx index).map fun entry => (⟨n, side, entry.2⟩, entry.1)).filter w.lacks).map
        w.shortfall := by
  induction specs generalizing lists index with
  | nil => rfl
  | cons spec rest ih =>
      cases lists with
      | nil => cases hlength
      | cons edges others =>
          obtain ⟨hcount, hcontains⟩ := h 0 spec edges rfl rfl
          have hrest := @ih others (index + 1) (Nat.succ.inj hlength)
            fun i spec edges hspec hedges => by
              rw [Nat.add_assoc, Nat.add_comm 1]
              exact h (i + 1) spec edges hspec hedges
          rw [Nat.add_zero] at hcount hcontains
          rw [List.zip_cons_cons, portViolations, hrest, List.zipIdx_cons, List.map_cons,
            List.filter_cons, hcontains]
          cases hlacks : w.lacks (⟨n, side, index⟩, spec) with
          | false => simp
          | true => simp [Wiring.shortfall, hcount]

/-- A port never has too many edges: it has the wrong number if and only if it lacks some. -/
theorem contains_eq_not_lacks (horderly : g.wiring.Orderly) {port : Port} {spec : PortSpec}
    (hspec : g.wiring.spec? port = some spec) :
    spec.cardinality.contains (g.wiring.connectionCount port) = !g.wiring.lacks (port, spec) := by
  have hbounded := horderly.bounded hspec
  rw [← Wiring.connectionCount_eq] at hbounded
  rw [Bool.eq_iff_iff, Cardinality.contains_iff, and_iff_left hbounded, Wiring.lacks]
  simp

/-- The ports with the wrong number of edges are those with too few. -/
theorem cardinalityViolations_eq (hwf : g.wiring.WellFormed) (horderly : g.wiring.Orderly) :
    g.cardinalityViolations = (g.wiring.ports.filter g.wiring.lacks).map g.wiring.shortfall := by
  rw [cardinalityViolations, Wiring.ports, List.filter_flatMap, List.map_flatMap]
  refine List.flatMap_congr fun n _ => ?_
  cases hslot : g.wiring.slot? n with
  | none => simp [Wiring.portsAt, Wiring.node?, hslot]
  | some slot =>
      have hside : ∀ side, portViolations n side 0 ((slot.ports side).zip (slot.edges side)) =
          ((g.wiring.portsAt n side).filter g.wiring.lacks).map g.wiring.shortfall := by
        intro side
        rw [portViolations_eq (hwf.tabled hslot side), Wiring.portsAt, Wiring.node?, hslot]
        · rfl
        · intro i spec edges hspec hedges
          have hcount : g.wiring.connectionCount ⟨n, side, i⟩ = edges.length := by
            rw [Wiring.connectionCount, hslot]
            simp only [Slot.portEdges, hedges, Option.getD_some]
          have hport : g.wiring.spec? ⟨n, side, i⟩ = some spec := by
            rw [Wiring.spec?, Wiring.node?, hslot]
            exact hspec
          rw [Nat.zero_add, ← hcount]
          exact ⟨rfl, contains_eq_not_lacks horderly hport⟩
      rw [List.filter_append, List.map_append, ← hside, ← hside]
      rfl

open Classical in
theorem unresolvedViolations_eq (hsound : g.Sound) (hcomplete : g.Complete) :
    g.unresolvedViolations =
      (g.wiring.edgeIds.filter fun e => ¬ g.wiring.Resolvable (.edge e)).map
        (.unresolved · .failed) := by
  refine filterMap_eq_map_filter fun e he => ?_
  have hkey := mem_edgeIds.mp he
  rcases hsound.settles hkey (hcomplete e hkey) with ⟨hyes, hprogress, _⟩ | ⟨hno, hprogress, _⟩
  · simp [hyes, hprogress]
  · simp [hno, hprogress]

theorem isOrphan_iff (hwf : g.wiring.WellFormed) {n : NodeId} :
    g.isOrphan n = true ↔ g.IsStray n := by
  rw [isOrphan, IsStray, Wiring.node?]
  cases hslot : g.wiring.slot? n with
  | none => simp
  | some slot =>
      have halone : slot.connectionCount = 0 ↔ g.wiring.Isolated n := by
        rw [Slot.connectionCount, Nat.add_eq_zero_iff, List.length_eq_zero_iff,
          List.length_eq_zero_iff, List.eq_nil_iff_forall_not_mem, List.eq_nil_iff_forall_not_mem]
        simp only [hwf.mem_inward hslot, hwf.mem_outward hslot, Wiring.Isolated, Wiring.Feeds]
        grind
      simp [halone, and_assoc]

theorem edge_reachability_iff (hwf : g.wiring.WellFormed) {e : EdgeId} (he : e ∈ g.wiring.edgeIds) :
    g.reachability.edge e = true ↔ g.IsDriven e := by
  have hlt : e.index < g.wiring.edges.size := mem_edgeIds.mp he
  have hedge : g.wiring.edge? e = some g.wiring.edges[e.index] := Array.getElem?_eq_getElem hlt
  rw [reachability, Reachability.edge_ofRoots_iff hwf hedge, IsDriven]
  simp only [hedge, Option.some.injEq, exists_eq_left']

open Classical in
theorem orphanViolations_eq (hwf : g.wiring.WellFormed) :
    g.orphanViolations = if g.settings.orphans = .error then
      (g.wiring.nodeIds.filter fun n => g.IsStray n).map fun n =>
        .orphan n ((g.nodeName? n).getD "")
      else [] := by
  have hfilter : g.wiring.nodeIds.filter g.isOrphan =
      g.wiring.nodeIds.filter fun n => g.IsStray n := by
    refine List.filter_congr fun n _ => ?_
    rw [Bool.eq_iff_iff, isOrphan_iff hwf, decide_eq_true_iff]
  rw [orphanViolations]
  cases g.settings.orphans with
  | error => simp [orphans, hfilter]
  | warn => rfl

open Classical in
theorem unreachableViolations_eq (hwf : g.wiring.WellFormed) :
    g.unreachableViolations g.reachability = if g.settings.strictReachability then
      (g.wiring.edgeIds.filter fun e => ¬ g.IsDriven e).map .unreachable else [] := by
  have hfilter : g.unreachableEdges g.reachability =
      g.wiring.edgeIds.filter fun e => ¬ g.IsDriven e := by
    refine List.filter_congr fun e he => ?_
    rw [Bool.eq_iff_iff, decide_eq_true_iff, ← edge_reachability_iff hwf he, Bool.not_eq_true',
      Bool.not_eq_true]
  rw [unreachableViolations, hfilter]

/-- It makes no difference whether the graph is sealed before every edge is resolved. -/
theorem resolveAll_sealWiring (g : Graph) : g.sealWiring.resolveAll.1 = g.resolveAll.1 := by
  have hseal : g.sealWiring.sealWiring = g.sealWiring := by
    rw [sealWiring, sealWiring_ledger]
  have hdemand : ∀ key, g.sealWiring.demand key = g.demand key := fun key => by
    rw [demand, hseal, ← demand]
  rw [resolveAll, resolveAll, progresses_sealWiring.wiring]
  cases g.wiring.edgeIds with
  | nil => rfl
  | cons e rest => rw [demandEdges_cons, demandEdges_cons, hdemand]

end Parts

section Verdict

variable {g : Graph}

theorem failures_freeze (hg : g.Reachable) (hfrozen : g.frozen = none) :
    g.freeze.2.failures = g.resolveAll.1 := by
  obtain ⟨_, _, _, herrors, _⟩ := settleAll_spec hg.sound.settled
  obtain ⟨_, journal, hafter⟩ := freeze_eq hg.sound.settled hfrozen
  rw [← resolveAll_sealWiring, herrors, hafter]
  exact failures_with _ _

/-- What freezing finds. -/
theorem violations_eq (hg : g.Reachable) (hfrozen : g.frozen = none) :
    g.freeze.2.violations g.freeze.2.failures g.freeze.2.reachability = g.unmet := by
  obtain ⟨hsound, hcomplete, hprogress, _⟩ := hg.sound.freeze_spec
  have hwf := hg.sound.wellFormed
  obtain ⟨hreach, hcardinality, horphans, hunreachable⟩ :=
    requirements_eq hprogress.wiring hprogress.markedRoots hprogress.settings
  rw [violations, failures_freeze hg hfrozen, unresolvedViolations_eq hsound hcomplete,
    hprogress.wiring, hreach, hcardinality, horphans, hunreachable,
    cardinalityViolations_eq hwf hg.orderly, orphanViolations_eq hwf, unreachableViolations_eq hwf,
    unmet]

/-- The failures that resolving every edge reports are those that the edges keep once the graph was
frozen, each once, in the order of the edges. -/
theorem resolveAll_eq (hg : g.Reachable) (hfrozen : g.frozen = none) :
    g.resolveAll.1 = (g.wiring.edgeIds.filterMap g.freeze.2.failure?).eraseDups := by
  obtain ⟨_, _, hprogress, _⟩ := hg.sound.freeze_spec
  rw [← failures_freeze hg hfrozen, failures, foldl_addDistinct, hprogress.wiring]

/-- What has become of an edge once the graph was frozen. -/
theorem settles_freeze (hg : g.Reachable) {e : EdgeId} (he : e ∈ g.wiring.edgeIds) :
    g.wiring.Resolvable (.edge e) ∧ g.freeze.2.progress (.edge e) = .resolved ∧
        g.freeze.2.failure? e = none ∨
      ¬ g.wiring.Resolvable (.edge e) ∧ g.freeze.2.progress (.edge e) = .failed ∧
        ∃ error, g.freeze.2.failure? e = some error := by
  obtain ⟨hsound, hcomplete, hprogress, _⟩ := hg.sound.freeze_spec
  have hkey : g.freeze.2.wiring.HasKey (.edge e) := hprogress.wiring.symm ▸ mem_edgeIds.mp he
  have hsettles := hsound.settles hkey (hcomplete e hkey)
  rw [hprogress.wiring] at hsettles
  exact hsettles

open Classical in
/-- Nothing is reported if and only if every requirement is fulfilled. -/
theorem unmet_eq_nil_iff (hg : g.Reachable) (hfrozen : g.frozen = none) :
    g.unmet = [] ↔ g.Fulfilled := by
  simp only [unmet, List.append_eq_nil_iff, List.map_eq_nil_iff, List.filter_eq_nil_iff,
    decide_eq_true_iff, not_not, and_assoc]
  constructor
  · rintro ⟨_, hresolves, hcounts, hattached, hdriven⟩
    refine ⟨hresolves, fun port spec hspec => ?_, fun hrule n hstray => ?_, fun hstrict => ?_⟩
    · rw [contains_eq_not_lacks hg.orderly hspec, Bool.not_eq_true', ← Bool.not_eq_true]
      exact hcounts (port, spec) (Wiring.mem_ports_iff.mpr hspec)
    · rw [if_pos hrule, List.map_eq_nil_iff, List.filter_eq_nil_iff] at hattached
      obtain ⟨node, hnode, _⟩ := hstray.1
      exact hattached n (Wiring.mem_nodeIds_iff.mpr (Wiring.index_of_node? hnode))
        (decide_eq_true hstray)
    · rw [if_pos hstrict, List.map_eq_nil_iff, List.filter_eq_nil_iff] at hdriven
      exact fun e he => by simpa using hdriven e he
  · intro h
    refine ⟨?_, h.resolves, ?_, ?_, ?_⟩
    · have hnone : g.wiring.edgeIds.filterMap g.freeze.2.failure? = [] := by
        refine List.filterMap_eq_nil_iff.mpr fun e he => ?_
        rcases settles_freeze hg he with ⟨_, _, hnone⟩ | ⟨hnot, _⟩
        · exact hnone
        · exact absurd (h.resolves e he) hnot
      rw [resolveAll_eq hg hfrozen, hnone]
      rfl
    · rintro ⟨port, spec⟩ hmem
      have hspec := Wiring.mem_ports_iff.mp hmem
      rw [Bool.not_eq_true, ← Bool.not_eq_true', ← contains_eq_not_lacks hg.orderly hspec]
      exact h.counts port spec hspec
    · split
      · rename_i hrule
        rw [List.map_eq_nil_iff, List.filter_eq_nil_iff]
        exact fun n _ hstray => h.attached hrule n (of_decide_eq_true hstray)
      · rfl
    · split
      · rename_i hstrict
        rw [List.map_eq_nil_iff, List.filter_eq_nil_iff]
        exact fun e he hnot => of_decide_eq_true hnot (h.driven hstrict e he)
      · rfl

theorem nodup_unmet (hg : g.Reachable) (hfrozen : g.frozen = none) : g.unmet.Nodup := by
  have hedges : g.wiring.edgeIds.Nodup := List.nodup_range.map fun _ _ h => congrArg EdgeId.index h
  have hresolution : (g.resolveAll.1.map Violation.resolution).Nodup := by
    rw [← failures_freeze hg hfrozen]
    exact (nodup_foldl_addDistinct _ List.nodup_nil).map fun _ _ h => Violation.resolution.inj h
  have hshortfall : ((g.wiring.ports.filter g.wiring.lacks).map g.wiring.shortfall).Nodup := by
    refine (g.wiring.nodup_ports.filter _).map_on ?_
    rintro ⟨port, spec⟩ hmem ⟨port', spec'⟩ hmem' hsame
    obtain rfl : port = port' := (Violation.cardinality.inj hsame).1
    have hspec := Wiring.mem_ports_iff.mp (List.mem_of_mem_filter hmem)
    have hspec' := Wiring.mem_ports_iff.mp (List.mem_of_mem_filter hmem')
    rw [Option.some.inj (hspec.symm.trans hspec')]
  rw [unmet]
  refine (Violation.nodup_append_of_rank (k := 4) (Violation.nodup_append_of_rank
    (Violation.nodup_append_of_rank (Violation.nodup_append_of_rank ⟨hresolution, ?_⟩ ?_ ?_)
      hshortfall ?_) ?_ ?_) ?_ ?_).1
  · exact List.forall_mem_map.mpr fun _ _ => Nat.zero_lt_one
  · exact (hedges.filter _).map fun _ _ h => (Violation.unresolved.inj h).1
  · exact List.forall_mem_map.mpr fun _ _ => rfl
  · exact List.forall_mem_map.mpr fun _ _ => rfl
  · split
    · exact (g.wiring.nodup_nodeIds.filter _).map fun _ _ h => (Violation.orphan.inj h).1
    · exact List.nodup_nil
  · split
    · exact List.forall_mem_map.mpr fun _ _ => rfl
    · exact fun v hv => absurd hv List.not_mem_nil
  · split
    · exact (hedges.filter _).map fun _ _ h => Violation.unreachable.inj h
    · exact List.nodup_nil
  · split
    · exact List.forall_mem_map.mpr fun _ _ => rfl
    · exact fun v hv => absurd hv List.not_mem_nil

/-- What freezing a graph that was not handed out reports.  It hands the graph out if and only if
every requirement is fulfilled, and otherwise lists what is not, without repetition: the failures
to resolve that resolving every edge reports, the edges that do not resolve, the ports with too few
edges, and, as far as the settings ask for it, the stray nodes and the edges that no root
reaches.  Afterwards every edge is resolved or has failed, and the failure of each is among those
reported. -/
theorem freeze_reports (hg : g.Reachable) (hfrozen : g.frozen = none) :
    ((∃ bound, g.freeze.1 = .ok bound) ↔ g.Fulfilled) ∧
      (∀ found, g.freeze.1 = .error found → found = g.unmet ∧ found.Nodup) ∧
      g.resolveAll.1 = (g.wiring.edgeIds.filterMap g.freeze.2.failure?).eraseDups ∧
      (∀ port spec, g.wiring.spec? port = some spec → ∀ max, spec.cardinality.max = some max →
        g.wiring.connectionCount port ≤ max) ∧
      ∀ e ∈ g.wiring.edgeIds, g.freeze.2.progress (.edge e) = .resolved ∨
        g.freeze.2.progress (.edge e) = .failed ∧ ∃ error, g.freeze.2.failure? e = some error ∧
          ∀ found, g.freeze.1 = .error found → .resolution error ∈ found := by
  obtain ⟨_, _, _, hverdict⟩ := hg.sound.freeze_spec
  rw [verdict, violations_eq hg hfrozen] at hverdict
  have hfound : ∀ found, g.freeze.1 = .error found → found = g.unmet := by
    intro found h
    rw [hverdict] at h
    split at h
    · cases h
    · exact (Except.error.inj h).symm
  refine ⟨?_, fun found h => ⟨hfound found h, hfound found h ▸ nodup_unmet hg hfrozen⟩,
    resolveAll_eq hg hfrozen, fun port spec hspec max hmax => ?_, fun e he => ?_⟩
  · rw [← unmet_eq_nil_iff hg hfrozen, hverdict, ← List.isEmpty_iff]
    cases g.unmet.isEmpty with
    | true => exact iff_of_true ⟨_, rfl⟩ rfl
    | false => simp
  · rw [Wiring.connectionCount_eq]
    exact hg.orderly.bounded hspec max hmax
  · rcases settles_freeze hg he with ⟨_, hresolved, _⟩ | ⟨_, hfailed, error, herror⟩
    · exact .inl hresolved
    · refine .inr ⟨hfailed, error, herror, fun found h => ?_⟩
      have hmem : error ∈ g.resolveAll.1 := by
        rw [resolveAll_eq hg hfrozen, List.mem_eraseDups]
        exact List.mem_filterMap.mpr ⟨e, he, herror⟩
      rw [hfound found h, unmet]
      simp [hmem]

end Verdict

/-- A mismatch, a ring that no root reaches, a stray node and a source without an edge; one edge of
the ring was resolved. -/
def clutter : Graph :=
  let width : Schema := .ofList [("width", .number)]
  let bus : Protocol := ⟨⟨"bus", width, width⟩, .policy .intersect, .absent, .absent⟩
  after { strictReachability := true } [
    .build (.addNode (.source "cpu" bus (.exactly 1) (.ofList [("width", .num 16)]))),
    .build (.addNode (.sink "ram" bus (.exactly 1) (.ofList [("width", .num 8)]))),
    .build (.addNode (.identity "left" bus)), .build (.addNode (.identity "right" bus)),
    .build (.addNode (.identity "stray" bus)),
    .build (.addNode (.source "spare" bus (.exactly 1) (.ofList [("width", .num 16)]))),
    .build (.bind (NodeId.output ⟨0⟩ 0) (NodeId.input ⟨1⟩ 0)),
    .build (.bind (NodeId.output ⟨2⟩ 0) (NodeId.input ⟨3⟩ 0)),
    .build (.bind (NodeId.output ⟨3⟩ 0) (NodeId.input ⟨2⟩ 0)), .call (.resolve ⟨2⟩)]

/-- The clutter does not meet requirements of every kind. -/
theorem clutter_reports :
    clutter.Reachable ∧ clutter.frozen = none ∧ ¬ clutter.Fulfilled ∧
      clutter.freeze.1 = .error clutter.unmet ∧
      clutter.unmet.map Violation.rank = [0, 0, 1, 1, 1, 2, 2, 2, 3, 4, 4] := by
  have hclutter : clutter.Reachable := reachable_after _ _
  have hopen : clutter.frozen = none := rfl
  have hranks : clutter.freeze.1.mapError (List.map Violation.rank) =
      .error [0, 0, 1, 1, 1, 2, 2, 2, 3, 4, 4] := by decide +kernel
  obtain ⟨hfulfilled, hreports, _⟩ := freeze_reports hclutter hopen
  cases hfreeze : clutter.freeze.1 with
  | ok bound =>
      rw [hfreeze] at hranks
      cases hranks
  | error found =>
      rw [hfreeze] at hranks
      obtain ⟨rfl, _⟩ := hreports found hfreeze
      refine ⟨hclutter, hopen, fun h => ?_, rfl, Except.error.inj hranks⟩
      obtain ⟨bound, hbound⟩ := hfulfilled.mpr h
      rw [hfreeze] at hbound
      cases hbound

end Graph

end Negotiation
