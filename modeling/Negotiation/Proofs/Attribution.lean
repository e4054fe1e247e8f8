import Negotiation.Proofs.GroupOutcome
import Negotiation.Proofs.Naming
import Negotiation.Proofs.Phases

/-!
Mismatches and the edges they are attributed to.

A key that cannot be evaluated reports a mismatch of its own, attributed to the first edge it
serves, or the mismatch of an edge that it could not read
(`Wiring.WellFormed.exists_of_evaluate_eq_error`).  Only keys that serve an edge are demanded, so
there is such an edge, and it never resolves: it needs the key that failed, or it is the one that
could not be read.  So every mismatch that is reported names an edge that it keeps from being
resolved (`Graph.Blocks`).
-/

namespace Negotiation

open Relation

section Computations

variable {ε α β γ : Type}

theorem exists_of_mapM_eq_error {f : α → Except ε β} {xs : List α} {error : ε}
    (h : xs.mapM f = .error error) : ∃ x ∈ xs, f x = .error error := by
  induction xs with
  | nil => cases h
  | cons x rest ih =>
      rw [List.mapM_cons] at h
      cases hfirst : f x with
      | error found =>
          rw [hfirst] at h
          cases h
          exact ⟨x, List.mem_cons_self, hfirst⟩
      | ok y =>
          cases hrest : rest.mapM f with
          | error found =>
              rw [hfirst, hrest] at h
              cases h
              obtain ⟨z, hz, hfails⟩ := ih hrest
              exact ⟨z, List.mem_cons_of_mem _ hz, hfails⟩
          | ok ys =>
              rw [hfirst, hrest] at h
              cases h

/-- A computation that fails does so in its first part or after it. -/
theorem bind_eq_error {first : Except ε α} {next : α → Except ε β} {error : ε}
    (h : first >>= next = .error error) :
    first = .error error ∨ ∃ a, first = .ok a ∧ next a = .error error := by
  cases first with
  | error found =>
      cases h
      exact Or.inl rfl
  | ok a => exact Or.inr ⟨a, rfl, h⟩

/-- Two computations, of which each may be left out, fail where one that is made fails. -/
theorem eq_error_of_bind_ite {c d : Bool} {first second : Except ε α} {without without' : α}
    {pair : α → α → γ} {error : ε}
    (h : (do
      let a ← if c then first else pure without
      let b ← if d then second else pure without'
      return pair a b) = (.error error : Except ε γ)) :
    (c = true ∧ first = .error error) ∨ (d = true ∧ second = .error error) := by
  have hsecond : ∀ {a : α}, (do
      let b ← if d then second else pure without'
      return pair a b) = (.error error : Except ε γ) → d = true ∧ second = .error error := by
    intro a hrest
    cases d with
    | true =>
        rcases bind_eq_error hrest with herror | ⟨_, _, hpair⟩
        · exact ⟨rfl, herror⟩
        · cases hpair
    | false => cases hrest
  cases c with
  | true =>
      rcases bind_eq_error h with hfirst | ⟨_, _, hrest⟩
      · exact Or.inl ⟨rfl, hfirst⟩
      · exact Or.inr (hsecond hrest)
  | false => exact Or.inr (hsecond h)

end Computations

namespace Wiring

variable {w : Wiring} {memo : Memo}

/-- The edge is the first that the node has on a side: every other is at a later port, or was bound
later at the same port. -/
def IsFirst (w : Wiring) (side : Side) (n : NodeId) (e : EdgeId) : Prop :=
  ∃ edge, w.edge? e = some edge ∧ (edge.port side).node = n ∧
    ∀ d other, w.edge? d = some other → (other.port side).node = n → d ≠ e →
      (edge.port side).index < (other.port side).index ∨
        (edge.port side).index = (other.port side).index ∧ e.Before d

section First

variable {n : NodeId} {slot : Slot} {side : Side} {e : EdgeId}

/-- The first member of a list of lists stands first in the first list that has any. -/
theorem exists_of_head?_flatten {α : Type} {lists : List (List α)} {a : α}
    (h : lists.flatten.head? = some a) :
    ∃ (i : Nat) (rest : List α), lists[i]? = some (a :: rest) ∧ ∀ j < i, lists[j]? = some [] := by
  induction lists with
  | nil => cases h
  | cons first others ih =>
      cases first with
      | nil =>
          obtain ⟨i, rest, hi, hbefore⟩ := ih h
          refine ⟨i + 1, rest, hi, ?_⟩
          intro j hj
          cases j with
          | zero => rfl
          | succ j => exact hbefore j (Nat.lt_of_succ_lt_succ hj)
      | cons b rest =>
          have hsame : b = a := Option.some.inj h
          subst hsame
          exact ⟨0, rest, rfl, fun j hj => absurd hj (Nat.not_lt_zero j)⟩

theorem WellFormed.port_eq (hwf : w.WellFormed) {edge : Edge} (hedge : w.edge? e = some edge)
    (side : Side) : edge.port side = ⟨(edge.port side).node, side, (edge.port side).index⟩ := by
  obtain ⟨_, houtput, hinput⟩ := hwf.joined hedge
  cases side with
  | output => exact congrArg (Port.mk edge.output.node · edge.output.index) houtput.1
  | input => exact congrArg (Port.mk edge.input.node · edge.input.index) hinput.1

/-- An edge is at the port where it ends, and at no other of that side. -/
theorem WellFormed.mem_portEdges_side_iff (hwf : w.WellFormed) {i : Nat} :
    e ∈ w.portEdges ⟨n, side, i⟩ ↔
      ∃ edge, w.edge? e = some edge ∧ edge.port side = ⟨n, side, i⟩ := by
  rw [hwf.attached]
  apply exists_congr
  intro edge
  apply and_congr_right
  intro hedge
  obtain ⟨_, houtput, hinput⟩ := hwf.joined hedge
  cases side with
  | output =>
      refine ⟨fun hends => hends.resolve_right fun heq => ?_, Or.inl⟩
      rw [heq] at hinput
      cases hinput.1
  | input =>
      refine ⟨fun hends => hends.resolve_left fun heq => ?_, Or.inr⟩
      rw [heq] at houtput
      cases houtput.1

/-- What a node lists first is its first edge in the order of ports and of binding. -/
theorem WellFormed.isFirst (hwf : w.WellFormed) (horderly : w.Orderly)
    (hslot : w.slot? n = some slot) (hhead : (slot.edges side).flatten.head? = some e) :
    w.IsFirst side n e := by
  have hport : ∀ i, w.portEdges ⟨n, side, i⟩ = (slot.edges side)[i]?.getD [] := by
    intro i
    rw [portEdges, hslot]
    rfl
  obtain ⟨i, rest, hi, hbefore⟩ := exists_of_head?_flatten hhead
  have hedges : w.portEdges ⟨n, side, i⟩ = e :: rest := by
    rw [hport, hi]
    rfl
  have hmem : e ∈ w.portEdges ⟨n, side, i⟩ := hedges ▸ List.mem_cons_self
  obtain ⟨edge, hedge, hat⟩ := hwf.mem_portEdges_side_iff.mp hmem
  refine ⟨edge, hedge, congrArg Port.node hat, ?_⟩
  intro d other hother hnode hne
  have hindex : (edge.port side).index = i := congrArg Port.index hat
  rw [hindex]
  have hd : d ∈ w.portEdges ⟨n, side, (other.port side).index⟩ := by
    apply hwf.mem_portEdges_side_iff.mpr
    refine ⟨other, hother, ?_⟩
    rw [← hnode]
    exact hwf.port_eq hother side
  rcases Nat.lt_trichotomy i (other.port side).index with hlt | heq | hgt
  · exact Or.inl hlt
  · -- At the port of the first edge, the edges ascend.
    rw [← heq, hedges] at hd
    have hascending := horderly.ascending ⟨n, side, i⟩
    rw [hedges] at hascending
    rcases List.mem_cons.mp hd with hself | hrest
    · exact absurd hself hne
    · exact Or.inr ⟨heq, List.rel_of_pairwise_cons hascending hrest⟩
  · -- Before the port of the first edge, there is none.
    rw [hport, hbefore _ hgt] at hd
    cases hd

end First

section Anatomy

variable {m : Mismatch}

theorem crossing_eq_error {edge : Edge} {direction : Direction}
    (h : crossing memo edge direction = .error m) :
    m.key = .edge edge.id ∧ m.edge = some edge.id := by
  simp only [crossing] at h
  split at h
  · cases h
    exact ⟨rfl, rfl⟩
  · split at h
    · cases h
      exact ⟨rfl, rfl⟩
    · split at h
      · cases h
        exact ⟨rfl, rfl⟩
      · cases h

theorem settle_eq_error {edge : Edge} (h : settle memo edge = .error m) :
    m.key = .edge edge.id ∧ m.edge = some edge.id := by
  rcases bind_eq_error h with hflows | ⟨_, _, hmerge⟩
  · rcases bind_eq_error hflows with hdown | ⟨_, _, hrest⟩
    · exact crossing_eq_error hdown
    · rcases bind_eq_error hrest with hup | ⟨_, _, hpair⟩
      · exact crossing_eq_error hup
      · cases hpair
  · obtain ⟨reason, _, rfl⟩ := exists_of_mapError_eq_error hmerge
    exact ⟨rfl, rfl⟩

theorem checkEmitted_eq_error {key : FlowKey} {direction : Direction} {values : List Parameter}
    {ports : List PortSpec} (h : checkEmitted key direction values ports = .error m) :
    ∃ reason, m = .ofKey key reason := by
  rw [checkEmitted] at h
  split at h
  · cases h
    exact ⟨_, rfl⟩
  · split at h
    · cases h
      exact ⟨_, rfl⟩
    · cases h

/-- What a node emits is missing because of a mismatch of its own, or of one in what it reads. -/
theorem eq_error_of_emission {key : FlowKey} {direction : Direction}
    {read : Except Mismatch Readings} {emit : Readings → Except Reason (List Parameter)}
    {ports : List PortSpec}
    (h : (do
      let readings ← read
      let values ← (emit readings).mapError (Mismatch.ofKey key)
      checkEmitted key direction values ports) = .error m) :
    read = .error m ∨ ∃ reason, m = .ofKey key reason := by
  rcases bind_eq_error h with hread | ⟨readings, _, hrest⟩
  · exact Or.inl hread
  · rcases bind_eq_error hrest with hemits | ⟨values, _, hcheck⟩
    · obtain ⟨reason, _, hreason⟩ := exists_of_mapError_eq_error hemits
      exact Or.inr ⟨reason, hreason.symm⟩
    · exact Or.inr (checkEmitted_eq_error hcheck)

/-- The key needs what is read from the edge, and reading it fails. -/
structure Misreads (w : Wiring) (memo : Memo) (key : FlowKey) (e : EdgeId) (m : Mismatch) :
    Prop where
  exists_edge : ∃ edge, w.edge? e = some edge
  exists_read : ∃ direction resolved, (∀ d ∈ w.reads direction resolved [e], w.Needs key d) ∧
    w.readEdge memo direction resolved e = .error m

theorem reads_singleton_subset {direction : Direction} {resolved : Bool} {edges : List EdgeId}
    {e : EdgeId} (he : e ∈ edges) {key : FlowKey} (h : key ∈ w.reads direction resolved [e]) :
    key ∈ w.reads direction resolved edges := by
  cases resolved with
  | true =>
      obtain ⟨d, hd, rfl⟩ := mem_reads_resolved.mp h
      rw [List.mem_singleton.mp hd]
      exact mem_reads_resolved.mpr ⟨e, he, rfl⟩
  | false =>
      obtain ⟨d, hd, edge, hedge, rfl⟩ := mem_reads_emitted.mp h
      rw [List.mem_singleton.mp hd] at hedge
      exact mem_reads_emitted.mpr ⟨e, he, edge, hedge, rfl⟩

theorem gather_eq_error {slot : Slot} {side : Side} {direction : Direction} {resolved : Bool}
    (h : w.gather memo slot side direction resolved = .error m) :
    ∃ e ∈ (slot.edges side).flatten, w.readEdge memo direction resolved e = .error m := by
  obtain ⟨⟨spec, edges⟩, hport, hread⟩ := exists_of_mapM_eq_error h
  cases edges with
  | nil => cases hread
  | cons first rest =>
      obtain ⟨e, he, herror⟩ := exists_of_mapM_eq_error hread
      exact ⟨e, List.mem_flatten.mpr ⟨_, (List.of_mem_zip hport).2, he⟩, herror⟩

/-- Where gathering fails, the key that needs what is gathered misreads an edge. -/
theorem WellFormed.exists_misreads (hwf : w.WellFormed) {n : NodeId} {slot : Slot}
    (hslot : w.slot? n = some slot) {side : Side} {direction : Direction} {resolved : Bool}
    {key : FlowKey}
    (hneeds : ∀ d ∈ w.reads direction resolved (slot.edges side).flatten, w.Needs key d)
    (h : w.gather memo slot side direction resolved = .error m) : ∃ e, w.Misreads memo key e m := by
  obtain ⟨e, he, herror⟩ := gather_eq_error h
  obtain ⟨edge, hedge, _⟩ := (hwf.mem_edges_iff hslot).mp he
  refine ⟨e, ⟨edge, hedge⟩, direction, resolved, ?_, herror⟩
  intro d hd
  exact hneeds d (reads_singleton_subset he hd)

theorem WellFormed.misreads_of_downReadings (hwf : w.WellFormed) {n : NodeId} {slot : Slot}
    (hslot : w.slot? n = some slot) (h : w.downReadings memo slot = .error m) :
    ∃ e, w.Misreads memo (.down n) e m := by
  have hdeps := dependencies_down hslot
  rcases eq_error_of_bind_ite h with ⟨hreads, herror⟩ | ⟨hagainst, herror⟩
  · apply hwf.exists_misreads hslot _ herror
    intro d hd
    rw [Needs, hdeps, if_pos hreads]
    exact List.mem_append_left _ hd
  · apply hwf.exists_misreads hslot _ herror
    intro d hd
    rw [Needs, hdeps, if_pos hagainst]
    exact List.mem_append_right _ hd

theorem WellFormed.misreads_of_upReadings (hwf : w.WellFormed) {n : NodeId} {slot : Slot}
    (hslot : w.slot? n = some slot) (h : w.upReadings memo slot = .error m) :
    ∃ e, w.Misreads memo (.up n) e m := by
  have hdeps := dependencies_up hslot
  rcases eq_error_of_bind_ite h with ⟨hreads, herror⟩ | ⟨hagainst, herror⟩
  · apply hwf.exists_misreads hslot _ herror
    intro d hd
    rw [Needs, hdeps, if_pos hreads]
    exact List.mem_append_left _ hd
  · apply hwf.exists_misreads hslot _ herror
    intro d hd
    rw [Needs, hdeps, if_pos hagainst]
    exact List.mem_append_right _ hd

/-- A key reports a mismatch of its own, on the edge at which it is located, or that of an edge
which it misreads. -/
theorem WellFormed.exists_of_evaluate_eq_error (hwf : w.WellFormed) {key : FlowKey}
    {error : ResolveError} (h : w.evaluate memo key = .error error) :
    ∃ m, error = .mismatch m ∧ ((m.key = key ∧ m.edge = w.locate key) ∨
      ∃ e, m.key = .edge e ∧ m.edge = some e ∧ w.Misreads memo key e m) := by
  obtain ⟨m, hvalues, rfl⟩ := exists_of_mapError_eq_error h
  have hown : ∀ {found : Mismatch} {reason : Reason}, found = .ofKey key reason →
      (found.onEdge (w.locate key)).key = key ∧
        (found.onEdge (w.locate key)).edge = w.locate key := by
    rintro _ _ rfl
    cases key <;> exact ⟨rfl, rfl⟩
  have hread : ∀ {e : EdgeId}, w.Misreads memo key e m →
      ∃ e, (m.onEdge (w.locate key)).key = .edge e ∧
        (m.onEdge (w.locate key)).edge = some e ∧
          w.Misreads memo key e (m.onEdge (w.locate key)) := by
    intro e hmisreads
    have hnamed : m.key = .edge e ∧ m.edge = some e := by
      obtain ⟨⟨edge, hedge⟩, direction, resolved, _, herror⟩ := hmisreads
      rw [readEdge] at herror
      split at herror
      · split at herror
        · cases herror
        · cases herror
          exact ⟨rfl, rfl⟩
      · rw [hedge] at herror
        rw [← hwf.numbered hedge]
        exact crossing_eq_error herror
    -- What is attributed already stays as it is.
    have hkept : m.onEdge (w.locate key) = m := by
      rw [Mismatch.onEdge, hnamed.2]
      obtain ⟨_, _, _⟩ := m
      cases hnamed.2
      rfl
    rw [hkept]
    exact ⟨e, hnamed.1, hnamed.2, hmisreads⟩
  refine ⟨_, rfl, ?_⟩
  cases key with
  | edge e =>
      cases hedge : w.edge? e with
      | none =>
          simp only [hedge] at hvalues
          cases hvalues
          exact Or.inl (hown rfl)
      | some edge =>
          simp only [hedge] at hvalues
          cases hsettle : settle memo edge with
          | ok value =>
              rw [hsettle] at hvalues
              cases hvalues
          | error found =>
              rw [hsettle] at hvalues
              cases hvalues
              obtain ⟨hkey, hnamed⟩ := settle_eq_error hsettle
              rw [hwf.numbered hedge] at hkey hnamed
              refine Or.inl ⟨hkey, ?_⟩
              rw [Mismatch.onEdge, hnamed]
              rfl
  | down n =>
      cases hslot : w.slot? n with
      | none =>
          simp only [hslot] at hvalues
          cases hvalues
          exact Or.inl (hown rfl)
      | some slot =>
          simp only [hslot] at hvalues
          rcases eq_error_of_emission hvalues with hreadings | ⟨reason, hreason⟩
          · obtain ⟨e, hmisreads⟩ := hwf.misreads_of_downReadings hslot hreadings
            exact Or.inr (hread hmisreads)
          · exact Or.inl (hown hreason)
  | up n =>
      cases hslot : w.slot? n with
      | none =>
          simp only [hslot] at hvalues
          cases hvalues
          exact Or.inl (hown rfl)
      | some slot =>
          simp only [hslot] at hvalues
          rcases eq_error_of_emission hvalues with hreadings | ⟨reason, hreason⟩
          · obtain ⟨e, hmisreads⟩ := hwf.misreads_of_upReadings hslot hreadings
            exact Or.inr (hread hmisreads)
          · exact Or.inl (hown hreason)

end Anatomy

section Blame

/-- The mismatch names an edge of the wiring: the one at which it is, or the first of the node at
which it is, on the side to which the values leave that the node does not emit. -/
structure Attributes (w : Wiring) (m : Mismatch) (e : EdgeId) : Prop where
  named : m.edge = some e
  hasKey : w.HasKey (.edge e)
  ofEdge : ∀ x, m.key = .edge x → e = x
  ofDown : ∀ n, m.key = .down n → w.IsFirst .output n e
  ofUp : ∀ n, m.key = .up n → w.IsFirst .input n e

theorem attributes_of_edge {m : Mismatch} {e : EdgeId} (he : w.HasKey (.edge e))
    (hkey : m.key = .edge e) (hnamed : m.edge = some e) : w.Attributes m e := by
  refine ⟨hnamed, he, ?_, ?_, ?_⟩
  · intro x hx
    exact FlowKey.edge.inj (hkey.symm.trans hx)
  · intro n hn
    cases hkey.symm.trans hn
  · intro n hn
    cases hkey.symm.trans hn

theorem attributes_of_key {m : Mismatch} {e : EdgeId} {direction : Direction} {n : NodeId}
    (hfirst : w.IsFirst direction.departure n e) (hkey : m.key = direction.key n)
    (hnamed : m.edge = some e) : w.Attributes m e := by
  obtain ⟨edge, hedge, _⟩ := id hfirst
  refine ⟨hnamed, .of_edge? hedge, ?_, ?_, ?_⟩
  · intro x hx
    cases direction with
    | down => cases hkey.symm.trans hx
    | up => cases hkey.symm.trans hx
  · intro k hk
    cases direction with
    | down =>
        rw [FlowKey.down.inj (hk.symm.trans hkey)]
        exact hfirst
    | up => cases hkey.symm.trans hk
  · intro k hk
    cases direction with
    | down => cases hkey.symm.trans hk
    | up =>
        rw [FlowKey.up.inj (hk.symm.trans hkey)]
        exact hfirst

/-- What is needed is an edge, or what an edge carries. -/
theorem WellFormed.exists_edge_of_needs (hwf : w.WellFormed) {key dependency : FlowKey}
    (h : w.Needs key dependency) : ∃ e edge, w.edge? e = some edge ∧
      (dependency = .edge e ∨ ∃ direction, dependency = emitter edge direction) := by
  cases hnode : key.node? with
  | none =>
      cases key with
      | edge e =>
          obtain ⟨edge, hedge, hdown | hup⟩ := needs_edge_iff.mp h
          · exact ⟨e, edge, hedge, Or.inr ⟨.down, hdown⟩⟩
          · exact ⟨e, edge, hedge, Or.inr ⟨.up, hup⟩⟩
      | down n => cases hnode
      | up n => cases hnode
  | some n =>
      obtain ⟨e, edge, hedge, ⟨hself, _⟩ | ⟨hdown, _⟩ | ⟨hup, _⟩⟩ := hwf.exists_of_needs hnode h
      · exact ⟨e, edge, hedge, Or.inl hself⟩
      · exact ⟨e, edge, hedge, Or.inr ⟨.down, hdown⟩⟩
      · exact ⟨e, edge, hedge, Or.inr ⟨.up, hup⟩⟩

/-- What an edge needs, at whatever distance, is an edge, or what an edge carries. -/
theorem WellFormed.exists_edge_of_path (hwf : w.WellFormed) {e : EdgeId} {key : FlowKey}
    (he : w.HasKey (.edge e)) (hpath : ReflTransGen w.Needs (.edge e) key) :
    ∃ x edge, w.edge? x = some edge ∧
      (key = .edge x ∨ ∃ direction, key = emitter edge direction) := by
  rcases ReflTransGen.cases_tail hpath with rfl | ⟨before, _, hneeds⟩
  · exact ⟨e, w.edges[e.index], Array.getElem?_eq_getElem he, Or.inl rfl⟩
  · exact hwf.exists_edge_of_needs hneeds

theorem WellFormed.exists_slot (hwf : w.WellFormed) {e : EdgeId} {edge : Edge}
    (hedge : w.edge? e = some edge) (side : Side) :
    ∃ slot, w.slot? (edge.port side).node = some slot := by
  obtain ⟨_, houtput, hinput⟩ := hwf.joined hedge
  have hspec : (w.spec? (edge.port side)).isSome = true := by
    cases side with
    | output => exact houtput.isSome
    | input => exact hinput.isSome
  obtain ⟨spec, hspec⟩ := Option.isSome_iff_exists.mp hspec
  obtain ⟨node, hnode, _⟩ := Option.bind_eq_some_iff.mp hspec
  obtain ⟨slot, hslot, _⟩ := node?_eq_some.mp hnode
  exact ⟨slot, hslot⟩

/-- What a node fails to emit is located at the first edge that would carry it. -/
theorem locate_emitter {slot : Slot} {edge : Edge} {direction : Direction}
    (hslot : w.slot? (edge.origin direction).node = some slot) :
    w.locate (emitter edge direction) = (slot.edges direction.departure).flatten.head? := by
  cases direction with
  | down =>
      change w.slot? edge.output.node = some slot at hslot
      simp only [emitter, locate, hslot, Option.bind_some]
      rfl
  | up =>
      change w.slot? edge.input.node = some slot at hslot
      simp only [emitter, locate, hslot, Option.bind_some]
      rfl

theorem WellFormed.exists_locate (hwf : w.WellFormed) (horderly : w.Orderly) {x : EdgeId}
    {edge : Edge} (hedge : w.edge? x = some edge) (direction : Direction)
    (hnot : ¬ w.Resolvable (emitter edge direction)) :
    ∃ e, w.locate (emitter edge direction) = some e ∧
      w.IsFirst direction.departure (edge.origin direction).node e ∧
        ¬ w.Resolvable (.edge e) := by
  have horigin : ∀ other : Edge, other.port direction.departure = other.origin direction := by
    intro other
    cases direction <;> rfl
  obtain ⟨slot, hslot⟩ := hwf.exists_slot hedge direction.departure
  have hmem : x ∈ (slot.edges direction.departure).flatten :=
    (hwf.mem_edges_iff hslot).mpr ⟨edge, hedge, rfl⟩
  cases hhead : (slot.edges direction.departure).flatten.head? with
  | none =>
      rw [List.head?_eq_none_iff.mp hhead] at hmem
      cases hmem
  | some e =>
      have hfirst := hwf.isFirst horderly hslot hhead
      obtain ⟨first, hedge', hnode, _⟩ := id hfirst
      simp only [horigin] at hslot hfirst hnode
      refine ⟨e, (locate_emitter hslot).trans hhead, hfirst, ?_⟩
      -- The first edge needs what the node does not emit, as does any other that would carry it.
      intro hresolves
      apply hnot
      rw [emitter_eq, ← hnode, ← emitter_eq]
      exact hresolves.of_transGen (.single (emitter_mem_dependencies hedge' direction))

/-- An edge that cannot be read, although what it needs for that is resolved, does not resolve. -/
theorem Misreads.not_resolvable {key : FlowKey} {e : EdgeId} {m : Mismatch}
    (h : w.Misreads memo key e m) (hsupports : w.Supports memo key) :
    ¬ w.Resolvable (.edge e) := by
  rintro ⟨out, hyields⟩
  obtain ⟨⟨edge, hedge⟩, direction, resolved, hneeds, herror⟩ := h
  cases resolved with
  | true =>
      have hmem : .edge e ∈ w.dependencies key :=
        hneeds _ (mem_reads_resolved.mpr ⟨e, List.mem_singleton_self e, rfl⟩)
      obtain ⟨value, rfl⟩ := hyields.edge_singleton
      rw [readEdge, if_pos rfl, Memo.settled?, (hsupports.values?_iff hmem).mpr hyields] at herror
      cases herror
  | false =>
      have hmem : emitter edge direction ∈ w.dependencies key :=
        hneeds _ (mem_reads_emitted.mpr ⟨e, List.mem_singleton_self e, edge, hedge, rfl⟩)
      obtain ⟨down, up, _, hdown, hup, _⟩ := (yields_edge_iff hedge).mp hyields
      have hcrosses : ∃ value, w.Crosses edge direction value := by
        cases direction with
        | down => exact ⟨down, hdown⟩
        | up => exact ⟨up, hup⟩
      obtain ⟨value, hvalue⟩ := hcrosses
      rw [readEdge, if_neg Bool.false_ne_true, hedge] at herror
      simp only [(hsupports.crossing_iff hmem).mpr hvalue] at herror
      cases herror

/-- The mismatch with which an edge fails names an edge that does not resolve. -/
theorem Faults.exists_attributes (hwf : w.WellFormed) (horderly : w.Orderly) {e : EdgeId}
    (he : w.HasKey (.edge e)) {m : Mismatch} (h : w.Faults (.edge e) (.mismatch m)) :
    ∃ x, w.Attributes m x ∧ ¬ w.Resolvable (.edge x) := by
  obtain ⟨culprit, hpath, hrefuses⟩ := h.exists_refuses
  obtain ⟨y, edge, hedge, hends⟩ := hwf.exists_edge_of_path he hpath
  have hnot := hrefuses.not_resolvable
  obtain ⟨memo, hsupports, hevaluate⟩ := hrefuses
  obtain ⟨found, hfound, ⟨hkey, hnamed⟩ | ⟨x, hkey, hnamed, hmisreads⟩⟩ :=
    hwf.exists_of_evaluate_eq_error hevaluate
  · cases hfound
    rcases hends with rfl | ⟨direction, rfl⟩
    · exact ⟨y, attributes_of_edge (.of_edge? hedge) hkey hnamed, hnot⟩
    · obtain ⟨x, hlocate, hfirst, hnever⟩ := hwf.exists_locate horderly hedge direction hnot
      rw [emitter_eq] at hkey
      exact ⟨x, attributes_of_key hfirst hkey (hnamed.trans hlocate), hnever⟩
  · cases hfound
    obtain ⟨read, hread⟩ := hmisreads.exists_edge
    exact ⟨x, attributes_of_edge (.of_edge? hread) hkey hnamed, hmisreads.not_resolvable hsupports⟩

end Blame

end Wiring

namespace Graph

variable {g : Graph}

/-- The mismatch is attributed to an edge that is not resolved by any request to come, and has
failed once the graph is frozen. -/
structure Blocks (g : Graph) (m : Mismatch) (e : EdgeId) : Prop extends
    g.wiring.Attributes m e where
  never : ∀ later, (g.serves later).progress (.edge e) ≠ .resolved
  frozen : g.freeze.2.progress (.edge e) = .failed

theorem Reachable.exists_blocks (hg : g.Reachable) {e : EdgeId} (he : g.wiring.HasKey (.edge e))
    {m : Mismatch} (hentry : g.entry (.edge e) = .failed (.mismatch m)) : ∃ x, g.Blocks m x := by
  have hsound := hg.sound
  have hfaults := hsound.settled.consistent.faults hentry
  obtain ⟨x, hattributes, hnot⟩ := hfaults.exists_attributes hsound.wellFormed hg.orderly he
  refine ⟨x, hattributes, ?_, (hsound.freeze_of_not_resolvable hattributes.hasKey hnot).1⟩
  intro later hresolved
  have hsealed : g.isSealed = true := isSealed_of_isTerminal he (by rw [hentry]; rfl)
  have hwiring := (sealedAs_serves hsound hsealed later).wiring
  rw [progress_eq (hwiring ▸ hattributes.hasKey)] at hresolved
  obtain ⟨values, hvalues⟩ := Entry.progress_eq_resolved_iff.mp hresolved
  have hyields := (hsound.serves later).1.settled.consistent.yields hvalues
  rw [hwiring] at hyields
  exact hnot ⟨values, hyields⟩

theorem Sound.entry_of_resolve (hg : g.Sound) {e : EdgeId} {error : ResolveError}
    (h : (g.resolve e).1 = .error (.resolve error)) :
    g.wiring.HasKey (.edge e) ∧ (g.resolve e).2.entry (.edge e) = .failed error := by
  by_cases he : g.wiring.HasKey (.edge e)
  · refine ⟨he, ?_⟩
    have hdemand := error_of_resolve h
    rw [resolve_of_hasKey he]
    rcases (demand_spec hg.settled (.edge e)).2.2 with ⟨hok, _⟩ | ⟨found, hfound, hentry⟩
    · rw [hdemand] at hok
      cases hok
    · rw [hdemand] at hfound
      cases hfound
      exact hentry
  · have hedge : g.edge e = .error (.unknownEdge e) := by
      rw [edge, Wiring.edge?, Array.getElem?_eq_none (Nat.le_of_not_lt he)]
    rw [resolve, hedge] at h
    cases h

theorem mem_of_mismatch?_eq_some {errors : List ResolveError} {reach : Reachability}
    {v : Violation} (h : v ∈ g.violations errors reach) {m : Mismatch}
    (hmismatch : v.mismatch? = some m) : .mismatch m ∈ errors := by
  cases v with
  | resolution error =>
      cases error with
      | mismatch found =>
          cases hmismatch
          exact mem_of_resolution_mem h
      | cycle c => cases hmismatch
  | unresolved e progress => cases hmismatch
  | cardinality port name count wanted => cases hmismatch
  | orphan n name => cases hmismatch
  | unreachable e => cases hmismatch

/-- Every mismatch that is reported, when an edge is resolved, when all are, or when the graph is
frozen, names an edge of the graph that it keeps from being resolved, then and later: the one at
which it is, or the first of the node at which it is. -/
theorem mismatches_block (hg : g.Reachable) :
    (∀ e m, (g.resolve e).1 = .error (.resolve (.mismatch m)) →
        ∃ x, (g.resolve e).2.Blocks m x) ∧
      (∀ m, .mismatch m ∈ g.resolveAll.1 → ∃ x, g.resolveAll.2.Blocks m x) ∧
      ∀ found, g.freeze.1 = .error found → ∀ v ∈ found, ∀ m, v.mismatch? = some m →
        ∃ x, g.freeze.2.Blocks m x ∧ g.freeze.2.progress (.edge x) = .failed := by
  have hsound := hg.sound
  refine ⟨?resolve, ?all, ?freeze⟩
  case resolve =>
    intro e m hresolve
    have hafter : (g.resolve e).2.Reachable := hg.serve (.call (.resolve e))
    obtain ⟨he, hentry⟩ := hsound.entry_of_resolve hresolve
    have hwiring := (hsound.call (.resolve e)).1.wiring
    apply hafter.exists_blocks _ hentry
    exact hwiring.symm ▸ he
  case all =>
    intro m hmem
    have hafter : g.resolveAll.2.Reachable := hg.serve (.call .resolveAll)
    obtain ⟨_, _, _, herrors⟩ := resolveAll_spec hsound.settled
    rw [herrors] at hmem
    obtain ⟨e, he, hentry⟩ := mem_failures_iff.mp hmem
    exact hafter.exists_blocks he hentry
  case freeze =>
    intro found hfound v hv m hm
    have hreachable : g.freeze.2.Reachable := hg.serve (.call .freeze)
    obtain ⟨hafter, hcomplete, _, hverdict⟩ := hsound.freeze_spec
    rw [hverdict, verdict] at hfound
    split at hfound
    · cases hfound
    · cases hfound
      obtain ⟨e, he, hentry⟩ := mem_failures_iff.mp (mem_of_mismatch?_eq_some hv hm)
      obtain ⟨x, hblocks⟩ := hreachable.exists_blocks he hentry
      refine ⟨x, hblocks, ?_⟩
      rcases hafter.settles hblocks.hasKey (hcomplete x hblocks.hasKey) with
        ⟨_, hresolved, _⟩ | ⟨_, hfailed, _⟩
      · exact absurd hresolved (hblocks.never [])
      · exact hfailed

/-- A source that offers less than its port declares, to two sinks; and a source that reaches a sink
through an adapter that brings in a field of its own. -/
def botched : Graph :=
  let width : Schema := .ofList [("width", .number)]
  let bus : Protocol := ⟨⟨"bus", width, width⟩, .policy .intersect, .absent, .absent⟩
  let wide : Parameter := .ofList [("width", .num 8)]
  after {} [.build (.addNode (.source "cpu" bus (.exactly 2) .empty)),
    .build (.addNode (.sink "ram" bus (.exactly 1) wide)),
    .build (.addNode (.sink "rom" bus (.exactly 1) wide)),
    .build (.bind (NodeId.output ⟨0⟩ 0) (NodeId.input ⟨1⟩ 0)),
    .build (.bind (NodeId.output ⟨0⟩ 0) (NodeId.input ⟨2⟩ 0)),
    .build (.addNode (.source "gpu" bus (.exactly 1) wide)),
    .build (.addNode (.identity "link" bus)),
    .build (.addNode (.sink "dma" bus (.exactly 1) wide)),
    .build (.bindThrough (NodeId.output ⟨3⟩ 0) (NodeId.input ⟨4⟩ 0)
      (.setField .down "depth" (.num 2))),
    .build (.bind (NodeId.output ⟨4⟩ 0) (NodeId.input ⟨5⟩ 0))]

/-- The mismatch of the source names the first of its edges, where the second is resolved; and that
of the adapter names its own edge, where the one behind it is resolved. -/
theorem botched_mismatches_block :
    botched.Reachable ∧
      (∃ m, (botched.resolve ⟨1⟩).1 = .error (.resolve (.mismatch m)) ∧ m.key = .down ⟨0⟩ ∧
        (botched.resolve ⟨1⟩).2.Blocks m ⟨0⟩) ∧
      (∃ m, (botched.resolve ⟨3⟩).1 = .error (.resolve (.mismatch m)) ∧ m.key = .edge ⟨2⟩ ∧
        (botched.resolve ⟨3⟩).2.Blocks m ⟨2⟩) := by
  have hbotched : botched.Reachable := reachable_after _ _
  let missing : Mismatch := ⟨.down ⟨0⟩, some ⟨0⟩, .onPort "out" (.missingField "width")⟩
  let undeclared : Mismatch := ⟨.edge ⟨2⟩, some ⟨2⟩, .illShaped .down
    (.ofList [("depth", .num 2), ("width", .num 8)]) (.undeclaredField "depth")⟩
  have hsource : (botched.resolve ⟨1⟩).1 = .error (.resolve (.mismatch missing)) := by decide
  have hadapter : (botched.resolve ⟨3⟩).1 = .error (.resolve (.mismatch undeclared)) := by
    decide
  obtain ⟨hresolve, _⟩ := mismatches_block hbotched
  obtain ⟨x, hblocks⟩ := hresolve _ _ hsource
  obtain rfl : ⟨0⟩ = x := Option.some.inj hblocks.named
  obtain ⟨y, hblocks'⟩ := hresolve _ _ hadapter
  obtain rfl : ⟨2⟩ = y := Option.some.inj hblocks'.named
  exact ⟨hbotched, ⟨missing, hsource, rfl, hblocks⟩, undeclared, hadapter, rfl, hblocks'⟩

end Graph

end Negotiation
