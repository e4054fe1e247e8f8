import Negotiation.Proofs.Circulation
import Negotiation.Proofs.Finality

/-!
The circles that are reported.

No key needs itself (`Wiring.WellFormed.not_needs_self`), so a circle that closes runs through two
keys at least.  A circle that is reported is one of the graph: its chain follows dependencies, every
key in it fails with it, and what was asked for leads to it (`Graph.Genuine`).  Two of them that
share a key are one.
-/

namespace Negotiation

open Relation

namespace Wiring

variable {w : Wiring}

/-- What values of a node need: an edge that is attached to the node, or values of the other end of
one. -/
theorem WellFormed.exists_of_needs (hwf : w.WellFormed) {n : NodeId} {key dependency : FlowKey}
    (hnode : key.node? = some n) (hneeds : w.Needs key dependency) :
    ∃ e edge, w.edge? e = some edge ∧
      (dependency = .edge e ∧ (edge.output.node = n ∨ edge.input.node = n) ∨
        dependency = .down edge.output.node ∧ edge.input.node = n ∨
        dependency = .up edge.input.node ∧ edge.output.node = n) := by
  have hkey := hasKey_of_needs hneeds
  cases key with
  | edge e => cases hnode
  | down m =>
      obtain rfl := Option.some.inj hnode
      have hslot : w.slot? m = some w.slots[m.index] := Array.getElem?_eq_getElem hkey
      rw [Needs, dependencies_down hslot, List.mem_append, List.mem_ite_nil_right,
        List.mem_ite_nil_right, mem_reads_iff .down _ _ fun _ => hwf.mem_inward hslot,
        mem_reads_iff .up _ _ fun _ => hwf.mem_outward hslot] at hneeds
      rcases hneeds with ⟨_, e, edge, hedge, hinput, heq⟩ | ⟨_, e, edge, hedge, houtput, heq⟩
      · split at heq
        · exact ⟨e, edge, hedge, Or.inl ⟨heq, Or.inr hinput⟩⟩
        · exact ⟨e, edge, hedge, Or.inr (Or.inl ⟨heq, hinput⟩)⟩
      · exact ⟨e, edge, hedge, Or.inr (Or.inr ⟨heq, houtput⟩)⟩
  | up m =>
      obtain rfl := Option.some.inj hnode
      have hslot : w.slot? m = some w.slots[m.index] := Array.getElem?_eq_getElem hkey
      rw [Needs, dependencies_up hslot, List.mem_append, List.mem_ite_nil_right,
        List.mem_ite_nil_right, mem_reads_iff .up _ _ fun _ => hwf.mem_outward hslot,
        mem_reads_iff .down _ _ fun _ => hwf.mem_inward hslot] at hneeds
      rcases hneeds with ⟨_, e, edge, hedge, houtput, heq⟩ | ⟨_, e, edge, hedge, hinput, heq⟩
      · split at heq
        · exact ⟨e, edge, hedge, Or.inl ⟨heq, Or.inl houtput⟩⟩
        · exact ⟨e, edge, hedge, Or.inr (Or.inr ⟨heq, houtput⟩)⟩
      · exact ⟨e, edge, hedge, Or.inr (Or.inl ⟨heq, hinput⟩)⟩

/-- No key needs itself: an edge needs no edge, and an edge leads from a node to another. -/
theorem WellFormed.not_needs_self (hwf : w.WellFormed) (key : FlowKey) : ¬ w.Needs key key := by
  intro hneeds
  cases key with
  | edge e =>
      obtain ⟨_, _, hdown | hup⟩ := needs_edge_iff.mp hneeds
      · cases hdown
      · cases hup
  | down n =>
      obtain ⟨e, edge, hedge, ⟨heq, _⟩ | ⟨heq, hinput⟩ | ⟨heq, _⟩⟩ := hwf.exists_of_needs rfl hneeds
      · cases heq
      · exact (hwf.joined hedge).1 ((FlowKey.down.inj heq).symm.trans hinput.symm)
      · cases heq
  | up n =>
      obtain ⟨e, edge, hedge, ⟨heq, _⟩ | ⟨heq, _⟩ | ⟨heq, houtput⟩⟩ :=
        hwf.exists_of_needs rfl hneeds
      · cases heq
      · cases heq
      · exact (hwf.joined hedge).1 (houtput.trans (FlowKey.up.inj heq))

/-- The chain starts and ends with one key, runs through other keys in between, through none twice,
and each key in it needs the next. -/
structure Circular (w : Wiring) (c : Cycle) : Prop where
  long : 3 ≤ c.chain.length
  closed : c.chain.head? = c.chain.getLast?
  distinct : c.chain.dropLast.Nodup
  linked : c.chain.IsChain w.Needs

/-- A circle of blame is a circle. -/
theorem Closes.circular (hwf : w.WellFormed) {key : FlowKey} {c : Cycle} (h : w.Closes key c) :
    w.Circular c := by
  obtain ⟨rest, rfl, hnodup, hchain⟩ := h
  have hneeds : (Cycle.around (key :: rest)).chain.IsChain w.Needs :=
    hchain.imp fun _ _ hblames => hblames.touches.needs
  have haround : (Cycle.around (key :: rest)).chain = key :: rest ++ [key] := rfl
  rw [haround] at hneeds
  cases rest with
  | nil =>
      have hself : w.Needs key key := hneeds.rel_head? rfl
      exact absurd hself (hwf.not_needs_self key)
  | cons next others =>
      refine ⟨?_, ?_, ?_, haround ▸ hneeds⟩
      · rw [haround]
        simp
      · rw [haround, List.getLast?_concat]
        rfl
      · rw [haround, List.dropLast_concat]
        exact hnodup

theorem Closes.mem_chain {key : FlowKey} {c : Cycle} (h : w.Closes key c) : key ∈ c.chain := by
  obtain ⟨rest, rfl, _⟩ := h
  exact List.mem_cons_self

end Wiring

namespace Graph

variable {g : Graph}

/-- The circle is one of the graph, its keys have failed with it, and what was asked for leads to
it. -/
structure Genuine (g : Graph) (origin : FlowKey) (c : Cycle) : Prop where
  circular : g.wiring.Circular c
  failed : ∀ key ∈ c.chain, g.entry key = .failed (.cycle c)
  reached : ∃ key ∈ c.chain, ReflTransGen g.wiring.Needs origin key

theorem genuine_of_entry (hwf : g.wiring.WellFormed) (hsettled : g.known.Settled g.wiring)
    {key : FlowKey} {c : Cycle} (hentry : g.entry key = .failed (.cycle c)) : g.Genuine key c := by
  obtain ⟨member, hpath, hcloses⟩ := (hsettled.consistent.faults hentry).exists_path_closes
  exact ⟨hcloses.circular hwf, hsettled.consistent.circle hentry, member, hcloses.mem_chain, hpath⟩

/-- A key that has failed with a circle exists. -/
theorem Sound.hasKey_of_entry (hg : g.Sound) {key : FlowKey} {c : Cycle}
    (hentry : g.entry key = .failed (.cycle c)) : g.wiring.HasKey key := by
  by_contra hnot
  have hcovers := mt (hg.settled.consistent.covers key).mp hnot
  rw [entry, Memo.get_of_not_covers hcovers] at hentry
  cases hentry

theorem Sound.genuine (hg : g.Sound) {key : FlowKey} {c : Cycle}
    (hentry : g.entry key = .failed (.cycle c)) : g.Genuine key c :=
  genuine_of_entry hg.wellFormed hg.settled hentry

theorem Sound.genuine_of_mem_failures (hg : g.Sound) {c : Cycle} (h : .cycle c ∈ g.failures) :
    ∃ e, g.wiring.HasKey (.edge e) ∧ g.Genuine (.edge e) c := by
  obtain ⟨e, he, hentry⟩ := exists_of_mem_failures h
  exact ⟨e, he, hg.genuine hentry⟩

/-- The circle with which a demand fails. -/
theorem Sound.genuine_of_demand (hg : g.Sound) {key : FlowKey} {c : Cycle}
    (h : (g.demand key).1 = .error (.cycle c)) : (g.demand key).2.Genuine key c := by
  obtain ⟨hprogress, hsettled, hanswer⟩ := demand_spec hg.settled key
  rcases hanswer with ⟨hok, _⟩ | ⟨error, herror, hentry⟩
  · rw [h] at hok
    cases hok
  · rw [h] at herror
    cases herror
    exact genuine_of_entry (hprogress.wiring ▸ hg.wellFormed) hsettled hentry

/-- The circle with which resolving an edge fails. -/
theorem Sound.genuine_of_resolve (hg : g.Sound) {e : EdgeId} {c : Cycle}
    (h : (g.resolve e).1 = .error (.resolve (.cycle c))) :
    (g.resolve e).2.Genuine (.edge e) c := by
  have hdemand := error_of_resolve h
  by_cases he : g.wiring.HasKey (.edge e)
  · rw [resolve_of_hasKey he]
    exact hg.genuine_of_demand hdemand
  · have hedge : g.edge e = .error (.unknownEdge e) := by
      rw [edge, Wiring.edge?, Array.getElem?_eq_none (Nat.le_of_not_lt he)]
    rw [resolve, hedge] at h
    cases h

/-- The circles that are reported, when resolving or freezing or by what is known of a key, are
circles of the graph to which what was asked for leads; and as long as requests follow on one
another, two that share a key are one. -/
theorem circles_genuine (hg : g.Reachable) :
    (∀ key c, g.entry key = .failed (.cycle c) → g.Genuine key c) ∧
      (∀ e c, (g.resolve e).1 = .error (.resolve (.cycle c)) →
        (g.resolve e).2.Genuine (.edge e) c) ∧
      (∀ c, .cycle c ∈ g.resolveAll.1 →
        ∃ e, g.wiring.HasKey (.edge e) ∧ g.resolveAll.2.Genuine (.edge e) c) ∧
      (∀ found, g.freeze.1 = .error found → ∀ v ∈ found, ∀ c, v.cycle? = some c →
        ∃ e, g.wiring.HasKey (.edge e) ∧ g.freeze.2.Genuine (.edge e) c) ∧
      ∀ later key key' c c', g.entry key = .failed (.cycle c) →
        (g.serves later).entry key' = .failed (.cycle c') →
        ∀ member ∈ c.chain, member ∈ c'.chain → c = c' := by
  have hsound := hg.sound
  refine ⟨fun key c => hsound.genuine, fun e c => hsound.genuine_of_resolve, fun c hmem => ?all,
    fun found hfound v hv c hcycle => ?freeze,
    fun later key key' c c' hentry hentry' member hmember hmember' => ?one⟩
  case all =>
    obtain ⟨hprogress, hafter⟩ := hsound.call .resolveAll
    obtain ⟨_, _, _, herrors⟩ := resolveAll_spec hsound.settled
    rw [herrors] at hmem
    obtain ⟨e, he, hgenuine⟩ := hafter.genuine_of_mem_failures hmem
    exact ⟨e, hprogress.wiring ▸ he, hgenuine⟩
  case freeze =>
    obtain ⟨hafter, _, hprogress, hverdict⟩ := hsound.freeze_spec
    rw [hverdict, verdict] at hfound
    split at hfound
    · cases hfound
    · cases hfound
      obtain ⟨e, he, hgenuine⟩ := hafter.genuine_of_mem_failures (mem_of_cycle?_eq_some hv hcycle)
      exact ⟨e, hprogress.wiring ▸ he, hgenuine⟩
  case one =>
    have hfailed := (hsound.genuine hentry).failed member hmember
    have hkept := hsound.entry_serves later (hsound.hasKey_of_entry hfailed) (by rw [hfailed]; rfl)
    have hfailed' := ((hsound.serves later).1.genuine hentry').failed member hmember'
    rw [hkept, hfailed] at hfailed'
    cases hfailed'
    rfl

/-- In the ring the first edge leads to a circle that it is not part of, and the second edge, which
is resolved later and whose upward values are never asked for, fails with the same. -/
theorem ring_circle_genuine :
    ring.Reachable ∧ ∃ c d : Cycle,
      (ring.resolve ⟨0⟩).1 = .error (.resolve (.cycle c)) ∧ .edge ⟨0⟩ ∉ c.chain ∧
      (ring.resolve ⟨0⟩).2.Genuine (.edge ⟨0⟩) c ∧
      (ring.call (.resolve ⟨0⟩)).entry (.edge ⟨0⟩) = .failed (.cycle c) ∧
      ((ring.call (.resolve ⟨0⟩)).serves [.call .resolveAll]).entry (.edge ⟨1⟩) =
        .failed (.cycle d) ∧ c = d := by
  have hring : ring.Reachable := reachable_after _ _
  have hlater : (ring.call (.resolve ⟨0⟩)).Reachable := hring.serve (.call (.resolve ⟨0⟩))
  let c : Cycle := ⟨[.down ⟨0⟩, .down ⟨1⟩, .down ⟨0⟩]⟩
  have hresolve : (ring.resolve ⟨0⟩).1 = .error (.resolve (.cycle c)) := by decide
  have hfirst : (ring.call (.resolve ⟨0⟩)).entry (.edge ⟨0⟩) = .failed (.cycle c) := by decide
  have hsecond : ((ring.call (.resolve ⟨0⟩)).serves [.call .resolveAll]).entry (.edge ⟨1⟩) =
      .failed (.cycle c) := by decide
  obtain ⟨_, hgenuine, _⟩ := circles_genuine hring
  obtain ⟨_, _, _, _, hone⟩ := circles_genuine hlater
  have hsame := hone [.call .resolveAll] _ _ _ _ hfirst hsecond (.down ⟨0⟩) (by decide) (by decide)
  exact ⟨hring, c, c, hresolve, by decide, hgenuine _ _ hresolve, hfirst, hsecond, hsame⟩

end Graph

end Negotiation
