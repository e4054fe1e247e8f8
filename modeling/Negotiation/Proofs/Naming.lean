import Negotiation.Proofs.Circles
import Negotiation.Proofs.Requirements

/-!
Which circles are named.

A graph in which a key depends on itself cannot be frozen.  The circle need not be named for that:
a walk gives up at the first dependency that does not resolve, so that it follows the blame from an
edge into a circle, or to a key that refuses what it gets, and this key may come before the circle
(`Graph.masked`).  Freezing names the circles into which the blame leads from some edge
(`Graph.circles_named`), and these do not depend on the order of demands.
-/

namespace Negotiation

open Relation

namespace Wiring

variable {w : Wiring} {key other : FlowKey} {c : Cycle}

/-- The blame leads from the key into the circle, wherever its chain starts. -/
def RunsInto (w : Wiring) (key : FlowKey) (c : Cycle) : Prop :=
  ∃ member d, ReflTransGen w.Blames key member ∧ w.Closes member d ∧ c.Agrees d

theorem runsInto_iff : w.RunsInto key c ↔ ∃ d, c.Agrees d ∧ w.Faults key (.cycle d) := by
  constructor
  · rintro ⟨member, d, hpath, hcloses, hagrees⟩
    exact ⟨d, hagrees, (Causes.closes hcloses).faults hpath⟩
  · rintro ⟨d, hagrees, hfaults⟩
    obtain ⟨member, hpath, hcloses⟩ := hfaults.exists_blames_closes
    exact ⟨member, d, hpath, hcloses, hagrees⟩

/-- A key that depends on itself is one on which some edge depends. -/
theorem WellFormed.exists_edge_of_transGen (hwf : w.WellFormed) (hloop : TransGen w.Needs key key) :
    ∃ e, w.HasKey (.edge e) ∧ ReflTransGen w.Needs (.edge e) key := by
  obtain ⟨dependency, hneeds, hback⟩ := TransGen.head'_iff.mp hloop
  cases hnode : key.node? with
  | none =>
      cases key with
      | edge e => exact ⟨e, hasKey_of_needs hneeds, .refl⟩
      | down n => cases hnode
      | up n => cases hnode
  | some n =>
      obtain ⟨e, edge, hedge, ⟨rfl, _⟩ | ⟨rfl, _⟩ | ⟨rfl, _⟩⟩ := hwf.exists_of_needs hnode hneeds
      · exact ⟨e, .of_edge? hedge, hback⟩
      · have hdown : w.Needs (.edge e) (.down edge.output.node) :=
          needs_edge_iff.mpr ⟨edge, hedge, Or.inl rfl⟩
        exact ⟨e, .of_edge? hedge, .head hdown hback⟩
      · have hup : w.Needs (.edge e) (.up edge.input.node) :=
          needs_edge_iff.mpr ⟨edge, hedge, Or.inr rfl⟩
        exact ⟨e, .of_edge? hedge, .head hup hback⟩

theorem not_resolvable_of_transGen_self (hpath : ReflTransGen w.Needs key other)
    (hloop : TransGen w.Needs other other) : ¬ w.Resolvable key := by
  intro hresolvable
  exact (hresolvable.of_transGen (hloop.trans_right hpath)).not_transGen_self hloop

end Wiring

namespace Graph

variable {g : Graph}

theorem mem_failures_iff {error : ResolveError} :
    error ∈ g.failures ↔ ∃ e, g.wiring.HasKey (.edge e) ∧ g.entry (.edge e) = .failed error := by
  constructor
  · exact exists_of_mem_failures
  · rintro ⟨e, he, hentry⟩
    rw [failures, foldl_addDistinct, List.mem_eraseDups, List.mem_filterMap]
    refine ⟨e, mem_edgeIds.mpr he, ?_⟩
    rw [failure?_eq he]
    exact Entry.failure?_eq_some_iff.mpr hentry

theorem resolution_mem_violations {errors : List ResolveError} {error : ResolveError}
    (h : error ∈ errors) (reach : Reachability) :
    .resolution error ∈ g.violations errors reach := by
  simp [violations, h]

section Complete

variable (hg : g.Sound) (hcomplete : g.Complete) {e : EdgeId} (he : g.wiring.HasKey (.edge e))

include hg hcomplete he

/-- An edge that does not resolve keeps the failure with which it fails. -/
theorem exists_mem_failures (hnot : ¬ g.wiring.Resolvable (.edge e)) :
    ∃ error ∈ g.failures, g.wiring.Faults (.edge e) error := by
  rcases Entry.isTerminal_iff.mp (hcomplete e he) with ⟨values, hentry⟩ | ⟨error, hentry⟩
  · exact absurd ⟨values, hg.settled.consistent.yields hentry⟩ hnot
  · exact ⟨error, mem_failures_iff.mpr ⟨e, he, hentry⟩, hg.settled.consistent.faults hentry⟩

theorem exists_mem_failures_of_runsInto {c : Cycle} (hruns : g.wiring.RunsInto (.edge e) c) :
    ∃ d, c.Agrees d ∧ .cycle d ∈ g.failures := by
  obtain ⟨d, hagrees, hfaults⟩ := Wiring.runsInto_iff.mp hruns
  obtain ⟨error, hmem, hfails⟩ := exists_mem_failures hg hcomplete he hfaults.not_resolvable
  -- an edge fails in one way only
  cases hfaults.agrees hfails with
  | cycle hsame => exact ⟨_, hagrees.trans hsame, hmem⟩

end Complete

/-- What freezing reports where the key depends on itself. -/
structure Exposes (g : Graph) (key : FlowKey) (found : List Violation) : Prop where
  /-- There is an edge that depends on the key. -/
  asked : ∃ e, g.wiring.HasKey (.edge e) ∧ ReflTransGen g.wiring.Needs (.edge e) key
  /-- Every such edge is reported as failed. -/
  failed : ∀ e, g.wiring.HasKey (.edge e) → ReflTransGen g.wiring.Needs (.edge e) key →
    .unresolved e .failed ∈ found
  /-- The circles that are named are those into which the blame leads from an edge. -/
  named : ∀ c, (∃ d, c.Agrees d ∧ .resolution (.cycle d) ∈ found) ↔
    ∃ e, g.wiring.HasKey (.edge e) ∧ g.wiring.RunsInto (.edge e) c
  /-- Where no mismatch is reported, a circle is named. -/
  unmasked : (∀ m, .resolution (.mismatch m) ∉ found) → ∃ c, .resolution (.cycle c) ∈ found

/-- A graph in which a key depends on itself cannot be frozen, and the edges that depend on the key
are reported.  The circles that are named are those into which the blame leads from some edge: a
mismatch may mask all others, but not without being reported itself. -/
theorem circles_named (hg : g.Reachable) {key : FlowKey}
    (hloop : TransGen g.wiring.Needs key key) :
    ∃ found, g.freeze.1 = .error found ∧ g.Exposes key found := by
  have hsound := hg.sound
  obtain ⟨hafter, hcomplete, hprogress, hverdict⟩ := hsound.freeze_spec
  obtain ⟨e, he, hpath⟩ := hsound.wellFormed.exists_edge_of_transGen hloop
  have hnot : ∀ {e}, ReflTransGen g.wiring.Needs (.edge e) key →
      ¬ g.wiring.Resolvable (.edge e) := fun hpath =>
    Wiring.not_resolvable_of_transGen_self hpath hloop
  obtain ⟨_, found, hfound, _⟩ := hsound.freeze_of_not_resolvable he (hnot hpath)
  have hviolations :
      found = g.freeze.2.violations g.freeze.2.failures g.freeze.2.reachability := by
    rw [hfound, verdict] at hverdict
    split at hverdict
    · cases hverdict
    · exact Except.error.inj hverdict
  refine ⟨found, hfound, ⟨⟨e, he, hpath⟩, ?failed, fun c => ⟨?real, ?named⟩, ?unmasked⟩⟩
  case failed =>
    intro e he hpath
    obtain ⟨_, found', hfound', hmem⟩ := hsound.freeze_of_not_resolvable he (hnot hpath)
    rw [hfound] at hfound'
    cases hfound'
    exact hmem
  case real =>
    rintro ⟨d, hagrees, hmem⟩
    rw [hviolations] at hmem
    obtain ⟨e, he, hentry⟩ := mem_failures_iff.mp (mem_of_cycle?_eq_some hmem rfl)
    have hfaults := hafter.settled.consistent.faults hentry
    rw [hprogress.wiring] at he hfaults
    exact ⟨e, he, Wiring.runsInto_iff.mpr ⟨d, hagrees, hfaults⟩⟩
  case named =>
    rintro ⟨e, he, hruns⟩
    rw [← hprogress.wiring] at he hruns
    obtain ⟨d, hagrees, hmem⟩ := exists_mem_failures_of_runsInto hafter hcomplete he hruns
    rw [hviolations]
    exact ⟨d, hagrees, resolution_mem_violations hmem _⟩
  case unmasked =>
    intro hclear
    have hnot := hnot hpath
    rw [← hprogress.wiring] at he hnot
    obtain ⟨error, hmem, _⟩ := exists_mem_failures hafter hcomplete he hnot
    have hreported : .resolution error ∈ found := hviolations ▸ resolution_mem_violations hmem _
    cases error with
    | mismatch m => exact absurd hreported (hclear m)
    | cycle c => exact ⟨c, hreported⟩

/-- In the clutter a circle is named beside a mismatch: the blame leads into it from an edge. -/
theorem clutter_circles_named :
    clutter.Reachable ∧ TransGen clutter.wiring.Needs (.down ⟨2⟩) (.down ⟨2⟩) ∧
      ∃ found, clutter.freeze.1 = .error found ∧ clutter.Exposes (.down ⟨2⟩) found ∧
        (∃ v ∈ found, v.mismatch?.isSome = true) ∧
        ∃ e, clutter.wiring.HasKey (.edge e) ∧
          clutter.wiring.RunsInto (.edge e) (.around [.down ⟨3⟩, .down ⟨2⟩]) := by
  have hclutter : clutter.Reachable := reachable_after _ _
  have hneeds : .down ⟨3⟩ ∈ clutter.wiring.dependencies (.down ⟨2⟩) ∧
      .down ⟨2⟩ ∈ clutter.wiring.dependencies (.down ⟨3⟩) := by
    decide
  have hloop : TransGen clutter.wiring.Needs (.down ⟨2⟩) (.down ⟨2⟩) :=
    .head hneeds.1 (.single hneeds.2)
  obtain ⟨found, hfound, hexposes⟩ := circles_named hclutter hloop
  have hkinds : clutter.freeze.1.mapError (fun found => (found.any (·.mismatch?.isSome),
      found.contains (.resolution (.cycle (.around [.down ⟨3⟩, .down ⟨2⟩]))))) =
        .error (true, true) := by
    decide +kernel
  rw [hfound] at hkinds
  obtain ⟨hmismatch, hcycle⟩ := Prod.mk.inj (Except.error.inj hkinds)
  refine ⟨hclutter, hloop, found, hfound, hexposes, List.any_eq_true.mp hmismatch, ?_⟩
  exact (hexposes.named _).mp
    ⟨_, ⟨_, _, rfl, rfl, .refl _⟩, List.contains_iff_mem.mp hcycle⟩

/-- A ring that is entered through a fan-in, whose other branch comes from a source that offers less
than its port declares. -/
def masked : Graph :=
  let width : Schema := .ofList [("width", .number)]
  let bus : Protocol := ⟨⟨"bus", width, width⟩, .policy .intersect, .absent, .absent⟩
  after {} [.build (.addNode (.source "cpu" bus (.exactly 1) .empty)),
    .build (.addNode (.identity "left" bus)), .build (.addNode (.identity "right" bus)),
    .build (.bindGroup ⟨.fanIn, NodeId.input ⟨1⟩ 0, [NodeId.output ⟨0⟩ 0, NodeId.output ⟨2⟩ 0],
      .intersect, .identity, .identity⟩),
    .build (.bind (NodeId.output ⟨1⟩ 0) (NodeId.input ⟨2⟩ 0))]

/-- The downward values of the ring depend on themselves, but every walk meets the mismatch of the
source first: no circle is named. -/
theorem masked_names_no_circle :
    masked.Reachable ∧ TransGen masked.wiring.Needs (.down ⟨1⟩) (.down ⟨1⟩) ∧
      ∃ found, masked.freeze.1 = .error found ∧ ∀ c, .resolution (.cycle c) ∉ found := by
  have hneeds : .down ⟨3⟩ ∈ masked.wiring.dependencies (.down ⟨1⟩) ∧
      .down ⟨2⟩ ∈ masked.wiring.dependencies (.down ⟨3⟩) ∧
      .down ⟨1⟩ ∈ masked.wiring.dependencies (.down ⟨2⟩) := by
    decide
  have hnone : masked.freeze.1.mapError (·.all fun v => v.cycle?.isNone) = .error true := by
    decide +kernel
  refine ⟨reachable_after _ _, .head hneeds.1 (.head hneeds.2.1 (.single hneeds.2.2)), ?_⟩
  cases hfreeze : masked.freeze.1 with
  | ok bound =>
      rw [hfreeze] at hnone
      cases hnone
  | error found =>
      rw [hfreeze] at hnone
      refine ⟨found, rfl, ?_⟩
      intro c hcycle
      exact absurd (List.all_eq_true.mp (Except.error.inj hnone) _ hcycle) Bool.false_ne_true

end Graph

end Negotiation
