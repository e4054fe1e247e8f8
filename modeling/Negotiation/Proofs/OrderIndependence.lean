import Negotiation.Proofs.Requests

/-!
The order of requests does not matter.

Two graphs that come from one graph by requests to resolve agree on every key that is settled in
both (`Graph.calls_agree`): a failed edge fails alike in both, a circle up to the key with which its
chain starts.  Where every edge was demanded, the same keys are settled, so the same number of
evaluations was made.
-/

namespace Negotiation

open Relation

/-- The same requirement is not met, where the chain of a circle may start with another key. -/
inductive Violation.Agrees : Violation → Violation → Prop
  | same (v : Violation) : Agrees v v
  | resolution {e f : ResolveError} (h : e.Agrees f) : Agrees (.resolution e) (.resolution f)

/-- Two graphs were handed out alike, or the same requirements are not met in the same order. -/
inductive VerdictsAgree :
    Except (List Violation) BoundGraph → Except (List Violation) BoundGraph → Prop
  | ok (bound : BoundGraph) : VerdictsAgree (.ok bound) (.ok bound)
  | error {found others : List Violation} (h : List.Forall₂ Violation.Agrees found others) :
      VerdictsAgree (.error found) (.error others)

namespace Graph

/-- Collecting what is distinct respects a relation that is one to one. -/
theorem forall₂_addDistinct {r : ResolveError → ResolveError → Prop} (hr : Relator.BiUnique r)
    {found others : List ResolveError} {error other : ResolveError}
    (hfound : List.Forall₂ r found others) (hstep : r error other) :
    List.Forall₂ r (addDistinct found error) (addDistinct others other) := by
  have hmem : error ∈ found ↔ other ∈ others := List.rel_mem hr hstep hfound
  by_cases hin : error ∈ found
  · rw [addDistinct, if_pos hin, addDistinct, if_pos (hmem.mp hin)]
    exact hfound
  · rw [addDistinct, if_neg hin, addDistinct, if_neg (mt hmem.mpr hin)]
    exact List.rel_append hfound (.cons hstep .nil)

/-- The failure of some key. -/
def Fails (g : Graph) (error : ResolveError) : Prop :=
  ∃ key, g.entry key = .failed error

/-- Failures of one graph that agree with one another are the same failure. -/
theorem Sound.eq_of_agrees {g : Graph} (hg : g.Sound) {error other : ResolveError}
    (herror : g.Fails error) (hother : g.Fails other) (hagrees : error.Agrees other) :
    error = other := by
  obtain ⟨key, hkey⟩ := herror
  obtain ⟨key', hkey'⟩ := hother
  exact hg.settled.consistent.eq_of_agrees hkey hkey' hagrees

/-- What does not depend on what is known of the keys. -/
theorem requirements_eq {g h : Graph} (hwiring : h.wiring = g.wiring)
    (hroots : h.markedRoots = g.markedRoots) (hsettings : h.settings = g.settings) :
    h.reachability = g.reachability ∧ h.cardinalityViolations = g.cardinalityViolations ∧
      h.orphanViolations = g.orphanViolations ∧
      h.unreachableViolations g.reachability = g.unreachableViolations g.reachability := by
  obtain ⟨wiring, markedRoots, settings, _, _, _⟩ := g
  obtain ⟨wiring', markedRoots', settings', _, _, _⟩ := h
  cases hwiring
  cases hroots
  cases hsettings
  exact ⟨rfl, rfl, rfl, rfl⟩

/-- The failures of two graphs that are the same failure. -/
def SharedFailure (g h : Graph) (error other : ResolveError) : Prop :=
  g.Fails error ∧ h.Fails other ∧ error.Agrees other

section Agreement

variable {g h : Graph} (hg : g.Sound) (hh : h.Sound)

include hg hh

/-- Failures of two graphs that agree with one another determine one another. -/
theorem biUnique_sharedFailure : Relator.BiUnique (SharedFailure g h) := by
  constructor
  · rintro a b c ⟨ha, hb, hab⟩ ⟨hc, _, hcb⟩
    exact hg.eq_of_agrees ha hc (hab.trans hcb.symm)
  · rintro a b c ⟨_, hb, hab⟩ ⟨_, hc, hac⟩
    exact hh.eq_of_agrees hb hc (hab.symm.trans hac)

variable (hwiring : h.wiring = g.wiring)

include hwiring

theorem entry_agrees {key : FlowKey} (hkey : (g.entry key).isTerminal = true)
    (hkey' : (h.entry key).isTerminal = true) : (g.entry key).Agrees (h.entry key) := by
  have hconsistent := hh.settled.consistent
  rw [hwiring] at hconsistent
  exact hg.settled.consistent.agrees hconsistent hkey hkey'

variable (hgc : g.Complete) (hhc : h.Complete)

include hgc hhc

theorem edge_agrees {e : EdgeId} (he : g.wiring.HasKey (.edge e)) :
    (g.entry (.edge e)).Agrees (h.entry (.edge e)) :=
  entry_agrees hg hh hwiring (hgc e he) (hhc e (hwiring.symm ▸ he))

theorem failures_agree : List.Forall₂ ResolveError.Agrees g.failures h.failures := by
  have hall : List.Forall₂ (SharedFailure g h) (g.wiring.edgeIds.filterMap g.failure?)
      (g.wiring.edgeIds.filterMap h.failure?) := by
    have hsame : List.Forall₂ (fun e e' => e = e' ∧ g.wiring.HasKey (.edge e)) g.wiring.edgeIds
        g.wiring.edgeIds := List.forall₂_same.mpr fun e he => ⟨rfl, mem_edgeIds.mp he⟩
    refine List.rel_filterMap ?_ hsame
    rintro e _ ⟨rfl, he⟩
    rw [failure?_eq he, failure?_eq (hwiring.symm ▸ he)]
    have hagrees := edge_agrees hg hh hwiring hgc hhc he
    have hleft : ∀ error, g.entry (.edge e) = .failed error → g.Fails error :=
      fun _ hentry => ⟨_, hentry⟩
    have hright : ∀ error, h.entry (.edge e) = .failed error → h.Fails error :=
      fun _ hentry => ⟨_, hentry⟩
    generalize g.entry (.edge e) = left at hagrees hleft
    generalize h.entry (.edge e) = right at hagrees hright
    cases hagrees with
    | resolved values => exact .none
    | failed hsame => exact .some ⟨hleft _ rfl, hright _ rfl, hsame⟩
  rw [failures, failures, hwiring]
  have hfold : List.Forall₂ (SharedFailure g h)
      ((g.wiring.edgeIds.filterMap g.failure?).foldl addDistinct [])
      ((g.wiring.edgeIds.filterMap h.failure?).foldl addDistinct []) :=
    List.rel_foldl (R := SharedFailure g h) (P := List.Forall₂ (SharedFailure g h))
      (fun _ _ hfound _ _ hstep => forall₂_addDistinct (biUnique_sharedFailure hg hh) hfound hstep)
      .nil hall
  exact hfold.imp fun _ _ hshared => hshared.2.2

theorem progress_eq_of_complete {e : EdgeId} (he : g.wiring.HasKey (.edge e)) :
    g.progress (.edge e) = h.progress (.edge e) := by
  rw [progress_eq he, progress_eq (hwiring.symm ▸ he)]
  exact (edge_agrees hg hh hwiring hgc hhc he).progress_eq

theorem resolved?_eq_of_complete {e : EdgeId} (he : g.wiring.HasKey (.edge e)) :
    g.resolved? e = h.resolved? e := by
  rw [resolved?_eq he, resolved?_eq (hwiring.symm ▸ he),
    (edge_agrees hg hh hwiring hgc hhc he).values?_eq]

theorem boundEdge?_eq_of_complete {e : EdgeId} (he : g.wiring.HasKey (.edge e)) :
    g.boundEdge? e = h.boundEdge? e := by
  have hresolved := resolved?_eq_of_complete hg hh hwiring hgc hhc he
  have hedge : g.wiring.edge? e = some g.wiring.edges[e.index] := Array.getElem?_eq_getElem he
  rw [boundEdge?, boundEdge?, hwiring, hedge, ← hresolved]
  cases hvalue : g.resolved? e with
  | none => rfl
  | some value =>
      have hflows : g.flows? g.wiring.edges[e.index] = h.flows? g.wiring.edges[e.index] := by
        have hsupports : ∀ {k : Graph}, k.Sound → k.wiring = g.wiring → k.resolved? e = some value →
            g.wiring.Supports k.known.memo (.edge e) := by
          intro k hk hsame hsome
          rw [resolved?_eq (hsame.symm ▸ he)] at hsome
          obtain ⟨values, hvalues, _⟩ := Option.bind_eq_some_iff.mp hsome
          cases hentry : k.entry (.edge e) with
          | resolved found =>
              rw [← hsame]
              exact (hk.settled.consistent.evaluate_of_resolved hentry).1
          | unresolved => simp [hentry, Entry.values?] at hvalues
          | resolving => simp [hentry, Entry.values?] at hvalues
          | failed error => simp [hentry, Entry.values?] at hvalues
        have hleft := hsupports hg rfl hvalue
        have hright := hsupports hh hwiring (hresolved ▸ hvalue)
        rw [flows?_eq, flows?_eq]
        refine congrArg Except.toOption (Wiring.flows_congr ?_ ?_)
        · exact hleft.values?_eq hright (by simp [Wiring.dependencies_edge hedge])
        · exact hleft.values?_eq hright (by simp [Wiring.dependencies_edge hedge])
      simp only [Option.bind_eq_bind, Option.bind_some, hflows]

variable (hroots : h.markedRoots = g.markedRoots) (hsettings : h.settings = g.settings)

include hroots hsettings

theorem violations_agree :
    List.Forall₂ Violation.Agrees (g.violations g.failures g.reachability)
      (h.violations h.failures h.reachability) := by
  have hunresolved : h.unresolvedViolations = g.unresolvedViolations := by
    rw [unresolvedViolations, unresolvedViolations, hwiring]
    refine List.filterMap_congr fun e he => ?_
    rw [progress_eq_of_complete hg hh hwiring hgc hhc (mem_edgeIds.mp he)]
  obtain ⟨hreach, hcardinality, horphans, hunreachable⟩ :=
    requirements_eq hwiring hroots hsettings
  have hsame : ∀ vs : List Violation, List.Forall₂ Violation.Agrees vs vs := fun vs =>
    List.forall₂_same.mpr fun v _ => .same v
  rw [violations, violations, hunresolved, hreach, hcardinality, horphans, hunreachable]
  have hfailures : List.Forall₂ Violation.Agrees (g.failures.map .resolution)
      (h.failures.map .resolution) :=
    List.rel_map (fun _ _ hagrees => .resolution hagrees)
      (failures_agree hg hh hwiring hgc hhc)
  exact List.rel_append (List.rel_append (List.rel_append (List.rel_append hfailures
    (hsame _)) (hsame _)) (hsame _)) (hsame _)

theorem elaborate_eq_of_complete : g.elaborate g.reachability = h.elaborate h.reachability := by
  rw [elaborate, elaborate, (requirements_eq hwiring hroots hsettings).1, hwiring, BoundGraph.mk.injEq]
  constructor
  · refine List.filterMap_congr fun n _ => ?_
    rw [boundNode?, boundNode?, hwiring]
  · refine List.filterMap_congr fun e he => ?_
    exact boundEdge?_eq_of_complete hg hh hwiring hgc hhc
      (mem_edgeIds.mp (List.mem_of_mem_filter he))

/-- Two graphs of the same wiring in which every edge is settled get the same verdict. -/
theorem verdict_agrees : VerdictsAgree g.verdict h.verdict := by
  have hviolations := violations_agree hg hh hwiring hgc hhc hroots hsettings
  have helaborate := elaborate_eq_of_complete hg hh hwiring hgc hhc hroots hsettings
  rw [verdict, verdict, ← helaborate]
  generalize g.violations g.failures g.reachability = found at hviolations ⊢
  generalize h.violations h.failures h.reachability = others at hviolations ⊢
  cases hviolations with
  | nil => exact .ok _
  | cons hfirst hrest => exact .error (.cons hfirst hrest)

end Agreement

/-- The keys that are settled once every edge is: those that were, and those that the edges touch. -/
theorem terminal_iff_of_complete {g h : Graph} (hh : h.Sound) (hcomplete : h.Complete)
    (hprogress : Progresses (edgeKeys g.wiring) g h) (key : FlowKey) :
    (h.entry key).isTerminal = true ↔ (g.entry key).isTerminal = true ∨
      ∃ origin ∈ edgeKeys g.wiring, ReflTransGen g.wiring.Touches origin key := by
  refine ⟨hprogress.within key, fun hkey => ?_⟩
  rcases hkey with hterminal | ⟨origin, ⟨e, he, rfl⟩, hpath⟩
  · exact hprogress.terminal hterminal
  · induction hpath with
    | refl => exact hcomplete e (hprogress.wiring.symm ▸ he)
    | tail _ hstep ih =>
        exact (hh.settled.consistent.accounts ih).closed (hprogress.wiring.symm ▸ hstep)

/-- Requests to resolve, in whatever order, lead to graphs that agree: on every key that is settled
in both, and on what freezing answers.  If both settle every edge, they settle the same keys, with
the same number of evaluations. -/
theorem calls_agree {g : Graph} (hg : g.Reachable) (first second : List Call) :
    (∀ key, ((g.calls first).entry key).isTerminal = true →
        ((g.calls second).entry key).isTerminal = true →
        ((g.calls first).entry key).Agrees ((g.calls second).entry key)) ∧
      VerdictsAgree (g.calls first).freeze.1 (g.calls second).freeze.1 ∧
      ((∀ e ∈ g.wiring.edgeIds, (∃ c ∈ first, c.Demands e) ∧ ∃ c ∈ second, c.Demands e) →
        (∀ e ∈ g.wiring.edgeIds,
          (g.calls first).progress (.edge e) = (g.calls second).progress (.edge e) ∧
            (g.calls first).resolved? e = (g.calls second).resolved? e) ∧
          (g.calls first).evaluations = (g.calls second).evaluations) := by
  obtain ⟨hfirst, hleft, hdemanded⟩ := hg.sound.calls first
  obtain ⟨hsecond, hright, hdemanded'⟩ := hg.sound.calls second
  have hwiring : (g.calls second).wiring = (g.calls first).wiring :=
    hsecond.wiring.trans hfirst.wiring.symm
  refine ⟨fun key => entry_agrees hleft hright hwiring, ?_, fun hall => ?_⟩
  · obtain ⟨h, hh, hhc, hhprogress, hhfreeze⟩ := hleft.exists_freeze_eq
    obtain ⟨k, hk, hkc, hkprogress, hkfreeze⟩ := hright.exists_freeze_eq
    rw [hhfreeze, hkfreeze]
    refine verdict_agrees hh hk ?_ hhc hkc ?_ ?_
    · rw [hkprogress.wiring, hhprogress.wiring, hwiring]
    · rw [hkprogress.markedRoots, hhprogress.markedRoots, hsecond.markedRoots, hfirst.markedRoots]
    · rw [hkprogress.settings, hhprogress.settings, hsecond.settings, hfirst.settings]
  · have hcomplete : (g.calls first).Complete := fun e he => by
      rw [hfirst.wiring] at he
      exact hdemanded e he (hall e (mem_edgeIds.mpr he)).1
    have hcomplete' : (g.calls second).Complete := fun e he => by
      rw [hsecond.wiring] at he
      exact hdemanded' e he (hall e (mem_edgeIds.mpr he)).2
    refine ⟨fun e he => ?_, ?_⟩
    · have he' : (g.calls first).wiring.HasKey (.edge e) := by
        rw [hfirst.wiring]
        exact mem_edgeIds.mp he
      exact ⟨progress_eq_of_complete hleft hright hwiring hcomplete hcomplete' he',
        resolved?_eq_of_complete hleft hright hwiring hcomplete hcomplete' he'⟩
    · rw [evaluations_eq, evaluations_eq, hleft.settled.counted, hright.settled.counted, hwiring]
      refine congrArg Set.ncard (Memo.evaluated_eq_of_iff fun key => ?_)
      exact (terminal_iff_of_complete hleft hcomplete hfirst key).trans
        (terminal_iff_of_complete hright hcomplete' hsecond key).symm

/-- Two nodes that pass on to one another what they get. -/
def ring : Graph :=
  let bus : Protocol := ⟨⟨"bus", .empty, .empty⟩, .policy .intersect, .absent, .absent⟩
  after {} [.build (.addNode (.identity "left" bus)), .build (.addNode (.identity "right" bus)),
    .build (.bind (NodeId.output ⟨0⟩ 0) (NodeId.input ⟨1⟩ 0)),
    .build (.bind (NodeId.output ⟨1⟩ 0) (NodeId.input ⟨0⟩ 0))]

/-- In the ring, it does not matter with which edge the resolution starts. -/
theorem ring_agrees :
    ring.Reachable ∧
      VerdictsAgree (ring.calls [.resolve ⟨0⟩, .resolveAll]).freeze.1
        (ring.calls [.resolve ⟨1⟩, .freeze]).freeze.1 ∧
      (ring.calls [.resolve ⟨0⟩, .resolveAll]).evaluations =
        (ring.calls [.resolve ⟨1⟩, .freeze]).evaluations := by
  have hring : ring.Reachable := reachable_after _ _
  obtain ⟨_, hverdict, hall⟩ := calls_agree hring [.resolve ⟨0⟩, .resolveAll] [.resolve ⟨1⟩, .freeze]
  exact ⟨hring, hverdict, (hall fun e _ => ⟨⟨.resolveAll, by simp, trivial⟩,
    ⟨.freeze, by simp, trivial⟩⟩).2⟩

/-- The chain starts where the resolution entered the ring. -/
example : (ring.resolve ⟨0⟩).1 ≠ (ring.resolve ⟨1⟩).1 := by decide

end Graph

end Negotiation
