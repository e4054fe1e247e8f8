import Negotiation.Proofs.Finality
import Negotiation.Proofs.Snapshot

/-!
Building, resolving, and after freezing.

A graph is built until resolution starts, and never again: what is built then is refused, and nodes,
edges, roots and the entries for their keys stay as they are (`Graph.phases_apart`).  Freezing ends
resolution too, whether it succeeds or not: from then on a graph is at rest (`Graph.AtRest`), and a
request changes nothing but what stands in the journal about freezing (`Graph.freeze_repeats`).
-/

namespace Negotiation

/-- The request starts the resolution: it demands an edge that there is, or freezes. -/
def Call.Starts (w : Wiring) : Call → Prop
  | resolve e => w.HasKey (.edge e)
  | resolveAll => ∃ e, w.HasKey (.edge e)
  | freeze => True

namespace Graph

variable {g h k : Graph}

/-- Whatever is to be built is refused, and leaves the graph as it is. -/
structure RefusesBuilding (g : Graph) : Prop where
  addNode : ∀ node, g.addNode node = (.error .sealed, g)
  markRoot : ∀ n, g.markRoot n = (.error .sealed, g)
  bind : ∀ output input, g.bind output input = (.error .sealed, g)
  bindThrough : ∀ output input adapter,
    g.bindThrough output input adapter = (.error .sealed, g)
  bindGroup : ∀ group, g.bindGroup group = (.error .sealed, g)

theorem refusesBuilding_of_isSealed (hsealed : g.isSealed = true) : g.RefusesBuilding := by
  have hrefused := ensureOpen_of_isSealed hsealed
  constructor
  · intro node
    simp only [addNode, hrefused]
  · intro n
    simp only [markRoot, hrefused]
    rfl
  · intro output input
    simp only [bind, bindThrough, hrefused]
  · intro output input adapter
    simp only [bindThrough, hrefused]
  · intro group
    simp only [bindGroup, hrefused]

/-- The second graph is sealed, with the nodes, edges and roots of the first. -/
structure SealedAs (g h : Graph) : Prop where
  isSealed : h.isSealed = true
  wiring : h.wiring = g.wiring
  markedRoots : h.markedRoots = g.markedRoots

theorem SealedAs.trans (hgh : SealedAs g h) (hhk : SealedAs h k) : SealedAs g k :=
  ⟨hhk.isSealed, hhk.wiring.trans hgh.wiring, hhk.markedRoots.trans hgh.markedRoots⟩

theorem isSealed_freeze (hg : g.Sound) : g.freeze.2.isSealed = true := by
  cases hfrozen : g.frozen with
  | some bound =>
      rw [freeze_of_frozen hfrozen]
      exact (hg.handedOut hfrozen).1
  | none =>
      obtain ⟨_, _, _, _, hsealed⟩ := settleAll_spec hg.settled
      obtain ⟨_, journal, hafter⟩ := freeze_eq hg.settled hfrozen
      rw [hafter]
      generalize g.settleAll = settled at hsealed
      exact hsealed

/-- A request that starts the resolution seals the graph. -/
theorem isSealed_of_starts (hg : g.Sound) {c : Call} (hstarts : c.Starts g.wiring) :
    (g.call c).isSealed = true := by
  cases c with
  | resolve e =>
      rw [call, resolve_of_hasKey hstarts]
      exact demand_isSealed _
  | resolveAll =>
      -- The edge is settled afterwards, and of an open graph nothing is known.
      obtain ⟨e, he⟩ := hstarts
      obtain ⟨hprogress, _⟩ := hg.call .resolveAll
      have hkey : (g.call .resolveAll).wiring.HasKey (.edge e) := by
        rw [hprogress.wiring]
        exact he
      exact isSealed_of_isTerminal hkey (hg.terminal_of_demands (c := .resolveAll) he trivial)
  | freeze => exact isSealed_freeze hg

/-- Any other request that resolves edges finds nothing to do. -/
theorem call_of_not_starts {c : Call} (hnot : ¬ c.Starts g.wiring) : g.call c = g := by
  cases c with
  | resolve e => exact resolve_of_not_hasKey hnot
  | resolveAll =>
      have hnone : g.wiring.edgeIds = [] := by
        rw [List.eq_nil_iff_forall_not_mem]
        intro e he
        exact hnot ⟨e, mem_edgeIds.mp he⟩
      rw [call, resolveAll, hnone]
      rfl
  | freeze => exact absurd trivial hnot

theorem isSealed_call (hg : g.Sound) (hsealed : g.isSealed = true) (c : Call) :
    (g.call c).isSealed = true := by
  by_cases hstarts : c.Starts g.wiring
  · exact isSealed_of_starts hg hstarts
  · rw [call_of_not_starts hstarts]
    exact hsealed

/-- A sealed graph stays sealed, as it is. -/
theorem sealedAs_serve (hg : g.Sound) (hsealed : g.isSealed = true) (request : Request) :
    SealedAs g (g.serve request) := by
  cases request with
  | build b =>
      rw [serve, build_of_isSealed g hsealed b]
      exact ⟨hsealed, rfl, rfl⟩
  | sealWiring =>
      have hseal := progresses_sealWiring (g := g)
      refine ⟨?_, hseal.wiring, hseal.markedRoots⟩
      rw [serve, isSealed, sealWiring_ledger]
      rfl
  | call c =>
      obtain ⟨hprogress, _⟩ := hg.call c
      exact ⟨isSealed_call hg hsealed c, hprogress.wiring, hprogress.markedRoots⟩

theorem sealedAs_serves (hg : g.Sound) (hsealed : g.isSealed = true) (later : List Request) :
    SealedAs g (g.serves later) := by
  induction later generalizing g with
  | nil => exact ⟨hsealed, rfl, rfl⟩
  | cons first rest ih =>
      have hstep := sealedAs_serve hg hsealed first
      exact hstep.trans (ih (hg.serve first).1 hstep.isSealed)

/-- The second graph has been built as far as the first, and is built no further: it refuses to, and
what it keeps has two entries for each node and one for each edge. -/
structure Built (g h : Graph) : Prop extends SealedAs g h where
  refuses : h.RefusesBuilding
  sizes : ∃ ledger, h.ledger = some ledger ∧ ledger.memo.down.size = g.wiring.slots.size ∧
    ledger.memo.up.size = g.wiring.slots.size ∧ ledger.memo.edge.size = g.wiring.edges.size

theorem SealedAs.built (hgh : SealedAs g h) (hh : h.Sound) : Built g h := by
  refine ⟨hgh, refusesBuilding_of_isSealed hgh.isSealed, ?_⟩
  obtain ⟨ledger, hledger⟩ := Option.isSome_iff_exists.mp hgh.isSealed
  have hknown : h.known = ledger := by
    rw [known, hledger]
    rfl
  have hsizes := hh.settled.consistent.sizes
  rw [hknown, hgh.wiring] at hsizes
  exact ⟨ledger, hledger, hsizes⟩

/-- From the request with which resolution starts, a graph is built no further, whatever else is
requested.  A request that does not start it changes nothing: to resolve an edge that is not there,
or every edge where there is none. -/
theorem phases_apart (hg : g.Reachable) (c : Call) :
    (c.Starts g.wiring → ∀ later : List Request, Built g ((g.call c).serves later)) ∧
      (¬ c.Starts g.wiring → g.call c = g) := by
  constructor
  · intro hstarts later
    obtain ⟨hprogress, hcalled⟩ := hg.sound.call c
    have hfirst : SealedAs g (g.call c) :=
      ⟨isSealed_of_starts hg.sound hstarts, hprogress.wiring, hprogress.markedRoots⟩
    have hlater := sealedAs_serves hcalled hfirst.isSealed later
    exact (hfirst.trans hlater).built (hcalled.serves later).1
  · intro hnot
    exact call_of_not_starts hnot

/-- Resolving the edge of the line starts the resolution, and so does freezing a graph without
edges; resolving every edge of such a graph does not. -/
theorem line_phases_apart :
    line.Reachable ∧ (Call.resolve ⟨0⟩).Starts line.wiring ∧
      Built line ((line.call (.resolve ⟨0⟩)).serves
        [.build (.bind (NodeId.output ⟨0⟩ 0) (NodeId.input ⟨1⟩ 0)), .call .freeze]) ∧
      (Graph.empty {}).Reachable ∧ Call.freeze.Starts (Graph.empty {}).wiring ∧
      Built (.empty {}) (((Graph.empty {}).call .freeze).serves []) ∧
      ¬ Call.resolveAll.Starts (Graph.empty {}).wiring ∧
      (Graph.empty {}).call .resolveAll = .empty {} := by
  have hline : line.Reachable := reachable_after _ _
  have hedge : line.wiring.HasKey (.edge ⟨0⟩) := hasKey_iff.mp (by decide)
  have hempty : (Graph.empty {}).Reachable := .empty {}
  have hnot : ¬ Call.resolveAll.Starts (Graph.empty {}).wiring := fun ⟨_, he⟩ =>
    Nat.not_lt_zero _ he
  exact ⟨hline, hedge, (phases_apart hline (.resolve ⟨0⟩)).1 hedge _, hempty, trivial,
    (phases_apart hempty .freeze).1 trivial [], hnot, (phases_apart hempty _).2 hnot⟩

/-- Every edge of a graph without edges was resolved, and still a node is added to it. -/
theorem empty_resolveAll_open :
    (Graph.empty {}).Reachable ∧ ∃ node,
      (((Graph.empty {}).call .resolveAll).addNode node).1 = .ok ⟨0⟩ ∧
      (((Graph.empty {}).call .resolveAll).addNode node).2.wiring ≠ (Graph.empty {}).wiring ∧
      ¬ Built (.empty {}) (((Graph.empty {}).call .resolveAll).serves []) := by
  let bus : Protocol := ⟨⟨"bus", .empty, .empty⟩, .policy .intersect, .absent, .absent⟩
  let node : Node := .identity "left" bus
  have hadded : (((Graph.empty {}).call .resolveAll).addNode node).1 = .ok ⟨0⟩ := rfl
  refine ⟨.empty {}, node, hadded, ?_, ?_⟩
  · intro hsame
    have hsize := congrArg (fun w : Wiring => w.slots.size) hsame
    exact absurd hsize (by decide)
  · intro hbuilt
    have hrefused := congrArg Prod.fst (hbuilt.refuses.addNode node)
    exact absurd (hrefused.symm.trans hadded) nofun

/-- Every edge is settled, and what is handed out is what freezing makes of that. -/
structure AtRest (g : Graph) : Prop where
  sound : g.Sound
  isSealed : g.isSealed = true
  complete : g.Complete
  frozen : g.frozen = g.verdict.toOption

/-- Nothing is different in the second graph but the journal, and that does not note any further
evaluation. -/
structure Unmoved (g h : Graph) : Prop where
  same : h = { g with journal := h.journal }
  noted : h.noted = g.noted

namespace Unmoved

theorem refl : Unmoved g g :=
  ⟨rfl, rfl⟩

theorem trans (hgh : Unmoved g h) (hhk : Unmoved h k) : Unmoved g k := by
  refine ⟨?_, hhk.noted.trans hgh.noted⟩
  have hsame := hhk.same
  rw [hgh.same] at hsame
  exact hsame

theorem atRest (hgh : Unmoved g h) (hg : g.AtRest) : h.AtRest := by
  obtain ⟨⟨hwf, hsettled, hhanded⟩, hsealed, hcomplete, hfrozen⟩ := hg
  rw [hgh.same]
  exact ⟨⟨hwf, hsettled, hhanded⟩, hsealed, hcomplete, hfrozen⟩

end Unmoved

/-- Once frozen, well or not, a graph is at rest. -/
theorem Sound.atRest_freeze (hg : g.Sound) : g.freeze.2.AtRest := by
  obtain ⟨hsound, hcomplete, _, _⟩ := hg.freeze_spec
  refine ⟨hsound, isSealed_freeze hg, hcomplete, ?_⟩
  cases hfrozen : g.frozen with
  | some bound =>
      rw [freeze_of_frozen hfrozen, (hg.handedOut hfrozen).2.2, hfrozen]
      rfl
  | none =>
      obtain ⟨_, journal, hafter⟩ := freeze_eq hg.settled hfrozen
      rw [hafter, verdict_with]
      generalize g.settleAll = settled
      rfl

namespace AtRest

theorem sealWiring (hg : g.AtRest) : g.sealWiring = g := by
  obtain ⟨ledger, hledger⟩ := Option.isSome_iff_exists.mp hg.isSealed
  rw [Graph.sealWiring, hledger]

theorem resolve (hg : g.AtRest) (e : EdgeId) : (g.resolve e).2 = g := by
  by_cases he : g.wiring.HasKey (.edge e)
  · rw [resolve_of_hasKey he]
    exact demand_of_isTerminal hg.isSealed (hg.complete e he)
  · exact resolve_of_not_hasKey he

theorem resolveAll (hg : g.AtRest) : g.resolveAll.2 = g := by
  apply demandEdges_of_isTerminal hg.isSealed
  intro e he
  exact hg.complete e (mem_edgeIds.mp he)

theorem settleAll (hg : g.AtRest) : g.settleAll = g := by
  rw [Graph.settleAll, hg.sealWiring]
  exact hg.resolveAll

/-- Freezing a graph at rest gives the verdict once more. -/
theorem freeze (hg : g.AtRest) : g.freeze.1 = g.verdict ∧ Unmoved g g.freeze.2 := by
  cases hfrozen : g.frozen with
  | some bound =>
      rw [freeze_of_frozen hfrozen]
      exact ⟨(hg.sound.handedOut hfrozen).2.2.symm, .refl⟩
  | none =>
      -- Every edge is demanded again, and finds itself settled.
      obtain ⟨hverdict, journal, hafter⟩ := freeze_eq hg.sound.settled hfrozen
      have hnoted := noted_freeze hfrozen
      rw [hg.settleAll] at hverdict hafter hnoted
      refine ⟨hverdict, ?_, hnoted⟩
      rw [hafter, ← hg.frozen]

/-- A request to a graph at rest moves nothing. -/
theorem serve (hg : g.AtRest) (request : Request) : Unmoved g (g.serve request) := by
  cases request with
  | build b =>
      rw [Graph.serve, build_of_isSealed g hg.isSealed b]
      exact .refl
  | sealWiring =>
      rw [Graph.serve, hg.sealWiring]
      exact .refl
  | call c =>
      cases c with
      | resolve e =>
          rw [Graph.serve, call, hg.resolve]
          exact .refl
      | resolveAll =>
          rw [Graph.serve, call, hg.resolveAll]
          exact .refl
      | freeze => exact hg.freeze.2

theorem serves (hg : g.AtRest) (later : List Request) : Unmoved g (g.serves later) := by
  induction later generalizing g with
  | nil => exact .refl
  | cons first rest ih =>
      have hstep := hg.serve first
      exact hstep.trans (ih (hstep.atRest hg))

end AtRest

/-- Once a graph was frozen, well or not, nothing moves any more: whatever is requested, freezing
again answers what it answered first, and no key is evaluated. -/
theorem freeze_repeats (hg : g.Reachable) (later : List Request) :
    (g.freeze.2.serves later).freeze.1 = g.freeze.1 ∧
      (g.freeze.2.serves later).freeze.2.evaluations = g.freeze.2.evaluations ∧
      Unmoved g.freeze.2 (g.freeze.2.serves later).freeze.2 := by
  obtain ⟨_, _, _, hverdict⟩ := hg.sound.freeze_spec
  have hrest := hg.sound.atRest_freeze
  have hlater := hrest.serves later
  obtain ⟨hagain, hmoved⟩ := (hlater.atRest hrest).freeze
  have hall := hlater.trans hmoved
  refine ⟨?_, ?_, hall⟩
  · rw [hagain, hverdict, hlater.same]
    rfl
  · rw [hall.same]
    rfl

/-- The clutter, which cannot be frozen, and the outpost, which can: both answer again as they did,
without another evaluation. -/
theorem clutter_freeze_repeats :
    clutter.Reachable ∧ outpost.Reachable ∧ ∃ found bound,
      clutter.freeze.1 = .error found ∧ outpost.freeze.1 = .ok bound ∧
      (clutter.freeze.2.serves [.build (.markRoot ⟨2⟩), .call .freeze]).freeze.1 =
        .error found ∧
      (outpost.freeze.2.serves [.build (.markRoot ⟨3⟩), .call .resolveAll]).freeze.1 = .ok bound ∧
      (clutter.freeze.2.serves [.call .resolveAll]).freeze.2.evaluations =
        clutter.freeze.2.evaluations := by
  have hclutter : clutter.Reachable := reachable_after _ _
  have houtpost : outpost.Reachable := reachable_after _ _
  have hfails : clutter.freeze.1.toOption.isSome = false := by decide +kernel
  have hsucceeds : outpost.freeze.1.toOption.isSome = true := by decide +kernel
  obtain ⟨hsame, _⟩ := freeze_repeats hclutter [.build (.markRoot ⟨2⟩), .call .freeze]
  obtain ⟨hsame', _⟩ := freeze_repeats houtpost [.build (.markRoot ⟨3⟩), .call .resolveAll]
  obtain ⟨_, hcount, _⟩ := freeze_repeats hclutter [.call .resolveAll]
  cases hfreeze : clutter.freeze.1 with
  | ok bound =>
      rw [hfreeze] at hfails
      cases hfails
  | error found =>
      cases hfreeze' : outpost.freeze.1 with
      | error found =>
          rw [hfreeze'] at hsucceeds
          cases hsucceeds
      | ok bound =>
          exact ⟨hclutter, houtpost, found, bound, rfl, rfl, hsame.trans hfreeze,
            hsame'.trans hfreeze', hcount⟩

end Graph

end Negotiation
