import Negotiation.Proofs.Termination

/-!
Tracing.

Whether evaluations are noted decides what stands in the journal and nothing else.  Graphs that
differ in this alone are alike (`Graph.Alike`): requests answer alike on both and lead to graphs
that are alike again (`Graph.Alike.calls`).
-/

namespace Negotiation

/-- The end of a walk, without what was noted. -/
def Arrival.bare (arrival : Arrival) : Arrival :=
  { arrival with events := #[] }

namespace Walk

variable {w : Wiring}

/-- The walk, without what was noted. -/
def bare (walk : Walk) : Walk :=
  { walk with events := #[] }

/-- A step does not depend on what was noted, or on whether anything is. -/
theorem bare_step (trace : Bool) (walk : Walk) :
    (walk.step w trace).map bare Arrival.bare = (walk.bare.step w false).map bare Arrival.bare := by
  obtain ⟨ledger, pile, events⟩ := walk
  cases pile with
  | nil => rfl
  | cons key below =>
      simp only [step, bare]
      cases Blocker.find? ledger.memo (w.dependencies key) with
      | none =>
          simp only [evaluate]
          cases w.evaluate ledger.memo key <;> rfl
      | some blocker => cases blocker <;> rfl

theorem bare_run (trace : Bool) (n : Nat) (walk : Walk) :
    (run w trace n walk).map bare Arrival.bare =
      (run w false n walk.bare).map bare Arrival.bare := by
  induction n generalizing trace walk with
  | zero => rfl
  | succ n ih =>
      have hstep := bare_step (w := w) trace walk
      rw [run, run]
      cases hleft : walk.step w trace with
      | inl next =>
          cases hright : walk.bare.step w false with
          | inl other =>
              rw [hleft, hright] at hstep
              have hsame : next.bare = other.bare := Sum.inl.inj hstep
              exact (ih trace next).trans (hsame ▸ (ih false other).symm)
          | inr last =>
              rw [hleft, hright] at hstep
              cases hstep
      | inr arrival =>
          cases hright : walk.bare.step w false with
          | inl other =>
              rw [hleft, hright] at hstep
              cases hstep
          | inr last =>
              rw [hleft, hright] at hstep
              exact hstep

theorem bare_toEnd (trace : Bool) (ledger : Ledger) (key : FlowKey) :
    (toEnd w trace ledger key).bare = (toEnd w false ledger key).bare := by
  have hrun := bare_run (w := w) trace (horizon ledger.memo.size) (start ledger key)
  have hmeasure := measure_start_lt_horizon ledger key
  have hbare : (start ledger key).bare = start ledger key := rfl
  rw [hbare, run_eq_toEnd hmeasure, run_eq_toEnd hmeasure] at hrun
  exact Sum.inr.inj hrun

end Walk

theorem Ledger.bare_demand (ledger : Ledger) (w : Wiring) (trace : Bool) (key : FlowKey) :
    (ledger.demand w trace key).bare = (ledger.demand w false key).bare := by
  cases hget : ledger.memo.get key with
  | resolved values => simp only [demand, hget]
  | failed error => simp only [demand, hget]
  | unresolved => simp only [demand, hget, Walk.bare_toEnd]
  | resolving => simp only [demand, hget, Walk.bare_toEnd]

namespace Graph

variable {g h : Graph}

/-- The graph without what was noted, and with nothing noted from here on. -/
def bare (g : Graph) : Graph :=
  { g with settings := { g.settings with traceEvaluations := false }, journal := #[] }

/-- The graphs differ at most in what was noted and in what is noted. -/
def Alike (g h : Graph) : Prop :=
  g.bare = h.bare

theorem verdict_bare (g : Graph) : g.bare.verdict = g.verdict :=
  rfl

theorem bare_sealWiring (g : Graph) :
    g.sealWiring.bare = { g.bare with ledger := some g.bare.known } := by
  rw [sealWiring_eq]
  rfl

theorem bare_demand (g : Graph) (key : FlowKey) :
    (g.demand key).1 = (g.bare.demand key).1 ∧
      (g.demand key).2.bare = (g.bare.demand key).2.bare := by
  have hdemand := g.known.bare_demand g.wiring g.settings.traceEvaluations key
  have hresult := congrArg Arrival.result hdemand
  have hledger := congrArg Arrival.ledger hdemand
  simp only [Arrival.bare] at hresult hledger
  have hknown : g.bare.known = g.known := rfl
  rw [demand_eq, demand_eq, hknown]
  refine ⟨hresult, ?_⟩
  simp only [bare, hledger]

namespace Alike

theorem wiring (h' : Alike g h) : g.wiring = h.wiring := by
  have hsame := congrArg Graph.wiring h'
  exact hsame

theorem ledger (h' : Alike g h) : g.ledger = h.ledger := by
  have hsame := congrArg Graph.ledger h'
  exact hsame

theorem frozen (h' : Alike g h) : g.frozen = h.frozen := by
  have hsame := congrArg Graph.frozen h'
  exact hsame

theorem verdict (h' : Alike g h) : g.verdict = h.verdict := by
  rw [← verdict_bare, ← verdict_bare h, h']

/-- What is handed out may be replaced in both. -/
theorem handOut (h' : Alike g h) (frozen : Option BoundGraph) (journal journal' : Array Event) :
    Alike { g with frozen := frozen, journal := journal }
      { h with frozen := frozen, journal := journal' } := by
  have hsame := congrArg (fun k : Graph => { k with frozen := frozen }) h'
  exact hsame

theorem sealWiring (h' : Alike g h) : Alike g.sealWiring h.sealWiring := by
  rw [Alike] at h' ⊢
  rw [bare_sealWiring, bare_sealWiring, h']

theorem demand (h' : Alike g h) (key : FlowKey) :
    (g.demand key).1 = (h.demand key).1 ∧ Alike (g.demand key).2 (h.demand key).2 := by
  obtain ⟨hresult, hgraph⟩ := g.bare_demand key
  obtain ⟨hresult', hgraph'⟩ := h.bare_demand key
  rw [Alike] at h'
  rw [hresult, hresult', Alike, hgraph, hgraph', h']
  exact ⟨rfl, rfl⟩

theorem demandEdges (h' : Alike g h) (errors : List ResolveError) (edges : List EdgeId) :
    (g.demandEdges errors edges).1 = (h.demandEdges errors edges).1 ∧
      Alike (g.demandEdges errors edges).2 (h.demandEdges errors edges).2 := by
  induction edges generalizing g h errors with
  | nil => exact ⟨rfl, h'⟩
  | cons e rest ih =>
      obtain ⟨hresult, hnext⟩ := h'.demand (.edge e)
      rw [demandEdges_cons, demandEdges_cons, hresult]
      exact ih hnext _

theorem resolveAll (h' : Alike g h) :
    g.resolveAll.1 = h.resolveAll.1 ∧ Alike g.resolveAll.2 h.resolveAll.2 := by
  rw [Graph.resolveAll, Graph.resolveAll, h'.wiring]
  exact h'.demandEdges [] _

theorem resolve (h' : Alike g h) (e : EdgeId) : Alike (g.resolve e).2 (h.resolve e).2 := by
  by_cases he : g.wiring.HasKey (.edge e)
  · rw [resolve_of_hasKey he, resolve_of_hasKey (h'.wiring ▸ he)]
    exact (h'.demand _).2
  · rw [resolve_of_not_hasKey he, resolve_of_not_hasKey (h'.wiring ▸ he)]
    exact h'

theorem freeze (h' : Alike g h) (hg : g.Sound) (hh : h.Sound) : Alike g.freeze.2 h.freeze.2 := by
  cases hfrozen : g.frozen with
  | some bound =>
      rw [freeze_of_frozen hfrozen, freeze_of_frozen (h'.frozen ▸ hfrozen)]
      exact h'
  | none =>
      obtain ⟨_, journal, hleft⟩ := freeze_eq hg.settled hfrozen
      obtain ⟨_, journal', hright⟩ := freeze_eq hh.settled (h'.frozen ▸ hfrozen)
      have hsettle : Alike g.settleAll h.settleAll := h'.sealWiring.resolveAll.2
      rw [hleft, hright, hsettle.verdict]
      exact hsettle.handOut _ journal journal'

theorem call (h' : Alike g h) (hg : g.Sound) (hh : h.Sound) (c : Call) :
    Alike (g.call c) (h.call c) := by
  cases c with
  | resolve e => exact h'.resolve e
  | resolveAll => exact h'.resolveAll.2
  | freeze => exact h'.freeze hg hh

/-- Requests that resolve edges lead to graphs that are alike again. -/
theorem calls (h' : Alike g h) (hg : g.Sound) (hh : h.Sound) (requests : List Call) :
    Alike (g.calls requests) (h.calls requests) := by
  induction requests generalizing g h with
  | nil => exact h'
  | cons first rest ih => exact ih (h'.call hg hh first) (hg.call first).2 (hh.call first).2

end Alike

/-- The graph with an empty journal, in which every evaluation is noted from here on. -/
def watched (g : Graph) : Graph :=
  { g with settings := { g.settings with traceEvaluations := true }, journal := #[] }

theorem alike_watched (g : Graph) : Alike g.watched g :=
  rfl

theorem Sound.watched (hg : g.Sound) : g.watched.Sound :=
  ⟨hg.wellFormed, hg.settled, hg.handedOut⟩

end Graph

end Negotiation
