import Negotiation.Proofs.OrderIndependence

/-!
Demands end.

Every step of a walk lowers its measure, which starts below twice the number of keys
(`Walk.measure_start_lt`), and a walk that has ended is not changed by more steps
(`Walk.run_of_le`).  So a demand takes at most two steps for each key, whatever circles there are,
and what it leaves is settled: the answer is what is known of the key, and nothing is left in
progress (`Graph.Concludes`).
-/

namespace Negotiation

/-- A consistent memo has two entries for each node and one for each edge. -/
theorem Memo.Consistent.sizes {w : Wiring} {memo : Memo} (h : memo.Consistent w) :
    memo.down.size = w.slots.size ∧ memo.up.size = w.slots.size ∧
      memo.edge.size = w.edges.size := by
  refine ⟨eq_of_forall_lt_iff ?_, eq_of_forall_lt_iff ?_, eq_of_forall_lt_iff ?_⟩
  · intro i
    simpa [Covers, get?, Wiring.HasKey] using h.covers (.down ⟨i⟩)
  · intro i
    simpa [Covers, get?, Wiring.HasKey] using h.covers (.up ⟨i⟩)
  · intro i
    simpa [Covers, get?, Wiring.HasKey] using h.covers (.edge ⟨i⟩)

theorem Memo.Consistent.size_eq {w : Wiring} {memo : Memo} (h : memo.Consistent w) :
    memo.size = w.keyCount := by
  obtain ⟨hdown, hup, hedge⟩ := h.sizes
  simp only [size, Wiring.keyCount]
  omega

/-- Between two requests, nothing is known of a key that is not settled. -/
theorem Ledger.Settled.get_eq_unresolved {w : Wiring} {ledger : Ledger} (h : ledger.Settled w)
    {key : FlowKey} (hopen : (ledger.memo.get key).isTerminal = false) :
    ledger.memo.get key = .unresolved := by
  cases hget : ledger.memo.get key with
  | unresolved => rfl
  | resolving => exact absurd hget (h.idle key)
  | resolved values => rw [hget] at hopen; cases hopen
  | failed error => rw [hget] at hopen; cases hopen

namespace Walk

variable {w : Wiring} {trace : Bool}

/-- A walk that has ended stays where it ended. -/
theorem run_of_le {m n : Nat} {walk : Walk} {arrival : Arrival}
    (h : run w trace m walk = .inr arrival) (hle : m ≤ n) :
    run w trace n walk = .inr arrival := by
  induction m generalizing n walk with
  | zero => cases h
  | succ m ih =>
      obtain ⟨n, rfl⟩ : ∃ k, n = k + 1 := ⟨n - 1, by omega⟩
      rw [run] at h ⊢
      cases hstep : walk.step w trace with
      | inl next =>
          rw [hstep] at h
          exact ih h (by omega)
      | inr last =>
          rw [hstep] at h
          exact h

/-- A walk starts with fewer keys of which nothing is known than there are keys. -/
theorem measure_start_lt {ledger : Ledger} {key : FlowKey}
    (hget : ledger.memo.get key = .unresolved) :
    (start ledger key).measure < 2 * ledger.memo.size := by
  have hlt : (ledger.memo.set key .resolving).unresolvedCount < ledger.memo.unresolvedCount :=
    Memo.unresolved_set_lt hget rfl
  have hle := ledger.memo.unresolvedCount_le_size
  simp only [measure, start, List.length_singleton]
  omega

/-- Steps that suffice by the measure lead to where the walk ends. -/
theorem run_eq_toEnd {ledger : Ledger} {key : FlowKey} {n : Nat}
    (hmeasure : (start ledger key).measure < n) :
    run w trace n (start ledger key) = .inr (toEnd w trace ledger key) := by
  have hright : (run w trace n (start ledger key)).isRight = true := run_isRight hmeasure
  obtain ⟨arrival, harrival⟩ := Sum.isRight_iff.mp hright
  have hend : run w trace (horizon ledger.memo.size) (start ledger key) =
      .inr (toEnd w trace ledger key) := (Sum.inr_getRight _ _).symm
  rcases Nat.le_total n (horizon ledger.memo.size) with hle | hle
  · rw [harrival, ← hend, run_of_le harrival hle]
  · exact run_of_le hend hle

end Walk

namespace Graph

variable {g : Graph}

/-- The graph after several keys were demanded, edges or not. -/
def demands (g : Graph) (keys : List FlowKey) : Graph :=
  keys.foldl (fun g key => (g.demand key).2) g

theorem demands_settled (hsettled : g.known.Settled g.wiring) (keys : List FlowKey) :
    (g.demands keys).known.Settled (g.demands keys).wiring := by
  induction keys generalizing g with
  | nil => exact hsettled
  | cons key rest ih => exact ih (demand_spec hsettled key).2.1

/-- A demand for the key ends in time, its answer is what is then known of the key, and nothing is
left in progress. -/
structure Concludes (g : Graph) (key : FlowKey) : Prop where
  /-- The steps are at most twice as many as the keys, and one. -/
  ends : (g.entry key).isTerminal = false → ∃ arrival,
    Walk.run g.wiring g.settings.traceEvaluations
        (2 * (2 * g.wiring.slots.size + g.wiring.edges.size) + 1) (Walk.start g.known key) =
      .inr arrival ∧
    (g.demand key).1 = arrival.result ∧ (g.demand key).2.ledger = some arrival.ledger
  resolved_iff : (g.demand key).1 = .ok () ↔
    ∃ values, (g.demand key).2.entry key = .resolved values
  failed_iff : ∀ error, (g.demand key).1 = .error error ↔
    (g.demand key).2.entry key = .failed error
  terminal : ((g.demand key).2.entry key).isTerminal = true
  idle : ∀ other, (g.demand key).2.entry other ≠ .resolving

theorem demand_ends (hsettled : g.known.Settled g.wiring) {key : FlowKey}
    (hopen : (g.entry key).isTerminal = false) :
    ∃ arrival, Walk.run g.wiring g.settings.traceEvaluations (2 * g.wiring.keyCount + 1)
        (Walk.start g.known key) = .inr arrival ∧
      (g.demand key).1 = arrival.result ∧ (g.demand key).2.ledger = some arrival.ledger := by
  have hget : g.known.memo.get key = .unresolved := hsettled.get_eq_unresolved hopen
  have hmeasure := Walk.measure_start_lt hget
  rw [hsettled.consistent.size_eq] at hmeasure
  have hdemand : g.known.demand g.wiring g.settings.traceEvaluations key =
      Walk.toEnd g.wiring g.settings.traceEvaluations g.known key := by
    simp only [Ledger.demand, hget]
  refine ⟨_, Walk.run_eq_toEnd (Nat.lt_succ_of_lt hmeasure), ?_, ?_⟩
  · rw [demand_eq, hdemand]
  · rw [demand_eq, hdemand]

theorem concludes_of_settled (hsettled : g.known.Settled g.wiring) (key : FlowKey) :
    g.Concludes key := by
  obtain ⟨_, hsettled', hanswer⟩ := demand_spec hsettled key
  refine
    { ends := demand_ends hsettled
      resolved_iff := ?resolved
      failed_iff := fun error => ?failed
      terminal := terminal_of_demand hsettled key
      idle := hsettled'.idle }
  case resolved =>
    rcases hanswer with ⟨hok, hentry⟩ | ⟨error, herror, hentry⟩
    · exact iff_of_true hok hentry
    · rw [herror, hentry]
      exact iff_of_false nofun nofun
  case failed =>
    rcases hanswer with ⟨hok, values, hentry⟩ | ⟨found, hfound, hentry⟩
    · rw [hok, hentry]
      exact iff_of_false nofun nofun
    · rw [hfound, hentry, Except.error.injEq, Entry.failed.injEq]

theorem Sound.progress_ne_resolving (hg : g.Sound) (key : FlowKey) :
    g.progress key ≠ .resolving := by
  intro hprogress
  by_cases hkey : g.wiring.HasKey key
  · rw [progress_eq hkey] at hprogress
    exact hg.settled.idle key (Entry.progress_eq_resolving_iff.mp hprogress)
  · have hnot : g.hasKey key = false := by simpa using mt hasKey_iff.mp hkey
    rw [progress, hnot] at hprogress
    cases hledger : g.ledger <;> rw [hledger] at hprogress <;> cases hprogress

/-- Whatever was requested of a graph, and whichever keys were demanded then: a demand ends in time
with the key resolved or failed, as it answers.  So nothing is in progress between two requests, and
an edge that there is has settled when it was resolved. -/
theorem demand_concludes (hg : g.Reachable) (earlier : List FlowKey) (key : FlowKey) :
    (g.demands earlier).Concludes key ∧ (∀ other, g.progress other ≠ .resolving) ∧
      ∀ e, g.wiring.HasKey (.edge e) → (g.resolve e).2.progress (.edge e) = .resolved ∨
        (g.resolve e).2.progress (.edge e) = .failed := by
  have hsettled := hg.sound.settled
  refine ⟨concludes_of_settled (demands_settled hsettled earlier) key,
    hg.sound.progress_ne_resolving, fun e he => ?_⟩
  obtain ⟨hprogress, _⟩ := demand_spec hsettled (.edge e)
  rw [resolve_of_hasKey he, progress_eq (hprogress.wiring ▸ he)]
  rcases Entry.isTerminal_iff.mp (terminal_of_demand hsettled (.edge e)) with
    ⟨values, hentry⟩ | ⟨error, hentry⟩
  · rw [hentry]
    exact Or.inl rfl
  · rw [hentry]
    exact Or.inr rfl

/-- In the ring, where both demands run into a circle, the second ends within the thirteen steps
that two nodes and two edges allow. -/
theorem ring_concludes :
    ring.Reachable ∧ ring.wiring.HasKey (.edge ⟨1⟩) ∧
      ((ring.demands [.down ⟨0⟩]).entry (.up ⟨1⟩)).isTerminal = false ∧
      (∃ arrival, Walk.run ring.wiring false 13
          (Walk.start (ring.demands [.down ⟨0⟩]).known (.up ⟨1⟩)) = .inr arrival ∧
        ((ring.demands [.down ⟨0⟩]).demand (.up ⟨1⟩)).1 = arrival.result) ∧
      ((ring.resolve ⟨1⟩).2.progress (.edge ⟨1⟩) = .resolved ∨
        (ring.resolve ⟨1⟩).2.progress (.edge ⟨1⟩) = .failed) := by
  have hring : ring.Reachable := reachable_after _ _
  have hedge : ring.wiring.HasKey (.edge ⟨1⟩) := hasKey_iff.mp (by decide)
  have hopen : ((ring.demands [.down ⟨0⟩]).entry (.up ⟨1⟩)).isTerminal = false := by decide
  obtain ⟨hconcludes, _, hresolve⟩ := demand_concludes hring [.down ⟨0⟩] (.up ⟨1⟩)
  obtain ⟨arrival, hrun, hresult, _⟩ := hconcludes.ends hopen
  exact ⟨hring, hedge, hopen, ⟨arrival, hrun, hresult⟩, hresolve _ hedge⟩

end Graph

end Negotiation
