import Negotiation.Graph.Freeze
import Negotiation.Proofs.Building
import Negotiation.Proofs.Walk

/-!
Requests to a graph, and the graphs that they lead to.

A request builds, seals or resolves.  Building ends when the graph is sealed; from then on requests
only add to what is known of the keys (`Graph.Progresses`).  The invariant of the graphs that
requests lead to is `Graph.Sound`: what is known is settled, and a graph that was handed out is what
freezing would hand out again.
-/

namespace Negotiation

open Relation

theorem Wiring.Extends.hasKey {w v : Wiring} (h : w.Extends v) {key : FlowKey}
    (hkey : w.HasKey key) : v.HasKey key := by
  have hnode : ∀ n : NodeId, n.index < w.slots.size → n.index < v.slots.size := by
    intro n hn
    have hslot : w.slot? n = some w.slots[n.index] := Array.getElem?_eq_getElem hn
    obtain ⟨slot, hfound, _⟩ := node?_eq_some.mp (h.node (node?_eq_some.mpr ⟨_, hslot, rfl⟩))
    exact (Array.getElem?_eq_some_iff.mp hfound).1
  cases key with
  | down n => exact hnode n hkey
  | up n => exact hnode n hkey
  | edge e => exact HasKey.of_edge? (h.edge (Array.getElem?_eq_getElem hkey))

/-- A request that changes the wiring. -/
inductive Build where
  | addNode (node : Node)
  | markRoot (n : NodeId)
  | bind (output input : Port)
  | bindThrough (output input : Port) (adapter : Adapter)
  | bindGroup (group : FanGroup)

/-- A request that resolves edges. -/
inductive Call where
  | resolve (e : EdgeId)
  | resolveAll
  | freeze

/-- The request resolves the edge, if it exists. -/
def Call.Demands (e : EdgeId) : Call → Prop
  | resolve other => other = e
  | resolveAll | freeze => True

inductive Request where
  | build (b : Build)
  | sealWiring
  | call (c : Call)

namespace Graph

/-- The graph after a request that changes the wiring. -/
def build (g : Graph) : Build → Graph
  | .addNode node => (g.addNode node).2
  | .markRoot n => (g.markRoot n).2
  | .bind output input => (g.bind output input).2
  | .bindThrough output input adapter => (g.bindThrough output input adapter).2
  | .bindGroup group => (g.bindGroup group).2

/-- The graph after a request that resolves edges. -/
def call (g : Graph) : Call → Graph
  | .resolve e => (g.resolve e).2
  | .resolveAll => g.resolveAll.2
  | .freeze => g.freeze.2

def calls (g : Graph) (requests : List Call) : Graph :=
  requests.foldl call g

def serve (g : Graph) : Request → Graph
  | .build b => g.build b
  | .sealWiring => g.sealWiring
  | .call c => g.call c

/-- The graphs that requests lead to. -/
inductive Reachable : Graph → Prop
  | empty (settings : Settings) : Reachable (.empty settings)
  | serve {g : Graph} (h : Reachable g) (request : Request) : Reachable (g.serve request)

def serves (g : Graph) (requests : List Request) : Graph :=
  requests.foldl Graph.serve g

/-- The graph to which some requests lead from an empty one. -/
def after (settings : Settings) (requests : List Request) : Graph :=
  (Graph.empty settings).serves requests

theorem Reachable.serves {g : Graph} (h : Reachable g) (requests : List Request) :
    Reachable (g.serves requests) := by
  induction requests generalizing g with
  | nil => exact h
  | cons first rest ih => exact ih (h.serve first)

theorem reachable_after (settings : Settings) (requests : List Request) :
    Reachable (after settings requests) :=
  (Reachable.empty settings).serves requests

/-- What is known of the keys; nothing before the graph is sealed. -/
def known (g : Graph) : Ledger :=
  g.ledger.getD (.blank g.wiring)

def entry (g : Graph) (key : FlowKey) : Entry :=
  g.known.memo.get key

section Building

variable (g : Graph)

theorem known_of_ledger_eq_none (h : g.ledger = none) : g.known = .blank g.wiring := by
  rw [known, h]
  rfl

theorem build_grows (hwf : g.wiring.WellFormed) (b : Build) : Grows g (g.build b) := by
  cases b with
  | addNode node => exact g.addNode_grows node
  | markRoot n => exact g.markRoot_grows n
  | bind output input => exact g.bindThrough_grows output input .identity
  | bindThrough output input adapter => exact g.bindThrough_grows output input adapter
  | bindGroup group => exact g.bindGroup_grows hwf group

/-- A sealed graph is not built any further. -/
theorem build_of_isSealed (h : g.isSealed = true) (b : Build) : g.build b = g := by
  have hrefused := ensureOpen_of_isSealed h
  cases b with
  | addNode node => simp only [build, addNode, hrefused]
  | markRoot n => simp only [build, markRoot, hrefused]; rfl
  | bind output input => simp only [build, bind, bindThrough, hrefused]
  | bindThrough output input adapter => simp only [build, bindThrough, hrefused]
  | bindGroup group => simp only [build, bindGroup, hrefused]

end Building

section Sealing

variable (g : Graph)

theorem sealWiring_ledger : g.sealWiring.ledger = some g.known := by
  rw [sealWiring, known]
  cases hledger : g.ledger with
  | none => rfl
  | some ledger => exact hledger

/-- Sealing changes nothing but the ledger and the journal. -/
theorem sealWiring_eq : g.sealWiring =
    { g with ledger := some g.known, journal := g.sealWiring.journal } := by
  obtain ⟨wiring, markedRoots, settings, ledger, frozen, journal⟩ := g
  cases ledger with
  | none => rfl
  | some ledger => rfl

theorem known_sealWiring : g.sealWiring.known = g.known := by
  rw [known, sealWiring_ledger]
  rfl

/-- A demand on a graph is a demand on its ledger. -/
theorem demand_eq (key : FlowKey) :
    g.demand key =
      ((g.known.demand g.wiring g.settings.traceEvaluations key).result,
        { g with
          ledger := some (g.known.demand g.wiring g.settings.traceEvaluations key).ledger
          journal := g.sealWiring.journal ++
            (g.known.demand g.wiring g.settings.traceEvaluations key).events }) := by
  rw [demand, sealWiring_eq]

end Sealing

/-- The failures of the edges, each once. -/
def failures (g : Graph) : List ResolveError :=
  (g.wiring.edgeIds.filterMap g.failure?).foldl addDistinct []

/-- What freezing makes of what is known. -/
def verdict (g : Graph) : Except (List Violation) BoundGraph :=
  let found := g.violations g.failures g.reachability
  if found.isEmpty then .ok (g.elaborate g.reachability) else .error found

/-- Every edge is settled. -/
def Complete (g : Graph) : Prop :=
  ∀ e, g.wiring.HasKey (.edge e) → (g.entry (.edge e)).isTerminal = true

/-- The wiring is well-formed, what is known is settled, and what was handed out is what freezing
would hand out again. -/
structure Sound (g : Graph) : Prop where
  wellFormed : g.wiring.WellFormed
  settled : g.known.Settled g.wiring
  handedOut : ∀ {bound}, g.frozen = some bound →
    g.isSealed = true ∧ g.Complete ∧ g.verdict = .ok bound

/-- From the first graph to the second, only the keys that are asked for, and what they touch, were
settled in addition. -/
structure Progresses (asked : Set FlowKey) (g h : Graph) : Prop where
  wiring : h.wiring = g.wiring
  markedRoots : h.markedRoots = g.markedRoots
  settings : h.settings = g.settings
  keeps : ∀ key, (g.entry key).isTerminal = true → h.entry key = g.entry key
  within : ∀ key, (h.entry key).isTerminal = true → (g.entry key).isTerminal = true ∨
    ∃ origin ∈ asked, ReflTransGen g.wiring.Touches origin key

namespace Progresses

variable {asked more : Set FlowKey} {g h k : Graph}

theorem refl : Progresses asked g g :=
  ⟨rfl, rfl, rfl, fun _ _ => rfl, fun _ => Or.inl⟩

theorem mono (hgh : Progresses asked g h) (hsub : asked ⊆ more) : Progresses more g h :=
  ⟨hgh.wiring, hgh.markedRoots, hgh.settings, hgh.keeps, fun key hkey =>
    (hgh.within key hkey).imp_right fun ⟨origin, hasked, hpath⟩ => ⟨origin, hsub hasked, hpath⟩⟩

theorem trans (hgh : Progresses asked g h) (hhk : Progresses asked h k) :
    Progresses asked g k := by
  refine ⟨hhk.wiring.trans hgh.wiring, hhk.markedRoots.trans hgh.markedRoots,
    hhk.settings.trans hgh.settings, fun key hkey => ?_, fun key hkey => ?_⟩
  · have hkeep := hgh.keeps key hkey
    rw [hhk.keeps key (hkeep ▸ hkey), hkeep]
  · rcases hhk.within key hkey with hterminal | hpath
    · exact hgh.within key hterminal
    · rw [hgh.wiring] at hpath
      exact Or.inr hpath

theorem terminal (hgh : Progresses asked g h) {key : FlowKey}
    (hkey : (g.entry key).isTerminal = true) : (h.entry key).isTerminal = true := by
  rw [hgh.keeps key hkey]
  exact hkey

end Progresses

section Calls

variable {g : Graph}

/-- What a demand on a graph does. -/
theorem demand_spec (hsettled : g.known.Settled g.wiring) (key : FlowKey) :
    Progresses {key} g (g.demand key).2 ∧
      (g.demand key).2.known.Settled (g.demand key).2.wiring ∧
      (((g.demand key).1 = .ok () ∧ ∃ values, (g.demand key).2.entry key = .resolved values) ∨
        ∃ error, (g.demand key).1 = .error error ∧ (g.demand key).2.entry key = .failed error) := by
  have hlands := hsettled.demand g.settings.traceEvaluations key
  rw [demand_eq]
  refine ⟨⟨rfl, rfl, rfl, hlands.reaches.keeps, fun k hk => ?_⟩, hlands.settled, hlands.answer⟩
  exact (hlands.reaches.within k hk).imp_right fun hpath => ⟨key, rfl, hpath⟩

theorem demand_frozen (key : FlowKey) : (g.demand key).2.frozen = g.frozen := by
  rw [demand_eq]

theorem demand_isSealed (key : FlowKey) : (g.demand key).2.isSealed = true := by
  rw [demand_eq]
  rfl

/-- What is known between two requests is settled or untouched. -/
theorem terminal_of_demand (hsettled : g.known.Settled g.wiring) (key : FlowKey) :
    ((g.demand key).2.entry key).isTerminal = true := by
  rcases (demand_spec hsettled key).2.2 with ⟨_, values, hentry⟩ | ⟨error, _, hentry⟩
  · rw [hentry]
    rfl
  · rw [hentry]
    rfl

end Calls

section Reading

/-! What a graph shows is what is known of its keys. -/

variable {g : Graph}

theorem mem_edgeIds {w : Wiring} {e : EdgeId} : e ∈ w.edgeIds ↔ w.HasKey (.edge e) := by
  simp only [Wiring.edgeIds, List.mem_map, List.mem_range, Wiring.HasKey]
  constructor
  · rintro ⟨i, hi, rfl⟩
    exact hi
  · intro he
    exact ⟨e.index, he, rfl⟩

theorem hasKey_iff {key : FlowKey} : g.hasKey key = true ↔ g.wiring.HasKey key := by
  cases key <;> exact decide_eq_true_iff

theorem values?_blank (nodes edges : Nat) (key : FlowKey) :
    (Memo.blank nodes edges).values? key = none := by
  by_cases hcovers : (Memo.blank nodes edges).Covers key
  · rw [Memo.values?, Memo.get_blank_of_covers hcovers]
    rfl
  · rw [Memo.values?, Memo.get_of_not_covers hcovers]
    rfl

theorem entry_of_ledger_eq_none (hledger : g.ledger = none) {key : FlowKey}
    (hkey : g.wiring.HasKey key) : g.entry key = .unresolved := by
  rw [entry, known, hledger]
  exact Memo.get_blank_of_covers (Memo.covers_blank_iff.mpr hkey)

theorem isSealed_of_isTerminal {key : FlowKey} (hkey : g.wiring.HasKey key)
    (hterminal : (g.entry key).isTerminal = true) : g.isSealed = true := by
  cases hledger : g.ledger with
  | none =>
      rw [entry_of_ledger_eq_none hledger hkey] at hterminal
      cases hterminal
  | some ledger =>
      rw [isSealed, hledger]
      rfl

theorem progress_eq {key : FlowKey} (hkey : g.wiring.HasKey key) :
    g.progress key = (g.entry key).progress := by
  cases hledger : g.ledger with
  | none => rw [progress, hledger, entry_of_ledger_eq_none hledger hkey]; rfl
  | some ledger => simp only [progress, hledger, hasKey_iff.mpr hkey, entry, known]; rfl

theorem failure?_eq {e : EdgeId} (he : g.wiring.HasKey (.edge e)) :
    g.failure? e = (g.entry (.edge e)).failure? := by
  cases hledger : g.ledger with
  | none => rw [failure?, hledger, entry_of_ledger_eq_none hledger he]; rfl
  | some ledger => simp only [failure?, hledger, hasKey_iff.mpr he, entry, known]; rfl

theorem resolved?_eq {e : EdgeId} (he : g.wiring.HasKey (.edge e)) :
    g.resolved? e = (g.entry (.edge e)).values?.bind List.head? := by
  have hedge : g.wiring.edge? e = some g.wiring.edges[e.index] := Array.getElem?_eq_getElem he
  cases hledger : g.ledger with
  | none => rw [resolved?, hedge, hledger, entry_of_ledger_eq_none hledger he]; rfl
  | some ledger => rw [resolved?, hedge, hledger, entry, known, hledger]; rfl

theorem evaluations_eq : g.evaluations = g.known.evaluations := by
  rw [evaluations, known]
  cases g.ledger <;> rfl

theorem flows?_eq (edge : Edge) :
    g.flows? edge = (Wiring.flows g.known.memo edge).toOption := by
  cases hledger : g.ledger with
  | none =>
      have hcrossing : ∃ reason, Wiring.crossing g.known.memo edge .down = .error reason := by
        rw [known, hledger, Wiring.crossing]
        simp only [Option.getD_none, Ledger.blank, values?_blank]
        exact ⟨_, rfl⟩
      obtain ⟨reason, hcrossing⟩ := hcrossing
      rw [flows?, hledger, Wiring.flows, hcrossing]
      rfl
  | some ledger => rw [flows?, hledger, known, hledger]; rfl

end Reading

def edgeKeys (w : Wiring) : Set FlowKey :=
  {key | ∃ e, w.HasKey (.edge e) ∧ key = .edge e}

section DemandEdges

variable {g : Graph}

theorem demandEdges_cons (errors : List ResolveError) (e : EdgeId) (rest : List EdgeId) :
    g.demandEdges errors (e :: rest) =
      (g.demand (.edge e)).2.demandEdges
        (match (g.demand (.edge e)).1 with
          | .ok () => errors
          | .error error => addDistinct errors error) rest := by
  rw [demandEdges]
  obtain ⟨result, next⟩ := g.demand (.edge e)
  cases result <;> rfl

/-- Edges that are demanded one after another are settled, and their failures are collected. -/
theorem demandEdges_spec (errors : List ResolveError) {edges : List EdgeId}
    (hsettled : g.known.Settled g.wiring) (hedges : ∀ e ∈ edges, g.wiring.HasKey (.edge e)) :
    Progresses (edgeKeys g.wiring) g (g.demandEdges errors edges).2 ∧
      (g.demandEdges errors edges).2.known.Settled (g.demandEdges errors edges).2.wiring ∧
      (∀ e ∈ edges, ((g.demandEdges errors edges).2.entry (.edge e)).isTerminal = true) ∧
      (g.demandEdges errors edges).1 =
        (edges.filterMap (g.demandEdges errors edges).2.failure?).foldl addDistinct errors := by
  induction edges generalizing g errors with
  | nil => exact ⟨.refl, hsettled, fun e he => absurd he List.not_mem_nil, rfl⟩
  | cons e rest ih =>
      have he := hedges e List.mem_cons_self
      obtain ⟨hfirst, hsettled', hanswer⟩ := demand_spec hsettled (.edge e)
      have hkeys : edgeKeys (g.demand (.edge e)).2.wiring = edgeKeys g.wiring := by
        rw [hfirst.wiring]
      rw [demandEdges_cons]
      obtain ⟨hrest, hsettled'', hterminal, herrors⟩ := ih _ hsettled' fun k hk => by
        rw [hfirst.wiring]
        exact hedges k (List.mem_cons_of_mem _ hk)
      rw [hkeys] at hrest
      have hstep : Progresses (edgeKeys g.wiring) g (g.demand (.edge e)).2 :=
        hfirst.mono fun key hkey => ⟨e, he, hkey⟩
      have hall := hstep.trans hrest
      have hsame := hrest.keeps _ (terminal_of_demand hsettled (.edge e))
      refine ⟨hall, hsettled'', fun k hk => ?_, ?_⟩
      · rcases List.mem_cons.mp hk with rfl | hmem
        · exact hrest.terminal (terminal_of_demand hsettled _)
        · exact hterminal k hmem
      · have hfailure := failure?_eq (hall.wiring.symm ▸ he)
        rw [hsame] at hfailure
        rw [herrors]
        rcases hanswer with ⟨hok, values, hentry⟩ | ⟨error, herror, hentry⟩
        · rw [hentry] at hfailure
          rw [List.filterMap_cons_none hfailure, hok]
        · rw [hentry] at hfailure
          rw [List.filterMap_cons_some hfailure, herror, List.foldl_cons]

theorem demandEdges_frozen (errors : List ResolveError) (edges : List EdgeId) :
    (g.demandEdges errors edges).2.frozen = g.frozen := by
  induction edges generalizing g errors with
  | nil => rfl
  | cons e rest ih =>
      rw [demandEdges_cons, ih, demand_frozen]

theorem demandEdges_isSealed (hsealed : g.isSealed = true) (errors : List ResolveError)
    (edges : List EdgeId) : (g.demandEdges errors edges).2.isSealed = true := by
  induction edges generalizing g errors with
  | nil => exact hsealed
  | cons e rest ih =>
      rw [demandEdges_cons]
      exact ih (demand_isSealed _) _

/-- A demand for what is settled leaves a sealed graph as it is. -/
theorem demand_of_isTerminal (hsealed : g.isSealed = true) {key : FlowKey}
    (hterminal : (g.entry key).isTerminal = true) : (g.demand key).2 = g := by
  obtain ⟨ledger, hledger⟩ := Option.isSome_iff_exists.mp hsealed
  have hknown : g.known = ledger := by
    rw [known, hledger]
    rfl
  have hseal : g.sealWiring = g := by rw [sealWiring, hledger]
  have hstay : (g.known.demand g.wiring g.settings.traceEvaluations key).ledger = ledger ∧
      (g.known.demand g.wiring g.settings.traceEvaluations key).events = #[] := by
    rw [hknown, Ledger.demand]
    rw [entry, hknown] at hterminal
    rcases Entry.isTerminal_iff.mp hterminal with ⟨values, hget⟩ | ⟨error, hget⟩
    · rw [hget]
      exact ⟨rfl, rfl⟩
    · rw [hget]
      exact ⟨rfl, rfl⟩
  rw [demand_eq, hseal, hstay.1, hstay.2, Array.append_empty, ← hledger]

theorem demandEdges_of_isTerminal (hsealed : g.isSealed = true) {edges : List EdgeId}
    (hterminal : ∀ e ∈ edges, (g.entry (.edge e)).isTerminal = true) (errors : List ResolveError) :
    (g.demandEdges errors edges).2 = g := by
  induction edges generalizing errors with
  | nil => rfl
  | cons e rest ih =>
      rw [demandEdges_cons, demand_of_isTerminal hsealed (hterminal e List.mem_cons_self)]
      exact ih (fun k hk => hterminal k (List.mem_cons_of_mem _ hk)) _

end DemandEdges

section Calls

variable {g : Graph}

theorem resolve_of_hasKey {e : EdgeId} (he : g.wiring.HasKey (.edge e)) :
    (g.resolve e).2 = (g.demand (.edge e)).2 := by
  have hedge : g.wiring.edge? e = some g.wiring.edges[e.index] := Array.getElem?_eq_getElem he
  rw [resolve, edge, hedge]
  obtain ⟨result, next⟩ := g.demand (.edge e)
  cases result with
  | error error => rfl
  | ok _ =>
      simp only
      split <;> rfl

theorem resolve_of_not_hasKey {e : EdgeId} (he : ¬ g.wiring.HasKey (.edge e)) :
    (g.resolve e).2 = g := by
  have hedge : g.wiring.edge? e = none := Array.getElem?_eq_none (Nat.le_of_not_lt he)
  rw [resolve, edge, hedge]

/-- The graph in which freezing has resolved every edge. -/
def settleAll (g : Graph) : Graph :=
  g.sealWiring.resolveAll.2

theorem resolveAll_spec (hsettled : g.known.Settled g.wiring) :
    Progresses (edgeKeys g.wiring) g g.resolveAll.2 ∧
      g.resolveAll.2.known.Settled g.resolveAll.2.wiring ∧ g.resolveAll.2.Complete ∧
      g.resolveAll.1 = g.resolveAll.2.failures := by
  obtain ⟨hprogress, hsettled', hterminal, herrors⟩ :=
    demandEdges_spec [] hsettled fun e he => mem_edgeIds.mp he
  have hwiring : g.resolveAll.2.wiring = g.wiring := hprogress.wiring
  refine ⟨hprogress, hsettled', fun e he => ?_, ?_⟩
  · rw [hwiring] at he
    exact hterminal e (mem_edgeIds.mpr he)
  · rw [failures, hwiring]
    exact herrors

theorem progresses_sealWiring : Progresses (edgeKeys g.wiring) g g.sealWiring := by
  have hentry : ∀ key, g.sealWiring.entry key = g.entry key := fun key => by
    rw [entry, known_sealWiring, entry]
  have hseal := g.sealWiring_eq
  refine ⟨by rw [hseal], by rw [hseal], by rw [hseal], fun key _ => hentry key, fun key hkey => ?_⟩
  rw [hentry] at hkey
  exact Or.inl hkey

theorem settled_sealWiring (hsettled : g.known.Settled g.wiring) :
    g.sealWiring.known.Settled g.sealWiring.wiring := by
  rw [known_sealWiring, progresses_sealWiring.wiring]
  exact hsettled

theorem settleAll_spec (hsettled : g.known.Settled g.wiring) :
    Progresses (edgeKeys g.wiring) g g.settleAll ∧
      g.settleAll.known.Settled g.settleAll.wiring ∧ g.settleAll.Complete ∧
      g.sealWiring.resolveAll.1 = g.settleAll.failures ∧ g.settleAll.isSealed = true := by
  have hseal := progresses_sealWiring (g := g)
  obtain ⟨hprogress, hafter, hcomplete, herrors⟩ := resolveAll_spec (settled_sealWiring hsettled)
  rw [hseal.wiring] at hprogress
  refine ⟨hseal.trans hprogress, hafter, hcomplete, herrors, ?_⟩
  refine demandEdges_isSealed ?_ _ _
  rw [isSealed, sealWiring_ledger]
  rfl

theorem verdict_with (frozen : Option BoundGraph) (journal : Array Event) :
    { g with frozen := frozen, journal := journal }.verdict = g.verdict :=
  rfl

theorem failures_with (frozen : Option BoundGraph) (journal : Array Event) :
    { g with frozen := frozen, journal := journal }.failures = g.failures :=
  rfl

/-- Freezing a graph that was not handed out resolves every edge and gives the verdict. -/
theorem freeze_eq (hsettled : g.known.Settled g.wiring) (hfrozen : g.frozen = none) :
    g.freeze.1 = g.settleAll.verdict ∧
      ∃ journal, g.freeze.2 =
        { g.settleAll with frozen := g.settleAll.verdict.toOption, journal := journal } := by
  obtain ⟨_, _, _, herrors, _⟩ := settleAll_spec hsettled
  have hresolve : g.sealWiring.resolveAll = (g.settleAll.failures, g.settleAll) :=
    Prod.ext herrors rfl
  have hkept : g.settleAll.frozen = none := by
    rw [settleAll, resolveAll, demandEdges_frozen, sealWiring_eq]
    exact hfrozen
  simp only [freeze, hfrozen, hresolve]
  generalize g.settleAll = settled at hkept ⊢
  rw [verdict]
  cases (settled.violations settled.failures settled.reachability).isEmpty with
  | false =>
      refine ⟨rfl, ?_⟩
      simp only [Bool.false_eq_true, ↓reduceIte, Except.toOption, ← hkept]
      exact ⟨_, rfl⟩
  | true => exact ⟨rfl, _, rfl⟩

theorem freeze_of_frozen {bound : BoundGraph} (hfrozen : g.frozen = some bound) :
    g.freeze = (.ok bound, g) := by
  rw [freeze, hfrozen]

theorem eq_ok_of_toOption {ε α : Type} {x : Except ε α} {a : α} (h : x.toOption = some a) :
    x = .ok a := by
  cases x with
  | error error => cases h
  | ok b => rw [Option.some.inj h]

/-- What was handed out stays as it is. -/
theorem Sound.call_of_frozen (hsound : g.Sound) {bound : BoundGraph}
    (hfrozen : g.frozen = some bound) (c : Call) : g.call c = g := by
  obtain ⟨hsealed, hcomplete, _⟩ := hsound.handedOut hfrozen
  cases c with
  | resolve e =>
      by_cases he : g.wiring.HasKey (.edge e)
      · rw [call, resolve_of_hasKey he, demand_of_isTerminal hsealed (hcomplete e he)]
      · rw [call, resolve_of_not_hasKey he]
  | resolveAll =>
      exact demandEdges_of_isTerminal hsealed (fun e he => hcomplete e (mem_edgeIds.mp he)) []
  | freeze => rw [call, freeze_of_frozen hfrozen]

/-- A request that resolves edges keeps what is known, adds to it only what the edges touch, and
leaves the graph sound. -/
theorem Sound.call (hsound : g.Sound) (c : Call) :
    Progresses (edgeKeys g.wiring) g (g.call c) ∧ (g.call c).Sound := by
  cases hfrozen : g.frozen with
  | some bound =>
      rw [hsound.call_of_frozen hfrozen c]
      exact ⟨.refl, hsound⟩
  | none =>
      have hopen : ∀ {h : Graph}, Progresses (edgeKeys g.wiring) g h → h.known.Settled h.wiring →
          h.frozen = none → h.Sound := by
        intro h hprogress hsettled hnone
        refine ⟨hprogress.wiring.symm ▸ hsound.wellFormed, hsettled, fun hsome => ?_⟩
        rw [hnone] at hsome
        cases hsome
      cases c with
      | resolve e =>
          by_cases he : g.wiring.HasKey (.edge e)
          · rw [Graph.call, resolve_of_hasKey he]
            obtain ⟨hprogress, hsettled, _⟩ := demand_spec hsound.settled (.edge e)
            have hprogress' : Progresses (edgeKeys g.wiring) g (g.demand (.edge e)).2 :=
              hprogress.mono fun key hkey => ⟨e, he, hkey⟩
            exact ⟨hprogress', hopen hprogress' hsettled ((demand_frozen _).trans hfrozen)⟩
          · rw [Graph.call, resolve_of_not_hasKey he]
            exact ⟨.refl, hsound⟩
      | resolveAll =>
          obtain ⟨hprogress, hsettled, _⟩ := resolveAll_spec hsound.settled
          exact ⟨hprogress, hopen hprogress hsettled ((demandEdges_frozen _ _).trans hfrozen)⟩
      | freeze =>
          obtain ⟨hprogress, hsettled, hcomplete, _, hsealed⟩ := settleAll_spec hsound.settled
          obtain ⟨_, journal, hfreeze⟩ := freeze_eq hsound.settled hfrozen
          rw [Graph.call, hfreeze]
          generalize g.settleAll = s at hprogress hsettled hcomplete hsealed
          refine ⟨⟨hprogress.wiring, hprogress.markedRoots, hprogress.settings, hprogress.keeps,
            hprogress.within⟩, hprogress.wiring.symm ▸ hsound.wellFormed, hsettled,
            fun hbound => ⟨hsealed, hcomplete, ?_⟩⟩
          rw [verdict_with]
          exact eq_ok_of_toOption hbound

/-- An edge that a request demands is settled by it. -/
theorem Sound.terminal_of_demands (hsound : g.Sound) {c : Negotiation.Call} {e : EdgeId}
    (he : g.wiring.HasKey (.edge e)) (hdemands : c.Demands e) :
    ((g.call c).entry (.edge e)).isTerminal = true := by
  cases c with
  | resolve other =>
      obtain rfl : other = e := hdemands
      rw [Graph.call, resolve_of_hasKey he]
      exact terminal_of_demand hsound.settled _
  | resolveAll =>
      obtain ⟨hprogress, _, hcomplete, _⟩ := resolveAll_spec hsound.settled
      exact hcomplete e (hprogress.wiring.symm ▸ he)
  | freeze =>
      cases hfrozen : g.frozen with
      | some bound =>
          obtain ⟨_, hcomplete, _⟩ := hsound.handedOut hfrozen
          rw [Graph.call, freeze_of_frozen hfrozen]
          exact hcomplete e he
      | none =>
          obtain ⟨hprogress, _, hcomplete, _⟩ := settleAll_spec hsound.settled
          obtain ⟨_, journal, hfreeze⟩ := freeze_eq hsound.settled hfrozen
          rw [Graph.call, hfreeze]
          generalize g.settleAll = s at hprogress hcomplete
          exact hcomplete e (hprogress.wiring.symm ▸ he)

/-- Freezing settles every edge and gives the verdict of the graph that it leaves. -/
theorem Sound.freeze_spec {g : Graph} (hg : g.Sound) :
    g.freeze.2.Sound ∧ g.freeze.2.Complete ∧ Progresses (edgeKeys g.wiring) g g.freeze.2 ∧
      g.freeze.1 = g.freeze.2.verdict := by
  obtain ⟨hprogress, hsound⟩ := hg.call .freeze
  refine ⟨hsound, fun e he => ?_, hprogress, ?_⟩
  · exact hg.terminal_of_demands (c := .freeze) (hprogress.wiring ▸ he) trivial
  · cases hfrozen : g.frozen with
    | some bound =>
        rw [freeze_of_frozen hfrozen]
        exact (hg.handedOut hfrozen).2.2.symm
    | none =>
        obtain ⟨hverdict, journal, hafter⟩ := freeze_eq hg.settled hfrozen
        rw [hverdict, hafter]
        exact (verdict_with _ _).symm

/-- Freezing gives the verdict of a graph that has come further and in which every edge is
settled. -/
theorem Sound.exists_freeze_eq {g : Graph} (hg : g.Sound) :
    ∃ h : Graph, h.Sound ∧ h.Complete ∧ Progresses (edgeKeys g.wiring) g h ∧
      g.freeze.1 = h.verdict :=
  ⟨g.freeze.2, hg.freeze_spec⟩

/-- Several requests that resolve edges, one after another. -/
theorem Sound.calls (hsound : g.Sound) (requests : List Negotiation.Call) :
    Progresses (edgeKeys g.wiring) g (g.calls requests) ∧ (g.calls requests).Sound ∧
      ∀ e, g.wiring.HasKey (.edge e) → (∃ c ∈ requests, c.Demands e) →
        ((g.calls requests).entry (.edge e)).isTerminal = true := by
  induction requests generalizing g with
  | nil => exact ⟨.refl, hsound, fun e _ ⟨c, hc, _⟩ => absurd hc List.not_mem_nil⟩
  | cons first rest ih =>
      obtain ⟨hfirst, hsound'⟩ := hsound.call first
      obtain ⟨hrest, hsound'', hterminal⟩ := ih hsound'
      rw [hfirst.wiring] at hrest hterminal
      refine ⟨hfirst.trans hrest, hsound'', fun e he ⟨c, hc, hdemands⟩ => ?_⟩
      rcases List.mem_cons.mp hc with rfl | hmem
      · exact hrest.terminal (hsound.terminal_of_demands he hdemands)
      · exact hterminal e he ⟨c, hmem, hdemands⟩

end Calls

section Invariant

theorem settled_blank (w : Wiring) : (Ledger.blank w).Settled w := by
  have hterminal : ∀ {key}, w.HasKey key →
      (Memo.blank w.slots.size w.edges.size).get key = .unresolved := fun hkey =>
    Memo.get_blank_of_covers (Memo.covers_blank_iff.mpr hkey)
  refine ⟨Memo.consistent_blank w, fun key hresolving => ?_, ?_⟩
  · by_cases hcovers : (Memo.blank w.slots.size w.edges.size).Covers key
    · rw [Ledger.blank, Memo.get_blank_of_covers hcovers] at hresolving
      cases hresolving
    · rw [Ledger.blank, Memo.get_of_not_covers hcovers] at hresolving
      cases hresolving
  · have hnone : (Memo.blank w.slots.size w.edges.size).evaluated w = ∅ := by
      ext key
      refine iff_of_false (fun ⟨hkey, hsettled, _⟩ => ?_) (Set.notMem_empty key)
      rw [hterminal hkey] at hsettled
      cases hsettled
    rw [Ledger.blank, hnone, Set.ncard_empty]

theorem sound_empty (settings : Settings) : (Graph.empty settings).Sound :=
  ⟨Wiring.wellFormed_empty, settled_blank _, fun hfrozen => by cases hfrozen⟩

variable {g : Graph}

theorem Sound.build (hsound : g.Sound) (b : Build) : (g.build b).Sound := by
  cases hsealed : g.isSealed with
  | true =>
      rw [g.build_of_isSealed hsealed b]
      exact hsound
  | false =>
      have hgrows := g.build_grows hsound.wellFormed b
      have hledger : (g.build b).ledger = none := by
        rw [hgrows.ledger]
        simpa [isSealed] using hsealed
      refine ⟨hgrows.wellFormed hsound.wellFormed, ?_, fun hfrozen => ?_⟩
      · rw [known_of_ledger_eq_none _ hledger]
        exact settled_blank _
      · rw [hgrows.frozen] at hfrozen
        rw [(hsound.handedOut hfrozen).1] at hsealed
        cases hsealed

theorem Sound.sealWiring (hsound : g.Sound) : g.sealWiring.Sound := by
  cases hledger : g.ledger with
  | some ledger =>
      have hstay : g.sealWiring = g := by rw [Graph.sealWiring, hledger]
      rw [hstay]
      exact hsound
  | none =>
      refine ⟨?_, ?_, fun hfrozen => ?_⟩
      · rw [progresses_sealWiring.wiring]
        exact hsound.wellFormed
      · exact settled_sealWiring hsound.settled
      · rw [sealWiring_eq] at hfrozen
        have hsealed := (hsound.handedOut hfrozen).1
        rw [isSealed, hledger] at hsealed
        cases hsealed

/-- After a request, the graph is still sound, what stood in it still stands, and what is known of a
key that was settled is still known. -/
theorem Sound.serve (hsound : g.Sound) (request : Request) :
    (g.serve request).Sound ∧ g.wiring.Extends (g.serve request).wiring ∧
      ∀ key, g.wiring.HasKey key → (g.entry key).isTerminal = true →
        (g.serve request).entry key = g.entry key := by
  cases request with
  | build b =>
      refine ⟨hsound.build b, (g.build_grows hsound.wellFormed b).extend, fun key hkey hterminal => ?_⟩
      rw [Graph.serve, g.build_of_isSealed (isSealed_of_isTerminal hkey hterminal) b]
  | sealWiring =>
      refine ⟨hsound.sealWiring, ?_, fun key _ => progresses_sealWiring.keeps key⟩
      rw [Graph.serve, progresses_sealWiring.wiring]
      exact .refl _
  | call c =>
      obtain ⟨hprogress, hsound'⟩ := hsound.call c
      refine ⟨hsound', ?_, fun key _ => hprogress.keeps key⟩
      rw [Graph.serve, hprogress.wiring]
      exact .refl _

/-- Requests lead to sound graphs only. -/
theorem Reachable.sound (h : Reachable g) : g.Sound := by
  induction h with
  | empty settings => exact sound_empty settings
  | serve _ request ih => exact (ih.serve request).1

/-- Several requests, one after another: what stood in the graph still stands, and an edge that one
of them demands is settled. -/
theorem Sound.serves (hsound : g.Sound) (requests : List Request) :
    (g.serves requests).Sound ∧ g.wiring.Extends (g.serves requests).wiring ∧
      ∀ e, g.wiring.HasKey (.edge e) → ((g.entry (.edge e)).isTerminal = true ∨
        ∃ c : Negotiation.Call, .call c ∈ requests ∧ c.Demands e) →
        ((g.serves requests).entry (.edge e)).isTerminal = true := by
  induction requests generalizing g with
  | nil =>
      refine ⟨hsound, .refl _, fun e _ h => h.elim id fun ⟨c, hc, _⟩ => ?_⟩
      exact absurd hc List.not_mem_nil
  | cons first rest ih =>
      obtain ⟨hfirst, hextends, hkeeps⟩ := hsound.serve first
      obtain ⟨hrest, hextends', hterminal⟩ := ih hfirst
      refine ⟨hrest, hextends.trans hextends', fun e he h => ?_⟩
      refine hterminal e (hextends.hasKey he) ?_
      rcases h with hsettled | ⟨c, hc, hdemands⟩
      · exact Or.inl (by rwa [hkeeps _ he hsettled])
      · rcases List.mem_cons.mp hc with rfl | hmem
        · exact Or.inl (hsound.terminal_of_demands he hdemands)
        · exact Or.inr ⟨c, hmem, hdemands⟩

end Invariant

end Graph

end Negotiation
