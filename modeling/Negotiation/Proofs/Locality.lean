import Negotiation.Proofs.Attribution
import Negotiation.Proofs.Resemblance

/-!
What an outcome depends on.

A walk stays among the keys that are needed, and two walks over wirings that are alike there keep in
step.  So the outcome of a key depends on the keys in its closure only, a part of a wiring to which
nothing is joined has its own outcomes, whatever is added apart from it, and a failure stays within
its component (`Graph.outcomes_local`).
-/

namespace Negotiation

open Relation

namespace Wiring

variable {w v : Wiring}

/-- The key itself, and what it needs at whatever distance. -/
def closure (w : Wiring) (key : FlowKey) : Set FlowKey :=
  {other | ReflTransGen w.Needs key other}

/-- From keys which need one another only, no path leads elsewhere. -/
theorem mem_of_path {keys : Set FlowKey}
    (hclosed : ∀ {key dependency}, key ∈ keys → w.Needs key dependency → dependency ∈ keys)
    {key other : FlowKey} (hkey : key ∈ keys) (hpath : ReflTransGen w.Needs key other) :
    other ∈ keys := by
  induction hpath with
  | refl => exact hkey
  | tail _ hneeds ih => exact hclosed ih hneeds

section Parts

variable {nodes : Set NodeId}

/-- No edge joins one of these nodes to any other. -/
def IsPart (w : Wiring) (nodes : Set NodeId) : Prop :=
  ∀ {e edge}, w.edge? e = some edge → (edge.output.node ∈ nodes ↔ edge.input.node ∈ nodes)

/-- What the key stands for is at one of these nodes. -/
def IsAt (w : Wiring) (nodes : Set NodeId) : FlowKey → Prop
  | .down n | .up n => n ∈ nodes
  | .edge e => ∃ edge, w.edge? e = some edge ∧ edge.output.node ∈ nodes

/-- The wirings have the same at these nodes: the nodes themselves, and the edges that leave
them. -/
structure SharesPart (nodes : Set NodeId) (w v : Wiring) : Prop where
  slot : ∀ n ∈ nodes, w.slot? n = v.slot? n
  edge : ∀ {e edge}, edge.output.node ∈ nodes → (w.edge? e = some edge ↔ v.edge? e = some edge)

theorem isAt_edge_iff {e : EdgeId} {edge : Edge} (hedge : w.edge? e = some edge) :
    w.IsAt nodes (.edge e) ↔ edge.output.node ∈ nodes := by
  constructor
  · rintro ⟨found, hfound, hnode⟩
    rw [Option.some.inj (hedge.symm.trans hfound)]
    exact hnode
  · intro hnode
    exact ⟨edge, hedge, hnode⟩

theorem SharesPart.isAt_iff (h : SharesPart nodes w v) {key : FlowKey} :
    w.IsAt nodes key ↔ v.IsAt nodes key := by
  cases key with
  | down n => exact Iff.rfl
  | up n => exact Iff.rfl
  | edge e =>
      apply exists_congr
      intro edge
      apply and_congr_left
      intro hnode
      exact h.edge hnode

/-- The keys at a part need one another only, and no other key needs one of them. -/
theorem IsPart.isolates (hpart : w.IsPart nodes) (hwf : w.WellFormed) :
    w.Isolates {key | w.IsAt nodes key} := by
  intro key dependency hneeds
  cases hnode : key.node? with
  | none =>
      cases key with
      | edge e =>
          obtain ⟨edge, hedge, rfl | rfl⟩ := needs_edge_iff.mp hneeds
          · exact isAt_edge_iff hedge
          · exact (isAt_edge_iff hedge).trans (hpart hedge)
      | down n => cases hnode
      | up n => cases hnode
  | some n =>
      have hat : w.IsAt nodes key ↔ n ∈ nodes := by
        cases key with
        | edge e => cases hnode
        | down m => rw [Option.some.inj hnode.symm]; exact Iff.rfl
        | up m => rw [Option.some.inj hnode.symm]; exact Iff.rfl
      obtain ⟨e, edge, hedge, ⟨rfl, hends⟩ | ⟨rfl, rfl⟩ | ⟨rfl, rfl⟩⟩ :=
        hwf.exists_of_needs hnode hneeds
      · apply hat.trans
        rcases hends with rfl | rfl
        · exact (isAt_edge_iff hedge).symm
        · exact (hpart hedge).symm.trans (isAt_edge_iff hedge).symm
      · exact hat.trans (hpart hedge).symm
      · exact hat.trans (hpart hedge)

/-- At a part that they share, wirings are alike. -/
theorem SharesPart.alikeAt (h : SharesPart nodes w v) (hwf : w.WellFormed)
    (hpart : w.IsPart nodes) {key : FlowKey} (hkey : w.IsAt nodes key) : w.AlikeAt v key := by
  have hedge : ∀ {e edge}, w.edge? e = some edge → edge.output.node ∈ nodes →
      v.edge? e = some edge := fun hedge hnode => (h.edge hnode).mp hedge
  have hnode : ∀ direction, ∀ n ∈ nodes, w.AlikeNode v direction n := by
    intro direction n hn
    rw [AlikeNode, ← h.slot n hn]
    cases hslot : w.slot? n with
    | none => exact .none
    | some slot =>
        refine .some ⟨.refl slot, ?_, fun _ => rfl⟩
        intro side e he
        obtain ⟨edge, hfound, hend⟩ := (hwf.mem_edges_iff hslot).mp he
        have houtput : edge.output.node ∈ nodes := by
          subst hend
          cases side with
          | output => exact hn
          | input => exact (hpart hfound).mpr hn
        rw [SharesEdge, hfound, hedge hfound houtput]
        exact .some (.refl edge)
  cases key with
  | down n => exact hnode .down n hkey
  | up n => exact hnode .up n hkey
  | edge e =>
      obtain ⟨edge, hfound, houtput⟩ := hkey
      rw [AlikeAt, hfound, hedge hfound houtput]
      exact .some ⟨.refl edge, fun _ _ => rfl⟩

end Parts

section Components

/-- The nodes to which edges lead from a node, in whichever direction. -/
def component (w : Wiring) (n : NodeId) : Set NodeId :=
  {m | EqvGen w.Feeds n m}

theorem isPart_component (w : Wiring) (n : NodeId) : w.IsPart (w.component n) := by
  intro e edge hedge
  have hfeeds : EqvGen w.Feeds edge.output.node edge.input.node :=
    .rel _ _ ⟨e, edge, hedge, rfl, rfl⟩
  constructor
  · intro houtput
    exact .trans _ _ _ houtput hfeeds
  · intro hinput
    exact .trans _ _ _ hinput (.symm _ _ hfeeds)

/-- A key at two components makes them one. -/
theorem eqvGen_of_isAt {m n : NodeId} {key : FlowKey} (hm : w.IsAt (w.component m) key)
    (hn : w.IsAt (w.component n) key) : EqvGen w.Feeds m n := by
  cases key with
  | down k => exact .trans _ _ _ hm (.symm _ _ hn)
  | up k => exact .trans _ _ _ hm (.symm _ _ hn)
  | edge e =>
      obtain ⟨edge, hedge, houtput⟩ := hm
      exact .trans _ _ _ houtput (.symm _ _ ((isAt_edge_iff hedge).mp hn))

/-- A failure is about a key: the one at which a mismatch is, or one of a circle. -/
def Concerns : ResolveError → FlowKey → Prop
  | .mismatch m, key => m.key = key
  | .cycle c, key => key ∈ c.chain

theorem Faults.exists_concerns {key : FlowKey} {error : ResolveError} (h : w.Faults key error) :
    ∃ culprit, Concerns error culprit := by
  cases error with
  | mismatch m => exact ⟨m.key, rfl⟩
  | cycle c =>
      obtain ⟨member, hcloses⟩ := h.exists_closes
      exact ⟨member, hcloses.mem_chain⟩

/-- The failure of an isolated key is about isolated keys. -/
theorem Faults.mem_of_concerns (hwf : w.WellFormed) {keys : Set FlowKey}
    (hisolated : w.Isolates keys) {key : FlowKey} {error : ResolveError} (h : w.Faults key error)
    (hkey : key ∈ keys) {culprit : FlowKey} (hculprit : Concerns error culprit) :
    culprit ∈ keys := by
  induction h with
  | refuses h =>
      obtain ⟨memo, _, hevaluate⟩ := h
      obtain ⟨m, rfl, ⟨hsame, _⟩ | ⟨x, hsame, _, hmisreads⟩⟩ :=
        hwf.exists_of_evaluate_eq_error hevaluate
      · rw [← hculprit, hsame]
        exact hkey
      · rw [← hculprit, hsame]
        obtain ⟨⟨edge, hedge⟩, direction, resolved, hneeds, _⟩ := hmisreads
        cases resolved with
        | true =>
            have hread := hneeds (.edge x)
              (mem_reads_resolved.mpr ⟨x, List.mem_singleton_self x, rfl⟩)
            exact (hisolated hread).mp hkey
        | false =>
            have hread := hneeds (emitter edge direction)
              (mem_reads_emitted.mpr ⟨x, List.mem_singleton_self x, edge, hedge, rfl⟩)
            exact (hisolated (emitter_mem_dependencies hedge direction)).mpr
              ((hisolated hread).mp hkey)
  | closes h =>
      obtain ⟨rest, rfl, _, hchain⟩ := h
      have hneeds : (Cycle.around (_ :: rest)).chain.Pairwise (TransGen w.Needs) :=
        (hchain.imp fun _ _ hblames => TransGen.single hblames.touches.needs).pairwise
      rcases List.mem_cons.mp hculprit with rfl | hmem
      · exact hkey
      · have hpath := List.rel_of_pairwise_cons hneeds hmem
        clear hculprit hmem
        induction hpath with
        | single hstep => exact (hisolated hstep).mp hkey
        | tail _ hstep ih => exact (hisolated hstep).mp ih
  | blames hblames _ ih => exact ih ((hisolated hblames.touches.needs).mp hkey) hculprit

end Components

end Wiring

namespace Graph

variable {g h : Graph}

/-- Nothing is known of any key yet. -/
def Fresh (g : Graph) : Prop :=
  g.known = .blank g.wiring

theorem Fresh.settled (hg : g.Fresh) : g.known.Settled g.wiring := by
  rw [hg]
  exact settled_blank g.wiring

theorem Fresh.agreesOn (hg : g.Fresh) (hh : h.Fresh) {keys : Set FlowKey}
    (hkeys : ∀ key ∈ keys, (g.wiring.HasKey key ↔ h.wiring.HasKey key)) :
    g.known.memo.AgreesOn keys h.known.memo := by
  rw [hg, hh]
  have hcovers : ∀ key ∈ keys, ((Ledger.blank g.wiring).memo.Covers key ↔
      (Ledger.blank h.wiring).memo.Covers key) := by
    intro key hkey
    exact Memo.covers_blank_iff.trans ((hkeys key hkey).trans Memo.covers_blank_iff.symm)
  apply Memo.agreesOn_of_get hcovers
  intro key hkey
  by_cases hcovered : (Ledger.blank g.wiring).memo.Covers key
  · exact (Memo.get_blank_of_covers hcovered).trans
      (Memo.get_blank_of_covers ((hcovers key hkey).mp hcovered)).symm
  · exact (Memo.get_of_not_covers hcovered).trans
      (Memo.get_of_not_covers (mt (hcovers key hkey).mpr hcovered)).symm

section Closure

/-- A demand for the key comes to the same in both graphs: the same answer, the same values or
failure of every key in its closure, and nothing is known of any other. -/
structure DemandsAlike (g h : Graph) (key : FlowKey) : Prop where
  answer : (g.demand key).1 = (h.demand key).1
  inside : ∀ other ∈ g.wiring.closure key,
    (g.demand key).2.entry other = (h.demand key).2.entry other
  outside : ∀ other ∉ g.wiring.closure key,
    (g.demand key).2.progress other = .unresolved ∧ (h.demand key).2.progress other = .unresolved

/-- A demand leaves alone what the key does not need. -/
theorem Fresh.progress_demand (hg : g.Fresh) {key other : FlowKey}
    (hnot : ¬ ReflTransGen g.wiring.Needs key other) :
    (g.demand key).2.progress other = .unresolved := by
  obtain ⟨hprogress, hsettled, _⟩ := demand_spec hg.settled key
  by_cases hother : g.wiring.HasKey other
  · -- What a demand brings to an end is needed by the key.
    have hopen : ((g.demand key).2.entry other).isTerminal = false := by
      apply Bool.eq_false_of_not_eq_true
      intro hterminal
      rcases hprogress.within other hterminal with hbefore | ⟨origin, rfl, hpath⟩
      · rw [entry, hg, Ledger.blank,
          Memo.get_blank_of_covers (Memo.covers_blank_iff.mpr hother)] at hbefore
        cases hbefore
      · exact hnot (Wiring.needs_of_touches hpath)
    rw [progress_eq (hprogress.wiring ▸ hother), entry, hsettled.get_eq_unresolved hopen]
    rfl
  · have hmissing : (g.demand key).2.hasKey other = false := by
      simpa [hprogress.wiring] using mt hasKey_iff.mp (hprogress.wiring ▸ hother)
    rw [progress, hmissing]
    cases (g.demand key).2.ledger <;> rfl

theorem demandsAlike (hg : g.Fresh) (hh : h.Fresh) {key : FlowKey}
    (hresembles : g.wiring.Resembles (g.wiring.closure key) h.wiring) : DemandsAlike g h key := by
  have halike : ∀ other ∈ g.wiring.closure key, g.wiring.AlikeAt h.wiring other :=
    fun _ hother => hresembles.alikeAt hother
  have hself : key ∈ g.wiring.closure key := ReflTransGen.refl
  have hsame : g.wiring.Coincides (g.wiring.closure key) h.wiring :=
    Wiring.coincides_of_alikeAt (fun hpath hneeds => ReflTransGen.tail hpath hneeds) halike
  have hmemo : g.known.memo.AgreesOn (g.wiring.closure key) h.known.memo :=
    hg.agreesOn hh fun other hother => (halike other hother).hasKey_iff
  have hboth := Ledger.inStep_demand hsame hmemo hself g.settings.traceEvaluations
    h.settings.traceEvaluations
  refine ⟨?_, ?_, ?_⟩
  · rw [demand_eq, demand_eq]
    exact hboth.result
  · intro other hother
    rw [demand_eq, demand_eq]
    exact hboth.memo.get hother
  · intro other hother
    refine ⟨hg.progress_demand hother, hh.progress_demand ?_⟩
    intro hpath
    apply hother
    apply Wiring.mem_of_path _ hself hpath
    intro key dependency hkey hneeds
    apply hsame.closed hkey
    rw [Wiring.Needs, hsame.dependencies hkey]
    exact hneeds

end Closure

section Parts

variable {nodes : Set NodeId}

open Classical in
/-- Graphs that share a part know the same of it after the same requests, whatever else they
consist of. -/
theorem Sound.entry_calls_of_sharesPart (hg : g.Sound) (hh : h.Sound)
    (hmemo : g.known.memo.AgreesOn {key | g.wiring.IsAt nodes key} h.known.memo)
    (hpart : g.wiring.IsPart nodes) (hpart' : h.wiring.IsPart nodes)
    (hshares : Wiring.SharesPart nodes g.wiring h.wiring) (requests : List Call) {key : FlowKey}
    (hkey : g.wiring.IsAt nodes key) :
    (g.calls requests).entry key = (h.calls requests).entry key := by
  have halike : ∀ key ∈ {key | g.wiring.IsAt nodes key}, g.wiring.AlikeAt h.wiring key :=
    fun _ hkey => hshares.alikeAt hg.wellFormed hpart hkey
  have hleft : g.wiring.Isolates {key | g.wiring.IsAt nodes key} := hpart.isolates hg.wellFormed
  have hright : h.wiring.Isolates {key | g.wiring.IsAt nodes key} := by
    have hkeys : {key | g.wiring.IsAt nodes key} = {key | h.wiring.IsAt nodes key} :=
      Set.ext fun key => hshares.isAt_iff
    rw [hkeys]
    intro key dependency
    exact hpart'.isolates hh.wellFormed
  have hsame := Wiring.coincides_of_alikeAt (fun hkey hneeds => (hleft hneeds).mp hkey) halike
  exact (calls_agreesOn hg hh hsame hleft hright (fun e he => (halike _ he).hasKey_iff) hmemo
    requests).get hkey

/-- Every edge that the second graph has beyond the first joins nodes that it has beyond the
first. -/
def AddsApart (g h : Graph) : Prop :=
  ∀ {e edge}, h.wiring.edge? e = some edge → g.wiring.edge? e = none →
    ¬ g.wiring.HasKey (.down edge.output.node) ∧ ¬ g.wiring.HasKey (.down edge.input.node)

theorem serves_builds_of_isSealed (hsealed : g.isSealed = true) (builds : List Build) :
    g.serves (builds.map .build) = g := by
  induction builds with
  | nil => rfl
  | cons b rest ih =>
      have hfirst : g.build b = g := g.build_of_isSealed hsealed b
      rw [List.map_cons, serves, List.foldl_cons, serve, hfirst]
      exact ih

theorem serves_builds_grows (hwf : g.wiring.WellFormed) (builds : List Build) :
    Grows g (g.serves (builds.map .build)) := by
  induction builds generalizing g with
  | nil => exact .refl
  | cons b rest ih =>
      have hfirst := g.build_grows hwf b
      exact hfirst.trans (ih (hfirst.wellFormed hwf))

/-- What is added apart leaves the nodes as they were. -/
theorem Grows.slot?_of_addsApart (hgh : Grows g h) (hapart : AddsApart g h) {n : NodeId}
    (hn : g.wiring.HasKey (.down n)) : h.wiring.slot? n = g.wiring.slot? n := by
  induction hgh with
  | refl => rfl
  | note _ _ ih => exact ih hapart
  | root _ _ _ ih => exact ih hapart
  | @node k hgk node ih =>
      have hold := ih hapart
      have hne : n ≠ ⟨k.wiring.slots.size⟩ := by
        rintro rfl
        have hthere := hgk.extend.hasKey hn
        exact Nat.lt_irrefl _ hthere
      exact (Wiring.slot?_addSlot _ _ n).trans ((if_neg hne).trans hold)
  | @edge k hgk output input protocol adapter policy hadmits ih =>
      let added : Edge := ⟨⟨k.wiring.edges.size⟩, output, input, protocol, adapter, policy⟩
      have hwiring : (k.pushEdge output input protocol adapter policy).2.wiring =
          k.wiring.addEdge added := rfl
      have hextends := k.wiring.extends_addEdge added
      have hold : k.wiring.slot? n = g.wiring.slot? n := by
        apply ih
        intro e edge hedge hnew
        exact hapart (hextends.edge hedge) hnew
      -- Its number is new to the graph, so the edge is one of those that are added apart.
      have hnew : g.wiring.edge? added.id = none := by
        cases hfound : g.wiring.edge? added.id with
        | none => rfl
        | some edge =>
            have hthere := hgk.extend.edge hfound
            rw [Wiring.edge?_size] at hthere
            cases hthere
      have hadded : (k.wiring.addEdge added).edge? added.id = some added := by
        rw [Wiring.edge?_addEdge]
        exact if_pos rfl
      obtain ⟨houtput, hinput⟩ := hapart hadded hnew
      have hne : n ≠ output.node ∧ n ≠ input.node :=
        ⟨fun heq => houtput (heq ▸ hn), fun heq => hinput (heq ▸ hn)⟩
      have hstays : (k.wiring.addEdge added).slot? n = k.wiring.slot? n := by
        have hattach : (k.wiring.addEdge added).slot? n =
            ((k.wiring.attach output added.id).attach input added.id).slot? n := rfl
        rw [hattach, Wiring.slot?_attach, Wiring.slot?_attach]
        simp [hne.1, hne.2]
      exact hstays.trans hold

/-- A graph that was extended apart shares all of the graph that it was before. -/
theorem Grows.sharesPart (hgh : Grows g h) (hwf : g.wiring.WellFormed) (hapart : AddsApart g h) :
    g.wiring.IsPart {n | g.wiring.HasKey (.down n)} ∧
      h.wiring.IsPart {n | g.wiring.HasKey (.down n)} ∧
        Wiring.SharesPart {n | g.wiring.HasKey (.down n)} g.wiring h.wiring := by
  have hends : ∀ {e edge}, g.wiring.edge? e = some edge →
      ∀ side, g.wiring.HasKey (.down (edge.port side).node) := by
    intro e edge hedge side
    obtain ⟨slot, hslot⟩ := hwf.exists_slot hedge side
    exact (Array.getElem?_eq_some_iff.mp hslot).1
  have hold : ∀ {e edge}, h.wiring.edge? e = some edge → ∀ found,
      g.wiring.edge? e = some found → found = edge := by
    intro e edge hedge found hfound
    exact Option.some.inj ((hgh.extend.edge hfound).symm.trans hedge)
  refine ⟨?_, ?_, ?_, ?_⟩
  · intro e edge hedge
    exact iff_of_true (hends hedge .output) (hends hedge .input)
  · intro e edge hedge
    cases hfound : g.wiring.edge? e with
    | none =>
        obtain ⟨houtput, hinput⟩ := hapart hedge hfound
        exact iff_of_false houtput hinput
    | some found =>
        obtain rfl := hold hedge found hfound
        exact iff_of_true (hends hfound .output) (hends hfound .input)
  · intro n hn
    exact (hgh.slot?_of_addsApart hapart hn).symm
  · intro e edge hnode
    refine ⟨hgh.extend.edge, ?_⟩
    intro hedge
    cases hfound : g.wiring.edge? e with
    | none => exact absurd hnode (hapart hedge hfound).1
    | some found => rw [hold hedge found hfound]

/-- Building on apart from a graph changes nothing of what its edges come to. -/
theorem Sound.entry_calls_extended (hg : g.Sound) {builds : List Build}
    (hapart : AddsApart g (g.serves (builds.map .build))) (requests : List Call) {e : EdgeId}
    (he : g.wiring.HasKey (.edge e)) :
    ((g.serves (builds.map .build)).calls requests).entry (.edge e) =
      (g.calls requests).entry (.edge e) := by
  cases hledger : g.ledger with
  | some ledger =>
      have hsealed : g.isSealed = true := by
        rw [isSealed, hledger]
        rfl
      rw [serves_builds_of_isSealed hsealed]
  | none =>
      have hgrows := serves_builds_grows hg.wellFormed builds
      obtain ⟨hpart, hpart', hshares⟩ := hgrows.sharesPart hg.wellFormed hapart
      have hh := (hg.serves (builds.map .build)).1
      have hfresh : g.Fresh := known_of_ledger_eq_none g hledger
      have hfresh' : (g.serves (builds.map .build)).Fresh :=
        known_of_ledger_eq_none _ (hgrows.ledger.trans hledger)
      have hmemo := hfresh.agreesOn hfresh' fun key hkey =>
        (hshares.alikeAt hg.wellFormed hpart hkey).hasKey_iff
      have hedge : g.wiring.edge? e = some g.wiring.edges[e.index] := Array.getElem?_eq_getElem he
      have hat : g.wiring.IsAt {n | g.wiring.HasKey (.down n)} (.edge e) := by
        obtain ⟨slot, hslot⟩ := hg.wellFormed.exists_slot hedge .output
        exact ⟨_, hedge, (Array.getElem?_eq_some_iff.mp hslot).1⟩
      exact (hg.entry_calls_of_sharesPart hh hmemo hpart hpart' hshares requests hat).symm

/-- Edges that fail alike are of one component. -/
theorem Sound.eqvGen_of_failure? (hg : g.Sound) {d e : EdgeId} {edge other : Edge}
    (hedge : g.wiring.edge? d = some edge) (hother : g.wiring.edge? e = some other)
    {error : ResolveError} (hd : g.failure? d = some error) (he : g.failure? e = some error) :
    EqvGen g.wiring.Feeds edge.output.node other.output.node := by
  have hentry : ∀ {x found}, g.wiring.edge? x = some found → g.failure? x = some error →
      g.wiring.Faults (.edge x) error := by
    intro x found hfound hfailure
    rw [failure?_eq (.of_edge? hfound)] at hfailure
    exact hg.settled.consistent.faults (Entry.failure?_eq_some_iff.mp hfailure)
  obtain ⟨culprit, hculprit⟩ := (hentry hedge hd).exists_concerns
  have hat : ∀ {x found}, g.wiring.edge? x = some found → g.failure? x = some error →
      g.wiring.IsAt (g.wiring.component found.output.node) culprit := by
    intro x found hfound hfailure
    have hisolated : g.wiring.Isolates
        {key | g.wiring.IsAt (g.wiring.component found.output.node) key} :=
      Wiring.IsPart.isolates (g.wiring.isPart_component found.output.node) hg.wellFormed
    exact (hentry hfound hfailure).mem_of_concerns hg.wellFormed hisolated
      ((Wiring.isAt_edge_iff hfound).mpr (.refl _)) hculprit
  exact Wiring.eqvGen_of_isAt (hat hedge hd) (hat hother he)

end Parts

/-- What a key comes to depends on its closure only.

* Where two graphs have the same ports, flows, edges, adapters, schemas and fallbacks, and the same
  functions at the closure of a key, a demand for it in a fresh graph comes to the same in both and
  leaves every other key unresolved.
* Nodes and edges that are attached to none of the nodes of a graph change nothing of what its
  edges come to, whatever is requested.
* Nor does anything else in which two graphs differ that share a part, where nothing joins it to
  the rest of either.
* A failure stays in its component: edges that fail with the same failure are connected. -/
theorem outcomes_local :
    (∀ {g h : Graph} {key : FlowKey}, g.Fresh → h.Fresh →
      g.wiring.Resembles (g.wiring.closure key) h.wiring → DemandsAlike g h key) ∧
    (∀ {g : Graph} {builds : List Build}, g.Reachable →
      AddsApart g (g.serves (builds.map .build)) →
      ∀ (requests : List Call) (e : EdgeId), g.wiring.HasKey (.edge e) →
        ((g.serves (builds.map .build)).calls requests).entry (.edge e) =
          (g.calls requests).entry (.edge e)) ∧
    (∀ {g h : Graph} {nodes : Set NodeId}, g.Reachable → h.Reachable → g.Fresh → h.Fresh →
      g.wiring.IsPart nodes → h.wiring.IsPart nodes → Wiring.SharesPart nodes g.wiring h.wiring →
      ∀ (requests : List Call) (key : FlowKey), g.wiring.IsAt nodes key →
        (g.calls requests).entry key = (h.calls requests).entry key) ∧
    ∀ {g : Graph} {d e : EdgeId} {edge other : Edge}, g.Reachable →
      g.wiring.edge? d = some edge → g.wiring.edge? e = some other →
      ∀ error, g.failure? d = some error → g.failure? e = some error →
        EqvGen g.wiring.Feeds edge.output.node other.output.node := by
  refine ⟨?closure, ?extension, ?part, ?failure⟩
  case closure =>
    intro g h key hg hh hresembles
    exact demandsAlike hg hh hresembles
  case extension =>
    intro g builds hg hapart requests e he
    exact hg.sound.entry_calls_extended hapart requests he
  case part =>
    intro g h nodes hg hh hfresh hfresh' hpart hpart' hshares requests key hkey
    have hmemo := hfresh.agreesOn hfresh' fun other hother =>
      (hshares.alikeAt hg.sound.wellFormed hpart hother).hasKey_iff
    exact hg.sound.entry_calls_of_sharesPart hh.sound hmemo hpart hpart' hshares requests hkey
  case failure =>
    intro g d e edge other hg hedge hother error hd he
    exact hg.sound.eqvGen_of_failure? hedge hother hd he

/-- A second line apart from the first: what a source offers reaches a sink through a node that
passes it on. -/
def beside (offer : Parameter) : List Build :=
  [.addNode (.source "gpu" widths (.exactly 1) offer), .addNode (.identity "link" widths),
    .addNode (.sink "rom" widths (.exactly 1) (.ofList [("width", .num 8)])),
    .bind (NodeId.output ⟨2⟩ 0) (NodeId.input ⟨3⟩ 0),
    .bind (NodeId.output ⟨3⟩ 0) (NodeId.input ⟨4⟩ 0)]

/-- The line, and a second one apart from it. -/
def lines (offer : Parameter) : Graph :=
  line.serves ((beside offer).map .build)

/-- The lines, where the second source offers nothing. -/
def severed : Graph :=
  lines .empty

/-- The lines, where the second source offers what the sink demands. -/
def intact : Graph :=
  lines (.ofList [("width", .num 8)])

/-- What is wired, whatever the second source offers. -/
def linesWiring (offer : Parameter) : Wiring where
  slots := #[⟨.source "cpu" widths (.exactly 1) (.ofList [("width", .span 1 32)]), [], [[⟨0⟩]]⟩,
    ⟨.sink "ram" widths (.exactly 1) (.ofList [("width", .span 8 64)]), [[⟨0⟩]], []⟩,
    ⟨.source "gpu" widths (.exactly 1) offer, [], [[⟨1⟩]]⟩,
    ⟨.identity "link" widths, [[⟨1⟩]], [[⟨2⟩]]⟩,
    ⟨.sink "rom" widths (.exactly 1) (.ofList [("width", .num 8)]), [[⟨2⟩]], []⟩]
  edges := #[⟨⟨0⟩, NodeId.output ⟨0⟩ 0, NodeId.input ⟨1⟩ 0, widths, .identity, none⟩,
    ⟨⟨1⟩, NodeId.output ⟨2⟩ 0, NodeId.input ⟨3⟩ 0, widths, .identity, none⟩,
    ⟨⟨2⟩, NodeId.output ⟨3⟩ 0, NodeId.input ⟨4⟩ 0, widths, .identity, none⟩]

/-- The nodes of the first line. -/
def foreground : Set NodeId :=
  {n | n.index < 2}

section Lines

variable (offer other : Parameter)

theorem slot_linesWiring (n : NodeId) :
    Option.Rel Slot.Resembles ((linesWiring offer).slot? n) ((linesWiring other).slot? n) := by
  rcases n with ⟨_ | _ | _ | _ | _ | k⟩
  case zero | succ.zero | succ.succ.succ.zero | succ.succ.succ.succ.zero => exact .some (.refl _)
  case succ.succ.zero => exact .some ⟨List.forall₂_same.mpr fun p _ => .refl p, rfl, fun _ => rfl⟩
  case succ.succ.succ.succ.succ => exact .none

theorem isPart_foreground : (linesWiring offer).IsPart foreground := by
  have hall : ∀ edge ∈ (linesWiring .empty).edges,
      (edge.output.node.index < 2 ↔ edge.input.node.index < 2) := by decide
  intro e edge hedge
  exact hall edge (Array.mem_of_getElem? hedge)

theorem isAt_foreground : (linesWiring offer).IsAt foreground (.edge ⟨0⟩) :=
  ⟨_, rfl, Nat.zero_lt_two⟩

theorem sharesPart_foreground :
    Wiring.SharesPart foreground (linesWiring offer) (linesWiring other) where
  slot n hn := by
    rcases n with ⟨_ | _ | k⟩
    case zero | succ.zero => rfl
    case succ.succ => exact absurd hn (Nat.not_lt_of_le (Nat.le_add_left 2 k))
  edge _ := Iff.rfl

theorem resembles_linesWiring {keys : Set FlowKey}
    (hkeys : ∀ key ∈ keys, (linesWiring offer).IsAt foreground key) :
    (linesWiring offer).Resembles keys (linesWiring other) := by
  have hsame : ∀ {n s t}, n ∈ foreground → (linesWiring offer).slot? n = some s →
      (linesWiring other).slot? n = some t → s = t := by
    intro n s t hn hs ht
    rw [(sharesPart_foreground offer other).slot n hn] at hs
    exact Option.some.inj (hs.symm.trans ht)
  refine ⟨slot_linesWiring offer other, ?_, ?_, ?_, ?_⟩
  · intro e
    have hself : ∀ found, Option.Rel Edge.Resembles found found := by
      rintro (_ | edge)
      · exact .none
      · exact .some (.refl edge)
    exact hself _
  · intro n s t hkey hs ht readings
    rw [hsame (hkeys _ hkey) hs ht]
  · intro n s t hkey hs ht readings
    rw [hsame (hkeys _ hkey) hs ht]
  · intro e d d' _ hd hd' down up
    rw [Option.some.inj (hd.symm.trans hd')]

end Lines

theorem wiring_severed : severed.wiring = linesWiring .empty :=
  rfl

theorem wiring_intact : intact.wiring = linesWiring (.ofList [("width", .num 8)]) :=
  rfl

theorem resembles_intact :
    severed.wiring.Resembles (severed.wiring.closure (.edge ⟨0⟩)) intact.wiring := by
  have hwf : severed.wiring.WellFormed := ((reachable_after _ _).serves _).sound.wellFormed
  rw [wiring_severed] at hwf ⊢
  rw [wiring_intact]
  have hisolated : (linesWiring .empty).Isolates {key | (linesWiring .empty).IsAt foreground key} :=
    Wiring.IsPart.isolates (isPart_foreground .empty) hwf
  apply resembles_linesWiring
  intro key hpath
  exact Wiring.mem_of_path (fun hkey hneeds => (hisolated hneeds).mp hkey)
    (isAt_foreground .empty) hpath

theorem addsApart_severed : AddsApart line severed := by
  have hall : ∀ edge ∈ (linesWiring .empty).edges, edge.id = ⟨0⟩ ∨
      (2 ≤ edge.output.node.index ∧ 2 ≤ edge.input.node.index) := by decide
  have hsize : line.wiring.slots.size = 2 := rfl
  have hwf : severed.wiring.WellFormed := ((reachable_after _ _).serves _).sound.wellFormed
  intro e edge hedge hnew
  rcases hall edge (Array.mem_of_getElem? hedge) with hid | ⟨houtput, hinput⟩
  · rw [← hwf.numbered hedge, hid] at hnew
    cases hnew
  · have hbeyond : ∀ {n : NodeId}, 2 ≤ n.index → ¬ line.wiring.HasKey (.down n) := by
      intro n hn hthere
      exact Nat.lt_irrefl _ (Nat.lt_of_lt_of_le (hsize ▸ hthere) hn)
    exact ⟨hbeyond houtput, hbeyond hinput⟩

/-- The second line fails where its source offers nothing, and with it both its edges; the first
comes to what it comes to alone, and to the same where the second is resolved. -/
theorem lines_outcomes_local :
    (severed.call .resolveAll).progress (.edge ⟨2⟩) = .failed ∧
      (intact.call .resolveAll).progress (.edge ⟨2⟩) = .resolved ∧
      DemandsAlike severed intact (.edge ⟨0⟩) ∧
      (severed.call .resolveAll).entry (.edge ⟨0⟩) = (line.call .resolveAll).entry (.edge ⟨0⟩) ∧
      (severed.call .resolveAll).entry (.edge ⟨0⟩) = (intact.call .resolveAll).entry (.edge ⟨0⟩) ∧
      ∃ error, (severed.call .resolveAll).failure? ⟨1⟩ = some error ∧
        (severed.call .resolveAll).failure? ⟨2⟩ = some error ∧
        EqvGen (severed.call .resolveAll).wiring.Feeds ⟨2⟩ ⟨3⟩ := by
  obtain ⟨hclosure, hextension, hpart, hfailure⟩ := outcomes_local
  have hline : line.Reachable := reachable_after _ _
  have hkey : line.wiring.HasKey (.edge ⟨0⟩) := show 0 < line.wiring.edges.size by decide
  have hsevered : severed.Reachable := hline.serves _
  have hintact : intact.Reachable := hline.serves _
  have hfresh : severed.Fresh ∧ intact.Fresh :=
    ⟨known_of_ledger_eq_none _ rfl, known_of_ledger_eq_none _ rfl⟩
  have hdemands := hclosure hfresh.1 hfresh.2 resembles_intact
  have halone := hextension hline addsApart_severed [.resolveAll] ⟨0⟩ hkey
  have hshared := hpart hsevered hintact hfresh.1 hfresh.2 (isPart_foreground _)
    (isPart_foreground _) (sharesPart_foreground _ _) [.resolveAll] _ (isAt_foreground .empty)
  let missing : ResolveError :=
    .mismatch ⟨.down ⟨2⟩, some ⟨1⟩, .onPort "out" (.missingField "width")⟩
  have hfirst : (severed.call .resolveAll).failure? ⟨1⟩ = some missing := by decide
  have hsecond : (severed.call .resolveAll).failure? ⟨2⟩ = some missing := by decide
  have hout : (severed.call .resolveAll).wiring.edge? ⟨1⟩ =
      some ⟨⟨1⟩, NodeId.output ⟨2⟩ 0, NodeId.input ⟨3⟩ 0, widths, .identity, none⟩ := rfl
  have hin : (severed.call .resolveAll).wiring.edge? ⟨2⟩ =
      some ⟨⟨2⟩, NodeId.output ⟨3⟩ 0, NodeId.input ⟨4⟩ 0, widths, .identity, none⟩ := rfl
  have hjoined := hfailure (hsevered.serve (.call .resolveAll)) hout hin missing hfirst hsecond
  exact ⟨by decide, by decide, hdemands, halone, hshared, missing, hfirst, hsecond, hjoined⟩

end Graph

end Negotiation
