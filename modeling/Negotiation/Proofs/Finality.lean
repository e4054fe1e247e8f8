import Negotiation.Proofs.Emission
import Negotiation.Proofs.Tracing

/-!
Every key is evaluated at most once, and what is settled is final.

A ledger counts evaluations, and a traced walk notes the key of each.  `Ledger.Evaluates` says that
from one ledger to another just these keys were evaluated, each for the first time; a step of a walk
does so for the keys that it notes (`Walk.Coherent.step_logs`), and then so does a whole walk, a
demand, and every request (`Graph.Sound.calls_logs`).
-/

namespace Negotiation

/-- The key whose evaluation an event notes. -/
def Event.evaluated? : Event → Option FlowKey
  | evaluating key => some key
  | _ => none

/-- The keys whose evaluations are noted, in order. -/
def notedIn (events : Array Event) : List FlowKey :=
  events.toList.filterMap Event.evaluated?

theorem notedIn_push (events : Array Event) (event : Event) :
    notedIn (events.push event) = notedIn events ++ event.evaluated?.toList := by
  simp only [notedIn, Array.toList_push, List.filterMap_append, List.append_cancel_left_eq]
  cases event <;> rfl

theorem notedIn_append (events more : Array Event) :
    notedIn (events ++ more) = notedIn events ++ notedIn more := by
  simp only [notedIn, Array.toList_append, List.filterMap_append]

theorem notedIn_appendList (events : Array Event) (more : List Event) :
    notedIn (events.appendList more) = notedIn events ++ more.filterMap Event.evaluated? := by
  simp only [notedIn, Array.appendList_eq_append, Array.toList_appendList, List.filterMap_append]

namespace Walk

theorem filterMap_announce (key : FlowKey) :
    (announce true key).filterMap Event.evaluated? = [key] :=
  rfl

theorem filterMap_report (trace : Bool) (key : FlowKey) (values : List Parameter) :
    (report trace key values).filterMap Event.evaluated? = [] := by
  unfold report
  split <;> rfl

end Walk

namespace Ledger

variable {w : Wiring} {before between after : Ledger} {keys more : List FlowKey}

/-- From the first ledger to the second just these keys were evaluated, each for the first time. -/
structure Evaluates (w : Wiring) (before after : Ledger) (keys : List FlowKey) : Prop where
  nodup : keys.Nodup
  fresh : ∀ key ∈ keys, key ∈ after.memo.evaluated w ∧ key ∉ before.memo.evaluated w
  grows : before.memo.evaluated w ⊆ after.memo.evaluated w
  counted : after.evaluations = before.evaluations + keys.length

namespace Evaluates

theorem trans (h : before.Evaluates w between keys) (h' : between.Evaluates w after more) :
    before.Evaluates w after (keys ++ more) where
  nodup := by
    refine List.nodup_append.mpr ⟨h.nodup, h'.nodup, ?_⟩
    -- What was evaluated first stays evaluated, so it is not evaluated for the first time later.
    rintro key hkey _ hmore rfl
    exact (h'.fresh key hmore).2 (h.fresh key hkey).1
  fresh key hkey := by
    rcases List.mem_append.mp hkey with hmem | hmem
    · exact ⟨h'.grows (h.fresh key hmem).1, (h.fresh key hmem).2⟩
    · exact ⟨(h'.fresh key hmem).1, fun hold => (h'.fresh key hmem).2 (h.grows hold)⟩
  grows := h.grows.trans h'.grows
  counted := by
    rw [h'.counted, h.counted, List.length_append, Nat.add_assoc]

section Keeps

variable (hkeep : ∀ key, (before.memo.get key).isTerminal = true →
  after.memo.get key = before.memo.get key)

include hkeep

theorem grows_of_keeps : before.memo.evaluated w ⊆ after.memo.evaluated w := by
  rintro key ⟨hkey, hterminal, hready⟩
  exact ⟨hkey, by rw [hkeep key hterminal]; exact hterminal, hready⟩

/-- Nothing was evaluated. -/
theorem nothing (hcount : after.evaluations = before.evaluations) :
    before.Evaluates w after [] :=
  ⟨List.nodup_nil, List.forall_mem_nil _, grows_of_keeps hkeep, hcount⟩

/-- One key was evaluated, and is settled by that. -/
theorem one {key : FlowKey} (hkey : w.HasKey key) (hready : w.Ready key)
    (hopen : (before.memo.get key).isTerminal = false)
    (hterminal : (after.memo.get key).isTerminal = true)
    (hcount : after.evaluations = before.evaluations + 1) : before.Evaluates w after [key] := by
  refine ⟨List.nodup_singleton key, ?_, grows_of_keeps hkeep, hcount⟩
  intro k hk
  rw [List.mem_singleton.mp hk]
  refine ⟨⟨hkey, hterminal, hready⟩, ?_⟩
  rintro ⟨_, hsettled, _⟩
  rw [hopen] at hsettled
  cases hsettled

end Keeps

end Evaluates

/-- While the events were noted, just the keys were evaluated whose evaluations they note. -/
def Logs (w : Wiring) (before : Ledger) (past : Array Event) (after : Ledger)
    (events : Array Event) : Prop :=
  ∃ keys, notedIn events = notedIn past ++ keys ∧ before.Evaluates w after keys

namespace Logs

variable {past middle events : Array Event}

theorem trans (h : before.Logs w past between middle) (h' : between.Logs w middle after events) :
    before.Logs w past after events := by
  obtain ⟨keys, hkeys, heval⟩ := h
  obtain ⟨more, hmore, heval'⟩ := h'
  exact ⟨keys ++ more, by rw [hmore, hkeys, List.append_assoc], heval.trans heval'⟩

/-- Nothing was evaluated, and no evaluation noted. -/
theorem nothing
    (hkeep : ∀ key, (before.memo.get key).isTerminal = true →
      after.memo.get key = before.memo.get key)
    (hcount : after.evaluations = before.evaluations)
    (hnoted : notedIn events = notedIn past) : before.Logs w past after events :=
  ⟨[], by rw [hnoted, List.append_nil], .nothing hkeep hcount⟩

theorem refl (hnoted : notedIn events = notedIn past) : before.Logs w past before events :=
  nothing (fun _ _ => rfl) rfl hnoted

end Logs

end Ledger

namespace Walk

/-- On the way to the next walk, or to the end, just the keys are evaluated that are noted. -/
def Logged (w : Wiring) (walk : Walk) : Walk ⊕ Arrival → Prop
  | .inl next => walk.ledger.Logs w walk.events next.ledger next.events
  | .inr arrival => walk.ledger.Logs w walk.events arrival.ledger arrival.events

/-- A key that goes onto the pile is not evaluated yet. -/
theorem logs_set_resolving {w : Wiring} {ledger : Ledger} {key : FlowKey}
    (hget : ledger.memo.get key = .unresolved) (events : Array Event) :
    ledger.Logs w events { ledger with memo := ledger.memo.set key .resolving } events := by
  refine .nothing (fun k hk => Memo.get_set_ne _ _ ?_) rfl rfl
  rintro rfl
  rw [hget] at hk
  cases hk

namespace Coherent

variable {w : Wiring} {origin : Memo} {target : FlowKey} {walk : Walk}

/-- Writing over keys of the pile keeps what is settled. -/
theorem keeps_setAll (h : Coherent w origin target walk) (keys : List FlowKey) (entry : Entry)
    (hkeys : ∀ key ∈ keys, key ∈ walk.pile) (key : FlowKey)
    (hkey : (walk.ledger.memo.get key).isTerminal = true) :
    (walk.ledger.memo.setAll keys entry).get key = walk.ledger.memo.get key := by
  rw [Memo.get_setAll, if_neg]
  rintro ⟨hmem, _⟩
  rw [(h.resolving_iff key).mpr (hkeys key hmem)] at hkey
  cases hkey

/-- A walk that fails without an evaluation notes none. -/
theorem fail_logs (h : Coherent w origin target walk) (error : ResolveError) :
    walk.ledger.Logs w walk.events (walk.fail error).ledger (walk.fail error).events := by
  refine .nothing (h.keeps_setAll walk.pile _ fun _ hk => hk) rfl ?_
  rw [fail, notedIn_push]
  exact List.append_nil _

/-- The key on top is evaluated, and noted; it is settled by that, well or not. -/
theorem evaluate_logs (h : Coherent w origin target walk) {top : FlowKey} {below : List FlowKey}
    (hpile : walk.pile = top :: below) (hready : w.Ready top) :
    walk.Logged w (walk.evaluate w true top below) := by
  have hmem : top ∈ walk.pile := hpile ▸ List.mem_cons_self
  have hopen : (walk.ledger.memo.get top).isTerminal = false := by
    rw [(h.resolving_iff top).mpr hmem]
    rfl
  simp only [Walk.evaluate]
  cases w.evaluate walk.ledger.memo top with
  | error error =>
      have hkeep := h.keeps_setAll walk.pile (.failed error) fun _ hk => hk
      refine ⟨[top], ?_, .one hkeep (h.hasKey hmem) hready hopen ?_ rfl⟩
      · rw [fail, notedIn_push, notedIn_appendList, filterMap_announce]
        exact List.append_nil _
      · simp only [fail]
        rw [h.get_setAll_pile, if_pos hmem]
        rfl
  | ok values =>
      have hkeep := h.keeps_setAll [top] (.resolved values) fun _ hk =>
        List.mem_singleton.mp hk ▸ hmem
      refine ⟨[top], ?_, .one hkeep (h.hasKey hmem) hready hopen ?_ rfl⟩
      · rw [notedIn_appendList, notedIn_appendList, filterMap_announce, filterMap_report,
          List.append_nil]
      · simp only
        rw [Memo.get_set_self _ (h.covers hmem)]
        rfl

/-- What one step evaluates is what it notes. -/
theorem step_logs (h : Coherent w origin target walk) : walk.Logged w (walk.step w true) := by
  rcases h.step_cases true with ⟨_, hstep⟩ | ⟨top, below, hpile,
    ⟨key, _, hget, hstep⟩ | ⟨key, _, _, hstep⟩ | ⟨key, error, _, _, hstep⟩ | ⟨hsupports, hstep⟩⟩
  · rw [hstep]
    exact .refl rfl
  · rw [hstep]
    exact logs_set_resolving hget walk.events
  · rw [hstep]
    exact h.fail_logs _
  · rw [hstep]
    exact h.fail_logs error
  · rw [hstep]
    exact h.evaluate_logs hpile hsupports.ready

/-- What a walk evaluates is what it notes. -/
theorem run_logs (h : Coherent w origin target walk) {n : Nat} {arrival : Arrival}
    (hrun : Walk.run w true n walk = .inr arrival) :
    walk.ledger.Logs w walk.events arrival.ledger arrival.events := by
  induction n generalizing walk with
  | zero => cases hrun
  | succ n ih =>
      have hlogs := h.step_logs
      have hcontinues := h.step true
      rw [Walk.run] at hrun
      cases hstep : walk.step w true with
      | inl next =>
          rw [hstep] at hrun hlogs hcontinues
          have hrest := ih hcontinues hrun
          exact Ledger.Logs.trans hlogs hrest
      | inr last =>
          rw [hstep] at hrun hlogs
          obtain rfl := Sum.inr.inj hrun
          exact hlogs

end Coherent

end Walk

/-- What a demand evaluates is what it notes. -/
theorem Ledger.Settled.demand_logs {w : Wiring} {ledger : Ledger} (h : ledger.Settled w)
    (key : FlowKey) :
    ledger.Logs w #[] (ledger.demand w true key).ledger (ledger.demand w true key).events := by
  cases hget : ledger.memo.get key with
  | resolved values =>
      simp only [Ledger.demand, hget]
      exact .refl rfl
  | failed error =>
      simp only [Ledger.demand, hget]
      exact .refl rfl
  | resolving => exact absurd hget (h.idle key)
  | unresolved =>
      simp only [Ledger.demand, hget]
      have hstart : ledger.Logs w #[] (Walk.start ledger key).ledger
          (Walk.start ledger key).events :=
        Walk.logs_set_resolving hget #[]
      exact hstart.trans ((Walk.coherent_start h hget).run_logs (Sum.inr_getRight _ _).symm)

namespace Wiring

theorem ncard_hasKey_le (w : Wiring) : {key | w.HasKey key}.ncard ≤ w.keyCount := by
  let keys := w.nodeIds.map FlowKey.down ++ w.nodeIds.map FlowKey.up ++ w.edgeIds.map FlowKey.edge
  have hkeys : {key | w.HasKey key} ⊆ (keys.toFinset : Set FlowKey) := by
    intro key hkey
    rw [Finset.mem_coe, List.mem_toFinset]
    cases key with
    | down n => simpa [keys, nodeIds] using ⟨n.index, hkey, rfl⟩
    | up n => simpa [keys, nodeIds] using ⟨n.index, hkey, rfl⟩
    | edge e => simpa [keys, edgeIds] using ⟨e.index, hkey, rfl⟩
  have hlength : keys.length = w.keyCount := by
    simp only [keys, nodeIds, edgeIds, keyCount, List.length_append, List.length_map,
      List.length_range]
    omega
  calc {key | w.HasKey key}.ncard ≤ (keys.toFinset : Set FlowKey).ncard :=
        Set.ncard_le_ncard hkeys keys.toFinset.finite_toSet
    _ = keys.toFinset.card := Set.ncard_coe_finset _
    _ ≤ keys.length := keys.toFinset_card_le
    _ = w.keyCount := hlength

end Wiring

namespace Graph

variable {g h k : Graph}

/-- The keys whose evaluations stand in the journal, in order. -/
def noted (g : Graph) : List FlowKey :=
  notedIn g.journal

/-- From the first graph to the second, just the keys were evaluated whose evaluations were
noted. -/
structure Logs (g h : Graph) : Prop where
  wiring : h.wiring = g.wiring
  settings : h.settings = g.settings
  ledger : g.known.Logs g.wiring g.journal h.known h.journal

namespace Logs

theorem refl : Logs g g :=
  ⟨rfl, rfl, .refl rfl⟩

theorem trans (hgh : Logs g h) (hhk : Logs h k) : Logs g k := by
  refine ⟨hhk.wiring.trans hgh.wiring, hhk.settings.trans hgh.settings, hgh.ledger.trans ?_⟩
  have hrest := hhk.ledger
  rwa [hgh.wiring] at hrest

end Logs

theorem noted_note (event : Event) (h : event.evaluated? = none) :
    (g.note event).noted = g.noted := by
  rw [noted, note, notedIn_push, h]
  exact List.append_nil _

theorem noted_noteAll {events : List Event} (h : ∀ event ∈ events, event.evaluated? = none) :
    (g.noteAll events.toArray).noted = g.noted := by
  have hnone : notedIn events.toArray = [] := List.filterMap_eq_nil_iff.mpr h
  rw [noted, noteAll, notedIn_append, hnone]
  exact List.append_nil _

theorem evaluated?_of_mem_orphanEvents {event : Event} (h : event ∈ g.orphanEvents) :
    event.evaluated? = none := by
  rw [orphanEvents] at h
  split at h
  · cases h
  · obtain ⟨_, _, rfl⟩ := List.mem_map.mp h
    rfl

theorem evaluated?_of_mem_unreachableEvents {reach : Reachability} {event : Event}
    (h : event ∈ g.unreachableEvents reach) : event.evaluated? = none := by
  rw [unreachableEvents] at h
  split at h
  · cases h
  · obtain ⟨_, _, rfl⟩ := List.mem_map.mp h
    rfl

/-- Freezing notes no evaluations but those of resolving the edges. -/
theorem noted_freeze (hfrozen : g.frozen = none) : g.freeze.2.noted = g.settleAll.noted := by
  have hkept : ((g.settleAll.noteAll g.settleAll.orphanEvents.toArray).noteAll
      (g.settleAll.unreachableEvents g.settleAll.reachability).toArray).noted =
        g.settleAll.noted :=
    (noted_noteAll fun _ => evaluated?_of_mem_unreachableEvents).trans
      (noted_noteAll fun _ => evaluated?_of_mem_orphanEvents)
  rw [freeze, hfrozen]
  simp only
  rw [← settleAll]
  split
  · exact (noted_note (.frozen _ _ _) rfl).trans hkept
  · exact (noted_note (.freezeFailed _) rfl).trans hkept

theorem noted_sealWiring : g.sealWiring.noted = g.noted := by
  rw [sealWiring]
  cases g.ledger with
  | none => exact noted_note _ rfl
  | some ledger => rfl

theorem logs_sealWiring : Logs g g.sealWiring := by
  have hseal := progresses_sealWiring (g := g)
  refine ⟨hseal.wiring, hseal.settings, ?_⟩
  rw [known_sealWiring]
  exact .refl noted_sealWiring

section Traced

variable (htrace : g.settings.traceEvaluations = true)

include htrace

theorem demand_logs (hsettled : g.known.Settled g.wiring) (key : FlowKey) :
    Logs g (g.demand key).2 := by
  obtain ⟨keys, hnoted, heval⟩ := hsettled.demand_logs key
  rw [demand_eq, htrace]
  refine ⟨rfl, rfl, keys, ?_, heval⟩
  have hseal : notedIn g.sealWiring.journal = notedIn g.journal := noted_sealWiring
  rw [notedIn_append, hseal, hnoted]
  rfl

theorem demandEdges_logs (hsettled : g.known.Settled g.wiring) (errors : List ResolveError)
    (edges : List EdgeId) : Logs g (g.demandEdges errors edges).2 := by
  induction edges generalizing g errors with
  | nil => exact .refl
  | cons e rest ih =>
      have hfirst := demand_logs htrace hsettled (.edge e)
      have hsettled' := (demand_spec hsettled (.edge e)).2.1
      rw [demandEdges_cons]
      exact hfirst.trans (ih (hfirst.settings ▸ htrace) hsettled' _)

theorem settleAll_logs (hsettled : g.known.Settled g.wiring) : Logs g g.settleAll := by
  have hseal := logs_sealWiring (g := g)
  exact hseal.trans
    (demandEdges_logs (hseal.settings ▸ htrace) (settled_sealWiring hsettled) _ _)

end Traced

namespace Sound

/-- What a request evaluates is what it notes. -/
theorem call_logs (hg : g.Sound) (htrace : g.settings.traceEvaluations = true) (c : Call) :
    Logs g (g.call c) := by
  cases c with
  | resolve e =>
      by_cases he : g.wiring.HasKey (.edge e)
      · rw [Graph.call, resolve_of_hasKey he]
        exact demand_logs htrace hg.settled _
      · rw [Graph.call, resolve_of_not_hasKey he]
        exact .refl
  | resolveAll => exact demandEdges_logs htrace hg.settled _ _
  | freeze =>
      cases hfrozen : g.frozen with
      | some bound =>
          rw [Graph.call, freeze_of_frozen hfrozen]
          exact .refl
      | none =>
          have hsettle := settleAll_logs htrace hg.settled
          have hnoted : notedIn g.freeze.2.journal = notedIn g.settleAll.journal :=
            noted_freeze hfrozen
          obtain ⟨_, journal, hfreeze⟩ := freeze_eq hg.settled hfrozen
          rw [Graph.call]
          rw [hfreeze] at hnoted ⊢
          generalize g.settleAll = s at hsettle hnoted
          exact hsettle.trans ⟨rfl, rfl, .refl hnoted⟩

theorem calls_logs (hg : g.Sound) (htrace : g.settings.traceEvaluations = true)
    (requests : List Call) : Logs g (g.calls requests) := by
  induction requests generalizing g with
  | nil => exact .refl
  | cons first rest ih =>
      have hfirst := hg.call_logs htrace first
      exact hfirst.trans (ih (hg.call first).2 (hfirst.settings ▸ htrace))

/-- A key that was settled keeps what is known of it, whatever is requested. -/
theorem entry_serves (hg : g.Sound) (later : List Request) {key : FlowKey}
    (hkey : g.wiring.HasKey key) (hterminal : (g.entry key).isTerminal = true) :
    (g.serves later).entry key = g.entry key := by
  induction later generalizing g with
  | nil => rfl
  | cons first rest ih =>
      obtain ⟨hsound, hextends, hkeeps⟩ := hg.serve first
      have hfirst := hkeeps key hkey hterminal
      have hrest := ih hsound (hextends.hasKey hkey) (hfirst ▸ hterminal)
      exact hrest.trans hfirst

/-- There are no more evaluations than keys. -/
theorem evaluations_le (hg : g.Sound) : g.evaluations ≤ g.wiring.keyCount := by
  rw [evaluations_eq, hg.settled.counted]
  have hsub : g.known.memo.evaluated g.wiring ⊆ {key | g.wiring.HasKey key} := fun _ h => h.1
  exact (Set.ncard_le_ncard hsub g.wiring.finite_hasKey).trans g.wiring.ncard_hasKey_le

end Sound

/-- What is known of a settled key stays, and a demand for it answers that and does nothing. -/
structure Final (g : Graph) (key : FlowKey) : Prop where
  kept : ∀ later : List Request, (g.serves later).entry key = g.entry key
  resolved : ∀ values, g.entry key = .resolved values → g.demand key = (.ok (), g)
  failed : ∀ error, g.entry key = .failed error → g.demand key = (.error error, g)

theorem Sound.final (hg : g.Sound) {key : FlowKey} (hkey : g.wiring.HasKey key)
    (hterminal : (g.entry key).isTerminal = true) : g.Final key := by
  have hstay := demand_of_isTerminal (isSealed_of_isTerminal hkey hterminal) hterminal
  have hanswer := (demand_spec hg.settled key).2.2
  rw [hstay] at hanswer
  refine ⟨fun later => hg.entry_serves later hkey hterminal, fun values hentry => ?_,
    fun error hentry => ?_⟩
  · rcases hanswer with ⟨hok, _⟩ | ⟨error, _, hfailed⟩
    · exact Prod.ext hok hstay
    · rw [hentry] at hfailed
      cases hfailed
  · rcases hanswer with ⟨_, values, hresolved⟩ | ⟨found, hfound, hfailed⟩
    · rw [hentry] at hresolved
      cases hresolved
    · rw [hentry] at hfailed
      cases hfailed
      exact Prod.ext hfound hstay

/-- Resolving a settled edge answers what is known of it and does nothing. -/
structure Repeats (g : Graph) (e : EdgeId) : Prop where
  resolved : g.progress (.edge e) = .resolved →
    ∃ value, g.resolved? e = some value ∧ g.resolve e = (.ok value, g)
  failed : g.progress (.edge e) = .failed →
    ∃ error, g.failure? e = some error ∧ g.resolve e = (.error (.resolve error), g)

theorem Sound.repeats (hg : g.Sound) {e : EdgeId} (he : g.wiring.HasKey (.edge e)) :
    g.Repeats e := by
  have hedge : g.edge e = .ok g.wiring.edges[e.index] := by
    rw [edge, Wiring.edge?, Array.getElem?_eq_getElem he]
  constructor
  · intro hprogress
    rw [progress_eq he] at hprogress
    obtain ⟨values, hentry⟩ := Entry.progress_eq_resolved_iff.mp hprogress
    obtain ⟨value, rfl⟩ := (hg.settled.consistent.yields hentry).edge_singleton
    have hvalue : g.resolved? e = some value := by
      rw [resolved?_eq he, hentry]
      rfl
    have hdemand := (hg.final he (by rw [hentry]; rfl)).resolved _ hentry
    refine ⟨value, hvalue, ?_⟩
    simp only [resolve, hedge, hdemand, hvalue]
  · intro hprogress
    rw [progress_eq he] at hprogress
    obtain ⟨error, hentry⟩ := Entry.progress_eq_failed_iff.mp hprogress
    have hdemand := (hg.final he (by rw [hentry]; rfl)).failed _ hentry
    refine ⟨error, (failure?_eq he).trans (Entry.failure?_eq_some_iff.mpr hentry), ?_⟩
    simp only [resolve, hedge, hdemand]

/-- From the first graph to the second just these keys were evaluated, each once: they are all
different, were not settled before and are settled then, and are as many as was counted. -/
structure EvaluatesOnce (g h : Graph) (keys : List FlowKey) : Prop where
  nodup : keys.Nodup
  fresh : ∀ key ∈ keys, g.wiring.HasKey key ∧ (g.entry key).isTerminal = false ∧
    (h.entry key).isTerminal = true
  counted : h.evaluations = g.evaluations + keys.length

/-- Noting every evaluation changes nothing else, and shows that no key is evaluated twice, whatever
is requested.  So there are no more evaluations than keys; and what is settled is final. -/
theorem evaluated_once (hg : g.Reachable) (requests : List Call) :
    (g.watched.calls requests).ledger = (g.calls requests).ledger ∧
      g.EvaluatesOnce (g.calls requests) (g.watched.calls requests).noted ∧
      (g.isSealed = false → g.evaluations = 0) ∧
      (g.calls requests).evaluations ≤ 2 * g.wiring.slots.size + g.wiring.edges.size ∧
      (∀ key, g.wiring.HasKey key → (g.entry key).isTerminal = true → g.Final key) ∧
      ∀ e, g.wiring.HasKey (.edge e) → g.Repeats e := by
  have hsound := hg.sound
  have hwatched := hsound.watched
  have halike := (alike_watched g).calls hwatched hsound requests
  obtain ⟨hprogress, hafter, _⟩ := hsound.calls requests
  obtain ⟨keys, hnoted, heval⟩ := (hwatched.calls_logs rfl requests).ledger
  have hkeys : (g.watched.calls requests).noted = keys := hnoted
  have hknown : (g.watched.calls requests).known = (g.calls requests).known := by
    rw [known, known, halike.ledger, halike.wiring]
  have hbefore : g.watched.known = g.known := rfl
  have hwiring : g.watched.wiring = g.wiring := rfl
  rw [hknown, hbefore, hwiring] at heval
  rw [hkeys]
  refine ⟨halike.ledger, ⟨heval.nodup, fun key hkey => ?fresh, ?counted⟩, fun hopen => ?blank,
    ?bound, fun key => hsound.final, fun e => hsound.repeats⟩
  case fresh =>
    obtain ⟨⟨hexists, hterminal, hready⟩, hnot⟩ := heval.fresh key hkey
    refine ⟨hexists, ?_, hterminal⟩
    cases hold : (g.entry key).isTerminal with
    | false => rfl
    | true => exact absurd ⟨hexists, hold, hready⟩ hnot
  case counted =>
    rw [evaluations_eq, evaluations_eq]
    exact heval.counted
  case blank =>
    have hledger : g.ledger = none := by simpa [isSealed] using hopen
    rw [evaluations, hledger]
  case bound =>
    have hle := hafter.evaluations_le
    rwa [hprogress.wiring] at hle

/-- The edge of the line and the two values that meet on it are evaluated once, however often they
are asked for; once settled, the edge is final. -/
theorem line_evaluated_once :
    line.Reachable ∧ line.isSealed = false ∧
      line.EvaluatesOnce (line.calls [.resolve ⟨0⟩, .freeze, .resolveAll, .resolve ⟨0⟩])
        (line.watched.calls [.resolve ⟨0⟩, .freeze, .resolveAll, .resolve ⟨0⟩]).noted ∧
      line.evaluations = 0 ∧
      (line.call (.resolve ⟨0⟩)).wiring.HasKey (.edge ⟨0⟩) ∧
      ((line.call (.resolve ⟨0⟩)).entry (.edge ⟨0⟩)).isTerminal = true ∧
      (line.call (.resolve ⟨0⟩)).Final (.edge ⟨0⟩) ∧ (line.call (.resolve ⟨0⟩)).Repeats ⟨0⟩ := by
  have hline : line.Reachable := reachable_after _ _
  have hopen : line.isSealed = false := by decide
  have hlater : (line.call (.resolve ⟨0⟩)).Reachable := hline.serve (.call (.resolve ⟨0⟩))
  have hedge : (line.call (.resolve ⟨0⟩)).wiring.HasKey (.edge ⟨0⟩) := hasKey_iff.mp (by decide)
  have hterminal : ((line.call (.resolve ⟨0⟩)).entry (.edge ⟨0⟩)).isTerminal = true := by decide
  obtain ⟨_, honce, hblank, _⟩ :=
    evaluated_once hline [.resolve ⟨0⟩, .freeze, .resolveAll, .resolve ⟨0⟩]
  obtain ⟨_, _, _, _, hfinal, hrepeats⟩ := evaluated_once hlater []
  exact ⟨hline, hopen, honce, hblank hopen, hedge, hterminal, hfinal _ hedge hterminal,
    hrepeats _ hedge⟩

/-- The downward values are evaluated first, then the upward values, then the edge. -/
example : (line.watched.calls [.resolve ⟨0⟩, .resolveAll]).noted =
    [.down ⟨0⟩, .up ⟨1⟩, .edge ⟨0⟩] := by
  decide

end Graph

end Negotiation
