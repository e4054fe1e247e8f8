import Mathlib.Data.Sum.Basic
import Negotiation.Proofs.Attachment
import Negotiation.Proofs.Termination

/-!
Two walks in step.

Where two wirings agree on a set of keys that need one another only (`Wiring.Coincides`), walks that
stay among these keys keep in step: each step of one is answered by the same step of the other
(`Walk.InStep.step`), so they end alike (`Walk.InStep.run`).  Where no other key needs one of the
set either, a demand for another key leaves the set as it is, and whole runs of requests know the
same of it (`Graph.calls_agreesOn`).
-/

namespace Negotiation

open Relation

namespace Memo

/-- The memos show the same of these keys. -/
def AgreesOn (keys : Set FlowKey) (left right : Memo) : Prop :=
  ∀ key ∈ keys, left.get? key = right.get? key

namespace AgreesOn

variable {keys : Set FlowKey} {left right third : Memo}

theorem refl (keys : Set FlowKey) (memo : Memo) : AgreesOn keys memo memo :=
  fun _ _ => rfl

theorem symm (h : AgreesOn keys left right) : AgreesOn keys right left :=
  fun key hkey => (h key hkey).symm

theorem trans (h : AgreesOn keys left right) (h' : AgreesOn keys right third) :
    AgreesOn keys left third :=
  fun key hkey => (h key hkey).trans (h' key hkey)

theorem get (h : AgreesOn keys left right) {key : FlowKey} (hkey : key ∈ keys) :
    left.get key = right.get key := by
  rw [Memo.get, Memo.get, h key hkey]

theorem set (h : AgreesOn keys left right) (written : FlowKey) (entry : Entry) :
    AgreesOn keys (left.set written entry) (right.set written entry) := by
  intro key hkey
  rw [get?_set, get?_set, h key hkey]
  by_cases hsame : key = written
  · subst hsame
    rw [h key hkey]
  · rw [if_neg hsame, if_neg hsame]

theorem setAll (h : AgreesOn keys left right) (written : List FlowKey) (entry : Entry) :
    AgreesOn keys (left.setAll written entry) (right.setAll written entry) := by
  induction written generalizing left right with
  | nil => exact h
  | cons first rest ih => exact ih (h.set first entry)

end AgreesOn

/-- Memos that cover the same of these keys agree on them if they have the same entries. -/
theorem agreesOn_of_get {keys : Set FlowKey} {left right : Memo}
    (hcovers : ∀ key ∈ keys, (left.Covers key ↔ right.Covers key))
    (hget : ∀ key ∈ keys, left.get key = right.get key) : AgreesOn keys left right := by
  intro key hkey
  have hboth := hcovers key hkey
  have hentry := hget key hkey
  rw [Covers, Covers] at hboth
  rw [Memo.get, Memo.get] at hentry
  cases hleft : left.get? key with
  | none =>
      rw [hleft] at hboth
      cases hright : right.get? key with
      | none => rfl
      | some other =>
          rw [hright] at hboth
          cases hboth.mpr rfl
  | some entry =>
      rw [hleft] at hboth hentry
      cases hright : right.get? key with
      | none =>
          rw [hright] at hboth
          cases hboth.mp rfl
      | some other =>
          rw [hright] at hentry
          exact congrArg some hentry

end Memo

namespace Blocker

/-- Memos that show the same of the dependencies show the same in the way. -/
theorem find?_congr {left right : Memo} {dependencies : List FlowKey}
    (h : ∀ dependency ∈ dependencies, left.get dependency = right.get dependency) :
    find? left dependencies = find? right dependencies := by
  induction dependencies with
  | nil => rfl
  | cons first rest ih =>
      obtain ⟨hfirst, hrest⟩ := List.forall_mem_cons.mp h
      have htail := ih hrest
      simp only [find?] at htail ⊢
      rw [List.findSome?_cons, List.findSome?_cons, hfirst, htail]

end Blocker

/-- These keys need one another only, and in both wirings each of them needs the same and comes to
the same. -/
structure Wiring.Coincides (keys : Set FlowKey) (w v : Wiring) : Prop where
  closed : ∀ {key dependency}, key ∈ keys → w.Needs key dependency → dependency ∈ keys
  dependencies : ∀ {key}, key ∈ keys → w.dependencies key = v.dependencies key
  evaluate : ∀ {key}, key ∈ keys → ∀ memo, w.evaluate memo key = v.evaluate memo key

theorem Wiring.Coincides.refl {keys : Set FlowKey} {w : Wiring}
    (hclosed : ∀ {key dependency}, key ∈ keys → w.Needs key dependency → dependency ∈ keys) :
    Coincides keys w w :=
  ⟨hclosed, fun _ => rfl, fun _ _ => rfl⟩

/-- The walks have the same pile, of these keys, and know the same of them. -/
structure Walk.InStep (keys : Set FlowKey) (left right : Walk) : Prop where
  pile : left.pile = right.pile
  inside : ∀ key ∈ left.pile, key ∈ keys
  memo : left.ledger.memo.AgreesOn keys right.ledger.memo

/-- The walks have come to the same end, and know the same of these keys. -/
structure Arrival.InStep (keys : Set FlowKey) (left right : Arrival) : Prop where
  result : left.result = right.result
  memo : left.ledger.memo.AgreesOn keys right.ledger.memo

namespace Walk

variable {keys : Set FlowKey} {w v : Wiring} {left right : Walk}

namespace InStep

theorem push (h : InStep keys left right) {key : FlowKey} (hkey : key ∈ keys) :
    InStep keys (left.push key) (right.push key) := by
  refine ⟨congrArg (key :: ·) h.pile, ?_, h.memo.set key .resolving⟩
  intro other hother
  rcases List.mem_cons.mp hother with rfl | hmem
  · exact hkey
  · exact h.inside other hmem

theorem fail (h : InStep keys left right) (error : ResolveError) :
    Arrival.InStep keys (left.fail error) (right.fail error) := by
  refine ⟨rfl, ?_⟩
  simp only [Walk.fail, h.pile]
  exact h.memo.setAll _ _

theorem evaluate (h : InStep keys left right) (hsame : w.Coincides keys v) {top : FlowKey}
    {below : List FlowKey} (hpile : left.pile = top :: below) (trace trace' : Bool) :
    Sum.LiftRel (InStep keys) (Arrival.InStep keys) (left.evaluate w trace top below)
      (right.evaluate v trace' top below) := by
  have htop : top ∈ keys := h.inside top (hpile ▸ List.mem_cons_self)
  have hvalues : w.evaluate left.ledger.memo top = v.evaluate right.ledger.memo top := by
    rw [← hsame.evaluate htop]
    apply Wiring.evaluate_congr
    intro dependency hd
    rw [Memo.values?, Memo.values?, h.memo.get (hsame.closed htop hd)]
  simp only [Walk.evaluate, hvalues]
  cases v.evaluate right.ledger.memo top with
  | error error =>
      -- What was counted and noted meanwhile is not compared.
      have hcounted : InStep keys
          { left with ledger := { left.ledger with evaluations := left.ledger.evaluations + 1 },
                      events := left.events.appendList (announce trace top) }
          { right with ledger := { right.ledger with evaluations := right.ledger.evaluations + 1 },
                       events := right.events.appendList (announce trace' top) } :=
        ⟨h.pile, h.inside, h.memo⟩
      exact .inr (hcounted.fail error)
  | ok values =>
      refine .inl ⟨rfl, ?_, h.memo.set top (.resolved values)⟩
      intro key hkey
      exact h.inside key (hpile ▸ List.mem_cons_of_mem _ hkey)

/-- One step of each walk leaves them in step, or ends both alike. -/
theorem step (h : InStep keys left right) (hsame : w.Coincides keys v) (trace trace' : Bool) :
    Sum.LiftRel (InStep keys) (Arrival.InStep keys) (left.step w trace) (right.step v trace') := by
  cases hpile : left.pile with
  | nil =>
      have hpile' : right.pile = [] := h.pile ▸ hpile
      simp only [Walk.step, hpile, hpile']
      exact .inr ⟨rfl, h.memo⟩
  | cons top below =>
      have hpile' : right.pile = top :: below := h.pile ▸ hpile
      have htop : top ∈ keys := h.inside top (hpile ▸ List.mem_cons_self)
      have hfind : Blocker.find? left.ledger.memo (w.dependencies top) =
          Blocker.find? right.ledger.memo (v.dependencies top) := by
        rw [← hsame.dependencies htop]
        apply Blocker.find?_congr
        intro dependency hd
        exact h.memo.get (hsame.closed htop hd)
      simp only [Walk.step, hpile, hpile']
      cases hblocker : Blocker.find? left.ledger.memo (w.dependencies top) with
      | none =>
          rw [← hfind, hblocker]
          exact h.evaluate hsame hpile trace trace'
      | some blocker =>
          rw [← hfind, hblocker]
          cases blocker with
          | fresh dependency =>
              have hneeds := (get_eq_unresolved_of_find? hblocker).2
              exact .inl (h.push (hsame.closed htop hneeds))
          | inProgress dependency => exact .inr (h.fail _)
          | failed error => exact .inr (h.fail error)

/-- However many steps both walks take, they are in step or have ended alike. -/
theorem run (h : InStep keys left right) (hsame : w.Coincides keys v) (trace trace' : Bool)
    (n : Nat) :
    Sum.LiftRel (InStep keys) (Arrival.InStep keys) (Walk.run w trace n left)
      (Walk.run v trace' n right) := by
  induction n generalizing left right with
  | zero => exact .inl h
  | succ n ih =>
      have hstep := h.step hsame trace trace'
      rw [Walk.run, Walk.run]
      cases hleft : left.step w trace with
      | inl next =>
          cases hright : right.step v trace' with
          | inl other =>
              rw [hleft, hright] at hstep
              exact ih (Sum.liftRel_inl_inl.mp hstep)
          | inr last =>
              rw [hleft, hright] at hstep
              cases hstep
      | inr arrival =>
          cases hright : right.step v trace' with
          | inl other =>
              rw [hleft, hright] at hstep
              cases hstep
          | inr last =>
              rw [hleft, hright] at hstep
              exact hstep

end InStep

theorem inStep_toEnd {ledger other : Ledger} (hsame : w.Coincides keys v)
    (hmemo : ledger.memo.AgreesOn keys other.memo) {key : FlowKey} (hkey : key ∈ keys)
    (trace trace' : Bool) :
    Arrival.InStep keys (toEnd w trace ledger key) (toEnd v trace' other key) := by
  have hstart : InStep keys (start ledger key) (start other key) := by
    refine ⟨rfl, ?_, hmemo.set key .resolving⟩
    intro single hsingle
    rw [List.mem_singleton.mp hsingle]
    exact hkey
  -- The walks may be allowed different numbers of steps; the larger number ends both.
  have hrun := hstart.run hsame trace trace'
    (max (horizon ledger.memo.size) (horizon other.memo.size))
  rw [run_eq_toEnd (Nat.lt_of_lt_of_le (measure_start_lt_horizon ledger key) (Nat.le_max_left _ _)),
    run_eq_toEnd (Nat.lt_of_lt_of_le (measure_start_lt_horizon other key) (Nat.le_max_right _ _))]
    at hrun
  exact Sum.liftRel_inr_inr.mp hrun

end Walk

/-- Demands for one of the keys end alike. -/
theorem Ledger.inStep_demand {keys : Set FlowKey} {w v : Wiring} {ledger other : Ledger}
    (hsame : w.Coincides keys v) (hmemo : ledger.memo.AgreesOn keys other.memo) {key : FlowKey}
    (hkey : key ∈ keys) (trace trace' : Bool) :
    Arrival.InStep keys (ledger.demand w trace key) (other.demand v trace' key) := by
  have hget := hmemo.get hkey
  rw [demand, demand, ← hget]
  cases ledger.memo.get key with
  | resolved values => exact ⟨rfl, hmemo⟩
  | failed error => exact ⟨rfl, hmemo⟩
  | unresolved => exact Walk.inStep_toEnd hsame hmemo hkey trace trace'
  | resolving => exact Walk.inStep_toEnd hsame hmemo hkey trace trace'

/-- None of these keys needs another key, and no other key needs one of them. -/
def Wiring.Isolates (w : Wiring) (keys : Set FlowKey) : Prop :=
  ∀ {key dependency}, w.Needs key dependency → (key ∈ keys ↔ dependency ∈ keys)

theorem Wiring.Isolates.not_mem {keys : Set FlowKey} {w : Wiring} (h : w.Isolates keys)
    {key touched : FlowKey} (hkey : key ∉ keys) (hpath : ReflTransGen w.Touches key touched) :
    touched ∉ keys := by
  induction hpath with
  | refl => exact hkey
  | tail _ hstep ih => exact mt (h hstep.needs).mpr ih

/-- A demand for a key apart from them leaves isolated keys as they are. -/
theorem Ledger.Settled.agreesOn_demand {keys : Set FlowKey} {w : Wiring} {ledger : Ledger}
    (h : ledger.Settled w) (hisolated : w.Isolates keys) {key : FlowKey} (hkey : key ∉ keys)
    (trace : Bool) : (ledger.demand w trace key).ledger.memo.AgreesOn keys ledger.memo := by
  have hlands := h.demand trace key
  apply Memo.agreesOn_of_get
  · intro other _
    exact (hlands.settled.consistent.covers other).trans (h.consistent.covers other).symm
  · intro other hother
    cases hopen : (ledger.memo.get other).isTerminal with
    | true => exact hlands.reaches.keeps other hopen
    | false =>
        have hstill : ((ledger.demand w trace key).ledger.memo.get other).isTerminal = false := by
          apply Bool.eq_false_of_not_eq_true
          intro hterminal
          rcases hlands.reaches.within other hterminal with hbefore | hpath
          · rw [hopen] at hbefore
            cases hbefore
          · exact hisolated.not_mem hkey hpath hother
        rw [h.get_eq_unresolved hopen, hlands.settled.get_eq_unresolved hstill]

/-- The keys that a request demands, in order. -/
def Wiring.asked (w : Wiring) : Call → List FlowKey
  | .resolve e => if e ∈ w.edgeIds then [.edge e] else []
  | .resolveAll | .freeze => w.edgeIds.map .edge

/-- Of the keys that a request demands, those that two wirings share are the same. -/
theorem Wiring.filter_asked_eq {keys : Set FlowKey} [DecidablePred (· ∈ keys)] {w v : Wiring}
    (h : ∀ e, .edge e ∈ keys → (w.HasKey (.edge e) ↔ v.HasKey (.edge e))) (c : Call) :
    (w.asked c).filter (· ∈ keys) = (v.asked c).filter (· ∈ keys) := by
  have hids : ∀ e, .edge e ∈ keys → (e ∈ w.edgeIds ↔ e ∈ v.edgeIds) := by
    intro e he
    rw [Graph.mem_edgeIds, Graph.mem_edgeIds, h e he]
  have hascending : ∀ u : Wiring, u.edgeIds.Pairwise EdgeId.Before := by
    intro u
    rw [edgeIds, List.range_eq_range']
    exact EdgeId.pairwise_before_range' 0 _
  have hall : (w.edgeIds.map FlowKey.edge).filter (· ∈ keys) =
      (v.edgeIds.map FlowKey.edge).filter (· ∈ keys) := by
    rw [List.filter_map, List.filter_map]
    apply congrArg
    apply EdgeId.eq_of_perm ((hascending w).filter _) ((hascending v).filter _)
    apply (List.perm_ext_iff_of_nodup (((hascending w).filter _).imp EdgeId.Before.ne)
      (((hascending v).filter _).imp EdgeId.Before.ne)).mpr
    intro e
    rw [List.mem_filter, List.mem_filter]
    apply and_congr_left
    intro he
    exact hids e (by simpa using he)
  cases c with
  | resolve e =>
      by_cases he : FlowKey.edge e ∈ keys
      · simp only [asked, hids e he]
      · have hnone : ∀ u : Wiring, (u.asked (.resolve e)).filter (· ∈ keys) = [] := by
          intro u
          rw [asked]
          split
          · simp [he]
          · rfl
        rw [hnone, hnone]
  | resolveAll => exact hall
  | freeze => exact hall

namespace Graph

variable {g h : Graph}

theorem demandEdges_eq_demands (errors : List ResolveError) (edges : List EdgeId) :
    (g.demandEdges errors edges).2 = g.demands (edges.map .edge) := by
  induction edges generalizing g errors with
  | nil => rfl
  | cons e rest ih =>
      rw [demandEdges_cons]
      exact ih _

theorem known_demands_sealWiring (g : Graph) (keys : List FlowKey) :
    (g.sealWiring.demands keys).known = (g.demands keys).known := by
  have hseal : g.sealWiring.sealWiring = g.sealWiring := by
    rw [sealWiring, sealWiring_ledger]
  cases keys with
  | nil => exact known_sealWiring g
  | cons first rest =>
      have hfirst : g.sealWiring.demand first = g.demand first := by
        rw [demand, demand, hseal]
      rw [demands, demands, List.foldl_cons, List.foldl_cons, hfirst]

/-- What is known after a request is what demands for its keys make known. -/
theorem Sound.known_call (hg : g.Sound) (c : Call) :
    (g.call c).known = (g.demands (g.wiring.asked c)).known := by
  cases c with
  | resolve e =>
      rw [Graph.call, Wiring.asked]
      by_cases he : g.wiring.HasKey (.edge e)
      · rw [if_pos (mem_edgeIds.mpr he), resolve_of_hasKey he]
        rfl
      · rw [if_neg (mt mem_edgeIds.mp he), resolve_of_not_hasKey he]
        rfl
  | resolveAll => rw [Graph.call, resolveAll, demandEdges_eq_demands, Wiring.asked]
  | freeze =>
      rw [Graph.call, Wiring.asked]
      cases hfrozen : g.frozen with
      | some bound =>
          obtain ⟨hsealed, hcomplete, _⟩ := hg.handedOut hfrozen
          have hstay : (g.demandEdges [] g.wiring.edgeIds).2 = g :=
            demandEdges_of_isTerminal hsealed (fun e he => hcomplete e (mem_edgeIds.mp he)) []
          rw [freeze_of_frozen hfrozen, ← demandEdges_eq_demands [], hstay]
      | none =>
          obtain ⟨_, journal, hfreeze⟩ := freeze_eq hg.settled hfrozen
          have hwiring : g.sealWiring.wiring = g.wiring := progresses_sealWiring.wiring
          have hsettle : g.settleAll.known = (g.demands (g.wiring.edgeIds.map .edge)).known := by
            rw [settleAll, resolveAll, demandEdges_eq_demands, hwiring, known_demands_sealWiring]
          rw [hfreeze, ← hsettle]
          generalize g.settleAll = settled
          rfl

variable {keys : Set FlowKey} [DecidablePred (· ∈ keys)]

/-- Demands for other keys may be left out. -/
theorem demands_agreesOn (hg : g.known.Settled g.wiring) (hh : h.known.Settled h.wiring)
    (hsame : g.wiring.Coincides keys h.wiring) (hisolated : g.wiring.Isolates keys)
    (hmemo : g.known.memo.AgreesOn keys h.known.memo) (asked : List FlowKey) :
    (g.demands asked).known.memo.AgreesOn keys
      (h.demands (asked.filter (· ∈ keys))).known.memo := by
  induction asked generalizing g h with
  | nil => exact hmemo
  | cons key rest ih =>
      obtain ⟨hprogress, hg', _⟩ := demand_spec hg key
      have hsame' : (g.demand key).2.wiring.Coincides keys h.wiring := hprogress.wiring ▸ hsame
      have hisolated' : (g.demand key).2.wiring.Isolates keys := hprogress.wiring ▸ hisolated
      by_cases hkey : key ∈ keys
      · rw [List.filter_cons_of_pos (by simpa using hkey)]
        obtain ⟨hprogress', hh', _⟩ := demand_spec hh key
        have hboth := Ledger.inStep_demand hsame hmemo hkey g.settings.traceEvaluations
          h.settings.traceEvaluations
        have hnext : (g.demand key).2.known.memo.AgreesOn keys (h.demand key).2.known.memo := by
          rw [demand_eq, demand_eq]
          exact hboth.memo
        exact ih hg' hh' (hprogress'.wiring ▸ hsame') hisolated' hnext
      · rw [List.filter_cons_of_neg (by simpa using hkey)]
        have hstays : (g.demand key).2.known.memo.AgreesOn keys g.known.memo := by
          rw [demand_eq]
          exact hg.agreesOn_demand hisolated hkey _
        exact ih hg' hh hsame' hisolated' (hstays.trans hmemo)

/-- The same requests to two graphs leave them knowing the same of keys that both isolate and on
which they coincide, if they did before. -/
theorem calls_agreesOn (hg : g.Sound) (hh : h.Sound) (hsame : g.wiring.Coincides keys h.wiring)
    (hleft : g.wiring.Isolates keys) (hright : h.wiring.Isolates keys)
    (hshared : ∀ e, .edge e ∈ keys → (g.wiring.HasKey (.edge e) ↔ h.wiring.HasKey (.edge e)))
    (hmemo : g.known.memo.AgreesOn keys h.known.memo) (requests : List Call) :
    (g.calls requests).known.memo.AgreesOn keys (h.calls requests).known.memo := by
  induction requests generalizing g h with
  | nil => exact hmemo
  | cons c rest ih =>
      obtain ⟨hprogress, hg'⟩ := hg.call c
      obtain ⟨hprogress', hh'⟩ := hh.call c
      have hself : h.wiring.Coincides keys h.wiring := .refl fun hkey hneeds =>
        (hright hneeds).mp hkey
      have hone := demands_agreesOn hg.settled hh.settled hsame hleft hmemo (g.wiring.asked c)
      have hother := demands_agreesOn hh.settled hh.settled hself hright (.refl _ _)
        (h.wiring.asked c)
      rw [Wiring.filter_asked_eq hshared] at hone
      have hnext : (g.call c).known.memo.AgreesOn keys (h.call c).known.memo := by
        rw [hg.known_call, hh.known_call]
        exact hone.trans hother.symm
      apply ih hg' hh' _ _ _ _ hnext
      · rw [hprogress.wiring, hprogress'.wiring]
        exact hsame
      · rw [hprogress.wiring]
        exact hleft
      · rw [hprogress'.wiring]
        exact hright
      · rw [hprogress.wiring, hprogress'.wiring]
        exact hshared

end Graph

end Negotiation
