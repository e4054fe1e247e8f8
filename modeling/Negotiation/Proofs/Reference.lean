import Negotiation.Proofs.Requests

/-!
Demand computes what plain recursion computes.

`Wiring.reference` evaluates a key by evaluating its dependencies first, in order, and remembers
nothing.  It comes to an end on a key from which no circle of dependencies can be reached, and
whatever is already known, a demand gives its result (`Graph.demand_eq_reference`).
-/

namespace Negotiation

open Relation

/-- The entry of a key that came to this outcome. -/
def Entry.ofOutcome : Except ResolveError (List Parameter) → Entry
  | .ok values => .resolved values
  | .error error => .failed error

/-- A memo that shows the values of some keys and nothing else. -/
def Memo.showing (w : Wiring) (found : List (FlowKey × List Parameter)) : Memo :=
  found.foldl (fun memo entry => memo.set entry.1 (.resolved entry.2))
    (.blank w.slots.size w.edges.size)

namespace Wiring

/-- No circle of dependencies can be reached from the key. -/
def Grounded (w : Wiring) (key : FlowKey) : Prop :=
  ∀ k, ReflTransGen w.Needs key k → ¬ TransGen w.Needs k k

/-- The key and what it depends on, directly or not. -/
def downstream (w : Wiring) (key : FlowKey) : Set FlowKey :=
  {k | w.HasKey k ∧ ReflTransGen w.Needs key k}

namespace Grounded

variable {w : Wiring} {key dependency : FlowKey}

theorem of_needs (h : w.Grounded key) (hneeds : w.Needs key dependency) : w.Grounded dependency :=
  fun k hpath => h k (.head hneeds hpath)

theorem ncard_downstream_lt (h : w.Grounded key) (hneeds : w.Needs key dependency) :
    (w.downstream dependency).ncard < (w.downstream key).ncard := by
  refine Set.ncard_lt_ncard ⟨fun k hk => ⟨hk.1, .head hneeds hk.2⟩, fun hsubset => ?_⟩
    (w.finite_hasKey.subset fun k hk => hk.1)
  -- A key that has a dependency exists, and this one would depend on itself.
  have hself : key ∈ w.downstream key := ⟨hasKey_of_needs hneeds, .refl⟩
  exact h key .refl (.head' hneeds (hsubset hself).2)

end Grounded

theorem Resolvable.grounded {w : Wiring} {key : FlowKey} (h : w.Resolvable key) :
    w.Grounded key := by
  intro k hpath
  rcases reflTransGen_iff_eq_or_transGen.mp hpath with rfl | htrans
  · exact h.not_transGen_self
  · exact (h.of_transGen htrans).not_transGen_self

/-- Evaluate the dependencies of a key, one after another up to the first that fails, and then the
key from their values. -/
def reference (w : Wiring) (key : FlowKey) (h : w.Grounded key) :
    Except ResolveError (List Parameter) := do
  let found ← (w.dependencies key).attach.mapM fun ⟨dependency, hneeds⟩ => do
    let values ← w.reference dependency (h.of_needs hneeds)
    return (dependency, values)
  w.evaluate (.showing w found) key
termination_by (w.downstream key).ncard
decreasing_by exact h.ncard_downstream_lt hneeds

end Wiring

namespace Memo

variable {w : Wiring}

theorem get_showing {keys : List FlowKey} {values : FlowKey → List Parameter} {key : FlowKey}
    (hkeys : ∀ k ∈ keys, w.HasKey k) (hkey : key ∈ keys) :
    (showing w (keys.map fun k => (k, values k))).get key = .resolved (values key) := by
  have hfold : ∀ (ks : List FlowKey) (memo : Memo), (∀ k ∈ ks, memo.Covers k) →
      (key ∈ ks ∨ memo.get key = .resolved (values key)) →
      ((ks.map fun k => (k, values k)).foldl
        (fun memo entry => memo.set entry.1 (.resolved entry.2)) memo).get key =
          .resolved (values key) := by
    intro ks
    induction ks with
    | nil => exact fun memo _ h => h.resolve_left List.not_mem_nil
    | cons first rest ih =>
        intro memo hcovers h
        refine ih _ (fun k hk => (covers_set memo first k _).mpr
          (hcovers k (List.mem_cons_of_mem _ hk))) ?_
        by_cases hfirst : key = first
        · subst hfirst
          exact Or.inr (get_set_self _ (hcovers key List.mem_cons_self))
        · rcases h with hmem | hget
          · exact Or.inl ((List.mem_cons.mp hmem).resolve_left hfirst)
          · exact Or.inr ((get_set_ne memo _ hfirst).trans hget)
  exact hfold keys _ (fun k hk => covers_blank_iff.mpr (hkeys k hk)) (Or.inl hkey)

end Memo

namespace Wiring

variable {w : Wiring}

theorem Yields.hasKey {key : FlowKey} {values : List Parameter} (h : w.Yields key values) :
    w.HasKey key := by
  refine Classical.byContradiction fun hnot => ?_
  cases h with
  | evaluated memo _ _ _ result =>
      rw [evaluate_of_not_hasKey memo hnot] at result
      cases result

/-- A key has the value that its dependencies, once they are evaluated in order, give it. -/
theorem reference_eq {key : FlowKey} (h : w.Grounded key)
    {outcome : FlowKey → Except ResolveError (List Parameter)}
    (houtcome : ∀ dependency hneeds,
      w.reference dependency (h.of_needs hneeds) = outcome dependency) :
    w.reference key h = (do
      let found ← (w.dependencies key).mapM fun dependency => do
        let values ← outcome dependency
        return (dependency, values)
      w.evaluate (.showing w found) key) := by
  rw [reference, List.mapM_subtype (fun dependency hneeds => ?_), List.unattach_attach]
  exact congrArg (· >>= _) (houtcome dependency hneeds)

theorem exists_outcome {key : FlowKey} (h : w.Grounded key) :
    ∃ outcome : FlowKey → Except ResolveError (List Parameter), ∀ dependency hneeds,
      w.reference dependency (h.of_needs hneeds) = outcome dependency := by
  classical
  exact ⟨fun dependency =>
      if hgrounded : w.Grounded dependency then w.reference dependency hgrounded else .ok [],
    fun dependency hneeds => (dif_pos (h.of_needs hneeds)).symm⟩

/-- The values of dependencies that resolve are found one after another. -/
theorem mapM_outcome {keys : List FlowKey} {values : FlowKey → List Parameter}
    {outcome : FlowKey → Except ResolveError (List Parameter)}
    (h : ∀ key ∈ keys, outcome key = .ok (values key)) :
    (keys.mapM fun key => do
      let values ← outcome key
      return (key, values)) = .ok (keys.map fun key => (key, values key)) := by
  induction keys with
  | nil => rfl
  | cons first rest ih =>
      rw [List.mapM_cons, h first List.mem_cons_self,
        ih fun key hkey => h key (List.mem_cons_of_mem _ hkey)]
      rfl

/-- A key whose dependencies resolve is evaluated on their values. -/
theorem reference_of_supports {memo : Memo} {key : FlowKey} (h : w.Grounded key)
    (hsupports : w.Supports memo key)
    (hfound : ∀ dependency hneeds values, w.Yields dependency values →
      w.reference dependency (h.of_needs hneeds) = .ok values) :
    w.reference key h = w.evaluate memo key := by
  obtain ⟨values, hholds, hyields⟩ := hsupports.holds
  have hshowing : Holds (.showing w ((w.dependencies key).map fun d => (d, values d)))
      (w.dependencies key) values := fun d hd =>
    Memo.get_showing (fun k hk => (hyields k hk).hasKey) hd
  rw [reference_eq h fun d hd => hfound d hd (values d) (hyields d hd),
    mapM_outcome fun d _ => rfl]
  exact evaluate_eq_of_holds hshowing hholds

/-- Plain recursion finds the values to which a key resolves. -/
theorem Yields.reference_eq {key : FlowKey} {values : List Parameter} (hyields : w.Yields key values)
    (h : w.Grounded key) : w.reference key h = .ok values := by
  induction hyields with
  | @evaluated key out memo values holds yields result ih =>
      have hsupports : w.Supports memo key := fun d hd => ⟨values d, holds d hd, yields d hd⟩
      rw [reference_of_supports h hsupports fun d hd other hother => ?_, result]
      rw [ih d hd, hother.unique (yields d hd)]

/-- Plain recursion finds the failure of a key from which no circle can be reached. -/
theorem Faults.reference_eq {key : FlowKey} {error : ResolveError} (hfaults : w.Faults key error)
    (h : w.Grounded key) : w.reference key h = .error error := by
  induction hfaults with
  | refuses hrefuses =>
      obtain ⟨memo, hsupports, hevaluate⟩ := hrefuses
      rw [reference_of_supports h hsupports fun d _ _ hyields => hyields.reference_eq _, hevaluate]
  | closes hcircle => exact absurd hcircle.transGen (h _ .refl)
  | @blames key dependency error hblames _ ih =>
      have hneeds : w.Needs key dependency := hblames.touches.needs
      obtain ⟨outcome, houtcome⟩ := exists_outcome h
      obtain ⟨before, after, hdeps, hbefore, _⟩ := hblames
      choose! values hyields using hbefore
      have hvalues : ∀ d ∈ before, outcome d = .ok (values d) := by
        intro d hd
        have hearlier : w.Needs key d := by
          rw [Needs, hdeps]
          exact List.mem_append_left _ hd
        rw [← houtcome d hearlier, (hyields d hd).reference_eq]
      have hfailure : outcome dependency = .error error := by
        rw [← houtcome dependency hneeds, ih]
      rw [Wiring.reference_eq h houtcome, hdeps, List.mapM_append, mapM_outcome hvalues,
        List.mapM_cons, hfailure]
      rfl

end Wiring

namespace Graph

/-- Whatever is known already, a demand for a key from which no circle of dependencies can be reached
answers as plain recursion does, and the key then has that outcome. -/
theorem demand_eq_reference {g : Graph} (hg : g.Reachable) {key : FlowKey}
    (h : g.wiring.Grounded key) :
    (g.demand key).1 = (g.wiring.reference key h).map (fun _ => ()) ∧
      (g.demand key).2.entry key = Entry.ofOutcome (g.wiring.reference key h) := by
  obtain ⟨hprogress, hsettled, hanswer⟩ := demand_spec hg.sound.settled key
  have hconsistent := hsettled.consistent
  rw [hprogress.wiring] at hconsistent
  rcases hanswer with ⟨hok, values, hentry⟩ | ⟨error, herror, hentry⟩
  · rw [(hconsistent.yields hentry).reference_eq h]
    exact ⟨hok, hentry⟩
  · rw [(hconsistent.faults hentry).reference_eq h]
    exact ⟨herror, hentry⟩

/-- One offer that meets one demand. -/
def line : Graph :=
  let width : Schema := .ofList [("width", .number)]
  let bus : Protocol := ⟨⟨"bus", width, width⟩, .policy .intersect, .absent, .absent⟩
  after {} [.build (.addNode (.source "cpu" bus (.exactly 1) (.ofList [("width", .span 1 32)]))),
    .build (.addNode (.sink "ram" bus (.exactly 1) (.ofList [("width", .span 8 64)]))),
    .build (.bind (NodeId.output ⟨0⟩ 0) (NodeId.input ⟨1⟩ 0))]

theorem line_resolves :
    (line.demand (.edge ⟨0⟩)).2.entry (.edge ⟨0⟩) = .resolved [.ofList [("width", .num 32)]] := by
  decide

/-- No circle can be reached from the edge of the line, and a demand for it answers as plain recursion
does. -/
theorem line_eq_reference :
    line.Reachable ∧ ∃ h : line.wiring.Grounded (.edge ⟨0⟩),
      (line.demand (.edge ⟨0⟩)).1 = (line.wiring.reference (.edge ⟨0⟩) h).map (fun _ => ()) ∧
      (line.demand (.edge ⟨0⟩)).2.entry (.edge ⟨0⟩) =
        Entry.ofOutcome (line.wiring.reference (.edge ⟨0⟩) h) := by
  have hline : line.Reachable := reachable_after _ _
  obtain ⟨hprogress, hsettled, _⟩ := demand_spec hline.sound.settled (.edge ⟨0⟩)
  have hyields := hsettled.consistent.yields line_resolves
  rw [hprogress.wiring] at hyields
  have hgrounded : line.wiring.Grounded (.edge ⟨0⟩) := Wiring.Resolvable.grounded ⟨_, hyields⟩
  exact ⟨hline, hgrounded, demand_eq_reference hline hgrounded⟩

end Graph

end Negotiation
