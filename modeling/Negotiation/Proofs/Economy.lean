import Negotiation.Proofs.Locality
import Negotiation.Proofs.Reference

/-!
A demand computes what it needs and nothing else.

What a demand settles lies on paths of `Wiring.Touches` from the key.  Such a path that ends in a
key without an outcome of values is a path of blame (`Wiring.blames_of_touches`), and there is one
way only to follow the blame, so the keys that fail are those between the key and the cause of its
failure (`Memo.Reaches.failed_iff`).  A key that resolves has everything that it needs resolved, and
the evaluations are those that were outstanding (`Memo.Reaches.evaluated_eq`).
-/

namespace Negotiation

open Relation

namespace Wiring

variable {w : Wiring} {key other : FlowKey}

theorem Resolvable.of_path (h : w.Resolvable key) (hpath : ReflTransGen w.Needs key other) :
    w.Resolvable other := by
  rcases reflTransGen_iff_eq_or_transGen.mp hpath with rfl | htrans
  · exact h
  · exact h.of_transGen htrans

/-- A resolvable key touches all that it needs. -/
theorem Resolvable.touches_of_needs (h : w.Resolvable key)
    (hpath : ReflTransGen w.Needs key other) : ReflTransGen w.Touches key other := by
  induction hpath with
  | refl => exact .refl
  | tail hbefore hneeds ih => exact ih.tail ((h.of_path hbefore).ready.touches hneeds)

/-- A key without an outcome of values is touched along the blame. -/
theorem blames_of_touches (hnot : ¬ w.Resolvable other)
    (hpath : ReflTransGen w.Touches key other) : ReflTransGen w.Blames key other := by
  induction hpath using ReflTransGen.head_induction_on with
  | refl => exact .refl
  | @head first next htouches hrest ih =>
      have hnext : ¬ w.Resolvable next := fun h => hnot (h.of_path (needs_of_touches hrest))
      obtain ⟨before, after, hdeps, hbefore⟩ := htouches
      exact ih.head ⟨before, after, hdeps, hbefore, hnext⟩

/-- The blame returns to a key on a circle from wherever it leads. -/
theorem Closes.blames_back {c : Cycle} (h : w.Closes key c)
    (hpath : ReflTransGen w.Blames key other) : ReflTransGen w.Blames other key := by
  induction hpath with
  | refl => exact .refl
  | @tail last next _ hblames ih =>
      -- The blame goes on from `last` to one key only, the first on the way back.
      have hback : TransGen w.Blames last key := by
        rcases reflTransGen_iff_eq_or_transGen.mp ih with rfl | htrans
        · exact h.transGen_blames
        · exact htrans
      obtain ⟨second, hsecond, hrest⟩ := TransGen.head'_iff.mp hback
      obtain rfl := blames_rightUnique hblames hsecond
      exact hrest

/-- Every key to which the blame leads lies before the cause. -/
theorem Causes.blames_of_blames {cause : FlowKey} {error : ResolveError}
    (h : w.Causes cause error) (hcause : ReflTransGen w.Blames key cause)
    (hother : ReflTransGen w.Blames key other) : ReflTransGen w.Blames other cause := by
  rcases ReflTransGen.total_of_right_unique blames_rightUnique hother hcause with hbefore | hafter
  · exact hbefore
  · cases h with
    | refuses h =>
        rcases ReflTransGen.cases_head hafter with rfl | ⟨next, hblames, _⟩
        · exact .refl
        · exact absurd h.ready hblames.not_ready
    | closes h => exact h.blames_back hafter

/-- A key resolves if nothing that it needs lies on a circle or refuses the values of its
dependencies. -/
theorem Grounded.not_faults (h : w.Grounded key)
    (hnone : ∀ k ∈ w.closure key, ∀ error, ¬ w.Refuses k error) (error : ResolveError) :
    ¬ w.Faults key error := by
  intro hfaults
  obtain ⟨cause, hcauses, hblames⟩ := hfaults.exists_causes
  have hpath : ReflTransGen w.Needs key cause := needs_of_blames hblames
  cases hcauses with
  | refuses hrefuses => exact hnone cause hpath error hrefuses
  | closes hcloses => exact h cause hpath hcloses.transGen

end Wiring

namespace Memo

variable {w : Wiring} {origin memo : Memo} {target key other : FlowKey}

namespace Consistent

theorem terminal_of_touches (h : memo.Consistent w) (hkey : (memo.get key).isTerminal = true)
    (hpath : ReflTransGen w.Touches key other) : (memo.get other).isTerminal = true := by
  induction hpath with
  | refl => exact hkey
  | tail _ htouches ih => exact (h.accounts ih).closed htouches

theorem resolved_of_terminal (h : memo.Consistent w) (hkey : (memo.get key).isTerminal = true)
    (hresolvable : w.Resolvable key) : ∃ values, memo.get key = .resolved values := by
  rcases Entry.isTerminal_iff.mp hkey with hresolved | ⟨error, herror⟩
  · exact hresolved
  · exact absurd hresolvable (h.faults herror).not_resolvable

theorem failed_of_terminal (h : memo.Consistent w) (hkey : (memo.get key).isTerminal = true)
    (hnot : ¬ w.Resolvable key) : ∃ error, memo.get key = .failed error := by
  rcases Entry.isTerminal_iff.mp hkey with ⟨values, hvalues⟩ | hfailed
  · exact absurd ⟨values, h.yields hvalues⟩ hnot
  · exact hfailed

/-- Where a key is resolved, all that it needs is resolved. -/
theorem resolved_of_needs (h : memo.Consistent w) (hkey : ∃ values, memo.get key = .resolved values)
    (hother : other ∈ w.closure key) : ∃ values, memo.get other = .resolved values := by
  obtain ⟨values, hvalues⟩ := hkey
  have hresolvable : w.Resolvable key := ⟨values, h.yields hvalues⟩
  have hterminal : (memo.get key).isTerminal = true := by
    rw [hvalues]
    rfl
  exact h.resolved_of_terminal
    (h.terminal_of_touches hterminal (hresolvable.touches_of_needs hother))
    (hresolvable.of_path hother)

end Consistent

/-- What a key needs and the memo does not show resolved. -/
def outstanding (w : Wiring) (memo : Memo) (key : FlowKey) : Set FlowKey :=
  {other ∈ w.closure key | ∀ values, memo.get other ≠ .resolved values}

namespace Reaches

variable (horigin : origin.Consistent w) (hmemo : memo.Consistent w)
  (h : origin.Reaches w target memo)

include horigin hmemo h

/-- If the target is resolved, then what was evaluated besides is what was outstanding. -/
theorem evaluated_eq (htarget : ∃ values, memo.get target = .resolved values) :
    memo.evaluated w = origin.evaluated w ∪ origin.outstanding w target ∧
      ∀ other ∈ origin.evaluated w, other ∉ origin.outstanding w target := by
  have hresolved : ∀ {k}, k ∈ w.closure target → ∃ values, memo.get k = .resolved values :=
    fun hk => hmemo.resolved_of_needs htarget hk
  have hresolvable : ∀ {k}, k ∈ w.closure target → w.Resolvable k := fun hk =>
    (hresolved hk).imp fun _ hvalues => hmemo.yields hvalues
  constructor
  · ext k
    constructor
    · rintro ⟨hkey, hterminal, hready⟩
      cases hold : (origin.get k).isTerminal with
      | true => exact .inl ⟨hkey, hold, hready⟩
      | false =>
          have htouched := (h.within k hterminal).resolve_left (by rw [hold]; exact nofun)
          refine .inr ⟨Wiring.needs_of_touches htouched, fun values hvalues => ?_⟩
          rw [hvalues] at hold
          cases hold
    · rintro (⟨hkey, hold, hready⟩ | ⟨hneeded, _⟩)
      · exact ⟨hkey, (h.keeps k hold).symm ▸ hold, hready⟩
      · obtain ⟨values, hvalues⟩ := hresolved hneeded
        refine ⟨(hmemo.yields hvalues).hasKey, ?_, (hresolvable hneeded).ready⟩
        rw [hvalues]
        rfl
  · intro k hevaluated houtstanding
    obtain ⟨values, hvalues⟩ :=
      horigin.resolved_of_terminal hevaluated.2.1 (hresolvable houtstanding.1)
    exact houtstanding.2 values hvalues

omit horigin

/-- If the target has failed, then the keys that failed are those between it and the cause, and they
failed alike. -/
theorem failed_iff {cause : FlowKey} {error : ResolveError}
    (htarget : memo.get target = .failed error) (hcauses : w.Causes cause error)
    (hcause : ReflTransGen w.Blames target cause)
    (hfresh : ∀ found, origin.get other ≠ .failed found) (found : ResolveError) :
    memo.get other = .failed found ↔
      found = error ∧ ReflTransGen w.Blames target other ∧ ReflTransGen w.Blames other cause := by
  -- Two failures of one memo that agree are one failure.
  have hsame : ∀ {error'}, ReflTransGen w.Blames other cause → memo.get other = .failed error' →
      error' = error := fun hbefore hfailed =>
    hmemo.eq_of_agrees hfailed htarget ((hmemo.faults hfailed).agrees (hcauses.faults hbefore))
  constructor
  · intro hfailed
    have hnew : (origin.get other).isTerminal ≠ true := by
      intro hold
      exact hfresh found ((h.keeps other hold).symm.trans hfailed)
    have hterminal : (memo.get other).isTerminal = true := by
      rw [hfailed]
      rfl
    have htouched := (h.within other hterminal).resolve_left hnew
    have hblamed := Wiring.blames_of_touches (hmemo.faults hfailed).not_resolvable htouched
    have hbefore := hcauses.blames_of_blames hcause hblamed
    exact ⟨hsame hbefore hfailed, hblamed, hbefore⟩
  · rintro ⟨rfl, hblamed, hbefore⟩
    have hstart : (memo.get target).isTerminal = true := by
      rw [htarget]
      rfl
    have hterminal := hmemo.terminal_of_touches hstart (Wiring.touches_of_blames hblamed)
    obtain ⟨error', hfailed⟩ :=
      hmemo.failed_of_terminal hterminal (hcauses.faults hbefore).not_resolvable
    rw [hfailed, hsame hbefore hfailed]

end Reaches

end Memo

namespace Graph

variable {g : Graph}

/-- A demand for the key computes what the key needs and nothing else. -/
structure Spends (g : Graph) (key : FlowKey) : Prop where
  /-- What the key does not need stays as it is. -/
  frame : ∀ other ∉ g.wiring.closure key, (g.demand key).2.entry other = g.entry other
  /-- If the demand succeeds, then all that the key needs is resolved. -/
  resolves : (g.demand key).1 = .ok () → ∀ other ∈ g.wiring.closure key,
    ∃ values, (g.demand key).2.entry other = .resolved values
  /-- If the demand succeeds, then there was one evaluation for each key that was outstanding. -/
  counts : (g.demand key).1 = .ok () → (g.known.memo.outstanding g.wiring key).Finite ∧
    (g.demand key).2.evaluations =
      g.evaluations + (g.known.memo.outstanding g.wiring key).ncard
  /-- If the demand fails, then the keys that failed are those between the key and the cause: a key
  that refuses the values of its dependencies, or one on a circle. -/
  fails : ∀ error, (g.demand key).1 = .error error → ∃ cause, g.wiring.Causes cause error ∧
    ReflTransGen g.wiring.Blames key cause ∧
    ∀ other, (∀ found, g.entry other ≠ .failed found) → ∀ found,
      (g.demand key).2.entry other = .failed found ↔ found = error ∧
        ReflTransGen g.wiring.Blames key other ∧ ReflTransGen g.wiring.Blames other cause
  /-- No key fails that can be evaluated with all that it needs. -/
  spares : ∀ other, g.wiring.Grounded other →
    (∀ needed ∈ g.wiring.closure other, ∀ error, ¬ g.wiring.Refuses needed error) →
    ∀ error, (g.demand key).2.entry other ≠ .failed error

theorem spends_of_settled (hsettled : g.known.Settled g.wiring) (key : FlowKey) :
    g.Spends key := by
  obtain ⟨hprogress, hsettled', _⟩ := demand_spec hsettled key
  rw [hprogress.wiring] at hsettled'
  have hreaches : g.known.memo.Reaches g.wiring key (g.demand key).2.known.memo := by
    refine ⟨hprogress.keeps, fun other hterminal => (hprogress.within other hterminal).imp_right ?_⟩
    rintro ⟨_, rfl, hpath⟩
    exact hpath
  have hconcludes := concludes_of_settled hsettled key
  refine ⟨fun other hother => ?frame, fun hok other hother => ?resolves, fun hok => ?counts,
    fun error herror => ?fails, fun other hgrounded hnone error hentry => ?spares⟩
  case frame =>
    cases hold : (g.entry other).isTerminal with
    | true => exact hreaches.keeps other hold
    | false =>
        have hstill : ((g.demand key).2.entry other).isTerminal = false := by
          refine Bool.eq_false_iff.mpr fun hterminal => hother ?_
          rcases hreaches.within other hterminal with hbefore | htouched
          · rw [entry, hbefore] at hold
            cases hold
          · exact Wiring.needs_of_touches htouched
        exact (hsettled'.get_eq_unresolved hstill).trans (hsettled.get_eq_unresolved hold).symm
  case resolves =>
    exact hsettled'.consistent.resolved_of_needs (hconcludes.resolved_iff.mp hok) hother
  case counts =>
    obtain ⟨hunion, hapart⟩ := hreaches.evaluated_eq hsettled.consistent hsettled'.consistent
      (hconcludes.resolved_iff.mp hok)
    have hfinite : (g.known.memo.outstanding g.wiring key).Finite :=
      ((g.demand key).2.known.memo.finite_evaluated g.wiring).subset
        (hunion ▸ Set.subset_union_right)
    refine ⟨hfinite, ?_⟩
    rw [evaluations_eq, evaluations_eq, hsettled'.counted, hsettled.counted, hunion]
    exact Set.ncard_union_eq (Set.disjoint_left.mpr hapart)
      (g.known.memo.finite_evaluated g.wiring) hfinite
  case fails =>
    have hentry := (hconcludes.failed_iff error).mp herror
    obtain ⟨cause, hcauses, hcause⟩ := (hsettled'.consistent.faults hentry).exists_causes
    exact ⟨cause, hcauses, hcause, fun other hfresh =>
      hreaches.failed_iff hsettled'.consistent hentry hcauses hcause hfresh⟩
  case spares => exact hgrounded.not_faults hnone error (hsettled'.consistent.faults hentry)

/-- Whatever was requested of a graph, and whichever keys were demanded then, the next demand
computes what its key needs and nothing else. -/
theorem demand_spends (hg : g.Reachable) (earlier : List FlowKey) (key : FlowKey) :
    (g.demands earlier).Spends key :=
  spends_of_settled (demands_settled hg.sound.settled earlier) key

/-- Two lines, where the demand of the first sink is known already. -/
def primed : Graph :=
  severed.demands [.up ⟨1⟩]

/-- The edge of the first line takes two more evaluations, its own and that of its source.  On the
second line the source is the cause: the node that passes its offer on and the edge fail with it,
and nothing becomes known of the sink. -/
theorem primed_spends :
    severed.Reachable ∧ primed.Spends (.edge ⟨0⟩) ∧
      (primed.known.memo.outstanding primed.wiring (.edge ⟨0⟩)).ncard = 2 ∧
      primed.Spends (.edge ⟨2⟩) ∧ ∃ error, (primed.demand (.edge ⟨2⟩)).1 = .error error ∧
        (∀ key ∈ [.down ⟨2⟩, .down ⟨3⟩, .edge ⟨2⟩],
          (primed.demand (.edge ⟨2⟩)).2.entry key = .failed error) ∧
        (primed.demand (.edge ⟨2⟩)).2.entry (.up ⟨4⟩) = .unresolved := by
  have hline : line.Reachable := reachable_after _ _
  have hsevered : severed.Reachable := hline.serves _
  have hfirst : primed.Spends (.edge ⟨0⟩) := demand_spends hsevered [.up ⟨1⟩] (.edge ⟨0⟩)
  have hsecond : primed.Spends (.edge ⟨2⟩) := demand_spends hsevered [.up ⟨1⟩] (.edge ⟨2⟩)
  have hbefore : primed.evaluations = 1 := by decide
  have hafter : (primed.demand (.edge ⟨0⟩)).2.evaluations = 3 := by decide
  obtain ⟨_, hcount⟩ := hfirst.counts (by decide)
  rw [hbefore, hafter] at hcount
  let missing : ResolveError :=
    .mismatch ⟨.down ⟨2⟩, some ⟨1⟩, .onPort "out" (.missingField "width")⟩
  exact ⟨hsevered, hfirst, by omega, hsecond, missing, by decide, by decide, by decide⟩

end Graph

end Negotiation
