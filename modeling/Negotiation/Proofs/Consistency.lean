import Mathlib.Data.Set.Card
import Negotiation.Demand
import Negotiation.Proofs.Outcome

/-!
Memos that agree with the outcomes of their keys.

`Memo.Consistent` says that every entry is the outcome of its key, that an entry which is settled
has settled everything the key touches, and that the keys of a circle failed together.  Two
consistent memos of one wiring agree wherever both are settled (`Memo.Consistent.agrees`).
-/

namespace Negotiation

namespace Entry

/-- Whether the key is resolved or has failed. -/
def isTerminal : Entry → Bool
  | resolved _ | failed _ => true
  | unresolved | resolving => false

theorem isTerminal_iff {entry : Entry} :
    entry.isTerminal = true ↔
      (∃ values, entry = resolved values) ∨ ∃ error, entry = failed error := by
  cases entry <;> simp [isTerminal]

theorem progress_eq_resolved_iff {entry : Entry} :
    entry.progress = .resolved ↔ ∃ values, entry = resolved values := by
  cases entry <;> simp [progress]

theorem progress_eq_failed_iff {entry : Entry} :
    entry.progress = .failed ↔ ∃ error, entry = failed error := by
  cases entry <;> simp [progress]

theorem progress_eq_resolving_iff {entry : Entry} :
    entry.progress = .resolving ↔ entry = resolving := by
  cases entry <;> simp [progress]

theorem failure?_eq_some_iff {entry : Entry} {error : ResolveError} :
    entry.failure? = some error ↔ entry = failed error := by
  cases entry <;> simp [failure?]

/-- The same values, or the same failure up to where the chain of a circle starts. -/
inductive Agrees : Entry → Entry → Prop
  | resolved (values : List Parameter) : Agrees (.resolved values) (.resolved values)
  | failed {error other : ResolveError} (h : error.Agrees other) :
      Agrees (.failed error) (.failed other)

theorem Agrees.progress_eq {entry other : Entry} (h : entry.Agrees other) :
    entry.progress = other.progress := by
  cases h <;> rfl

theorem Agrees.values?_eq {entry other : Entry} (h : entry.Agrees other) :
    entry.values? = other.values? := by
  cases h <;> rfl

end Entry

namespace Wiring

/-- The key of a node or an edge that exists. -/
def HasKey (w : Wiring) : FlowKey → Prop
  | .down n | .up n => n.index < w.slots.size
  | .edge e => e.index < w.edges.size

theorem HasKey.of_edge? {w : Wiring} {e : EdgeId} {edge : Edge} (h : w.edge? e = some edge) :
    w.HasKey (.edge e) :=
  (Array.getElem?_eq_some_iff.mp h).1

theorem finite_hasKey (w : Wiring) : {key | w.HasKey key}.Finite := by
  have hnodes : {n : NodeId | n.index < w.slots.size}.Finite :=
    (Set.finite_lt_nat w.slots.size).preimage fun a _ b _ h => by
      cases a
      cases b
      exact congrArg NodeId.mk h
  have hedges : {e : EdgeId | e.index < w.edges.size}.Finite :=
    (Set.finite_lt_nat w.edges.size).preimage fun a _ b _ h => by
      cases a
      cases b
      exact congrArg EdgeId.mk h
  refine (((hnodes.image FlowKey.down).union (hnodes.image FlowKey.up)).union
    (hedges.image FlowKey.edge)).subset ?_
  intro key hkey
  cases key with
  | down n => exact Or.inl (Or.inl ⟨n, hkey, rfl⟩)
  | up n => exact Or.inl (Or.inr ⟨n, hkey, rfl⟩)
  | edge e => exact Or.inr ⟨e, hkey, rfl⟩

theorem dependencies_of_not_hasKey {w : Wiring} {key : FlowKey} (h : ¬ w.HasKey key) :
    w.dependencies key = [] := by
  cases key with
  | edge e =>
      have hnone : w.edge? e = none := Array.getElem?_eq_none (Nat.le_of_not_lt h)
      simp only [dependencies, hnone]
  | down n =>
      have hnone : w.slot? n = none := Array.getElem?_eq_none (Nat.le_of_not_lt h)
      simp only [dependencies, hnone]
  | up n =>
      have hnone : w.slot? n = none := Array.getElem?_eq_none (Nat.le_of_not_lt h)
      simp only [dependencies, hnone]

theorem evaluate_of_not_hasKey {w : Wiring} {key : FlowKey} (memo : Memo) (h : ¬ w.HasKey key) :
    w.evaluate memo key = .error (Memo.notCovered key) := by
  cases key with
  | edge e =>
      have hnone : w.edge? e = none := Array.getElem?_eq_none (Nat.le_of_not_lt h)
      simp only [evaluate, hnone]
      rfl
  | down n =>
      have hnone : w.slot? n = none := Array.getElem?_eq_none (Nat.le_of_not_lt h)
      simp only [evaluate, hnone, locate]
      rfl
  | up n =>
      have hnone : w.slot? n = none := Array.getElem?_eq_none (Nat.le_of_not_lt h)
      simp only [evaluate, hnone, locate]
      rfl

/-- A key that does not exist fails as a key that no memo covers. -/
theorem refuses_of_not_hasKey {w : Wiring} {key : FlowKey} (h : ¬ w.HasKey key) :
    w.Refuses key (Memo.notCovered key) := by
  refine ⟨.blank 0 0, fun dependency hd => ?_, evaluate_of_not_hasKey _ h⟩
  rw [dependencies_of_not_hasKey h] at hd
  exact absurd hd List.not_mem_nil

theorem Ready.touches {w : Wiring} {key dependency : FlowKey} (h : w.Ready key)
    (hd : dependency ∈ w.dependencies key) : w.Touches key dependency := by
  obtain ⟨before, after, hdeps⟩ := List.append_of_mem hd
  refine ⟨before, after, hdeps, fun earlier hearlier => h earlier ?_⟩
  rw [hdeps]
  exact List.mem_append_left _ hearlier

/-- A key that has a dependency exists. -/
theorem hasKey_of_needs {w : Wiring} {key dependency : FlowKey} (h : w.Needs key dependency) :
    w.HasKey key := by
  refine Classical.byContradiction fun hnot => ?_
  rw [Needs, dependencies_of_not_hasKey hnot] at h
  exact absurd h List.not_mem_nil

end Wiring

namespace Memo

open Relation

theorem get_setAll (m : Memo) (keys : List FlowKey) (entry : Entry) (key : FlowKey) :
    (m.setAll keys entry).get key =
      if key ∈ keys ∧ m.Covers key then entry else m.get key := by
  induction keys generalizing m with
  | nil => simp [setAll]
  | cons first rest ih =>
      have htail : (m.setAll (first :: rest) entry).get key =
          ((m.set first entry).setAll rest entry).get key := rfl
      rw [htail, ih, get_set]
      simp only [covers_set, List.mem_cons]
      by_cases hfirst : key = first
      · subst hfirst
        by_cases hcovers : m.Covers key <;> simp [hcovers]
      · simp [hfirst]

theorem covers_setAll (m : Memo) (keys : List FlowKey) (entry : Entry) (key : FlowKey) :
    (m.setAll keys entry).Covers key ↔ m.Covers key := by
  induction keys generalizing m with
  | nil => rfl
  | cons first rest ih => exact (ih (m.set first entry)).trans (covers_set m first key entry)

theorem get_blank_of_covers {nodes edges : Nat} {key : FlowKey}
    (h : (blank nodes edges).Covers key) : (blank nodes edges).get key = .unresolved := by
  cases key with
  | down n => simp_all [Covers, get, get?, blank, Array.getElem?_replicate]
  | up n => simp_all [Covers, get, get?, blank, Array.getElem?_replicate]
  | edge e => simp_all [Covers, get, get?, blank, Array.getElem?_replicate]

theorem covers_blank_iff {w : Wiring} {key : FlowKey} :
    (blank w.slots.size w.edges.size).Covers key ↔ w.HasKey key := by
  cases key with
  | down n => simp [Covers, get?, blank, Wiring.HasKey]
  | up n => simp [Covers, get?, blank, Wiring.HasKey]
  | edge e => simp [Covers, get?, blank, Wiring.HasKey]

/-- A settled entry is the outcome of its key, and what belongs to that outcome is settled too. -/
structure Accounts (w : Wiring) (memo : Memo) (key : FlowKey) : Prop where
  /-- A resolved key has the values to which it resolves. -/
  yields : ∀ {values}, memo.get key = .resolved values → w.Yields key values
  /-- A failed key has the failure with which it fails. -/
  faults : ∀ {error}, memo.get key = .failed error → w.Faults key error
  /-- What the key touches is settled. -/
  closed : ∀ {dependency}, w.Touches key dependency → (memo.get dependency).isTerminal = true
  /-- The keys of a circle have failed with the chain that runs through them. -/
  circle : ∀ {c}, memo.get key = .failed (.cycle c) →
    ∀ member ∈ c.chain, memo.get member = .failed (.cycle c)

/-- The memo covers the keys that exist, and every settled entry is accounted for. -/
structure Consistent (w : Wiring) (memo : Memo) : Prop where
  covers : ∀ key, memo.Covers key ↔ w.HasKey key
  accounts : ∀ {key}, (memo.get key).isTerminal = true → Accounts w memo key

variable {w : Wiring} {memo other : Memo}

/-- The entry of a key that does not exist. -/
theorem accounts_of_not_hasKey {key : FlowKey} (hkey : ¬ w.HasKey key)
    (hget : memo.get key = .failed (notCovered key)) : Accounts w memo key where
  yields h := by
    rw [hget] at h
    cases h
  faults h := by
    rw [hget] at h
    cases h
    exact .refuses (Wiring.refuses_of_not_hasKey hkey)
  closed htouches := absurd (Wiring.hasKey_of_needs htouches.needs) hkey
  circle h := by
    rw [hget] at h
    cases h

theorem consistent_blank (w : Wiring) : Consistent w (blank w.slots.size w.edges.size) := by
  refine ⟨fun key => covers_blank_iff, fun {key} hterminal => ?_⟩
  by_cases hkey : w.HasKey key
  · rw [get_blank_of_covers (covers_blank_iff.mpr hkey)] at hterminal
    cases hterminal
  · exact accounts_of_not_hasKey hkey (get_of_not_covers (mt covers_blank_iff.mp hkey))

namespace Consistent

theorem yields (h : Consistent w memo) {key : FlowKey} {values : List Parameter}
    (hget : memo.get key = .resolved values) : w.Yields key values :=
  (h.accounts (by rw [hget]; rfl)).yields hget

theorem faults (h : Consistent w memo) {key : FlowKey} {error : ResolveError}
    (hget : memo.get key = .failed error) : w.Faults key error :=
  (h.accounts (by rw [hget]; rfl)).faults hget

theorem circle (h : Consistent w memo) {key : FlowKey} {c : Cycle}
    (hget : memo.get key = .failed (.cycle c)) :
    ∀ member ∈ c.chain, memo.get member = .failed (.cycle c) :=
  (h.accounts (by rw [hget]; rfl)).circle hget

/-- A memo that keeps every settled entry, and accounts for those it settles, stays consistent. -/
theorem settle (h : Consistent w memo) (hcovers : ∀ key, other.Covers key ↔ memo.Covers key)
    (hkeep : ∀ key, (memo.get key).isTerminal = true → other.get key = memo.get key)
    (hnew : ∀ key, (memo.get key).isTerminal = false → (other.get key).isTerminal = true →
      Accounts w other key) : Consistent w other := by
  refine ⟨fun key => (hcovers key).trans (h.covers key), fun {key} hterminal => ?_⟩
  cases hold : (memo.get key).isTerminal with
  | false => exact hnew key hold hterminal
  | true =>
      have haccounts := h.accounts hold
      have hsame := hkeep key hold
      refine ⟨fun hget => haccounts.yields (hsame ▸ hget), fun hget => haccounts.faults (hsame ▸ hget),
        fun htouches => ?_, fun hget member hmember => ?_⟩
      · have hdependency := haccounts.closed htouches
        rwa [hkeep _ hdependency]
      · have hentry := haccounts.circle (hsame ▸ hget) member hmember
        rw [hkeep member (by rw [hentry]; rfl), hentry]

/-- Two consistent memos agree on every key that is settled in both. -/
theorem agrees (h : Consistent w memo) (h' : Consistent w other) {key : FlowKey}
    (hterminal : (memo.get key).isTerminal = true)
    (hterminal' : (other.get key).isTerminal = true) :
    (memo.get key).Agrees (other.get key) := by
  rcases Entry.isTerminal_iff.mp hterminal with ⟨values, hget⟩ | ⟨error, hget⟩
  · rcases Entry.isTerminal_iff.mp hterminal' with ⟨values', hget'⟩ | ⟨error', hget'⟩
    · have hsame : values = values' := (h.yields hget).unique (h'.yields hget')
      rw [hget, hget', hsame]
      exact .resolved values'
    · exact absurd ⟨values, h.yields hget⟩ (h'.faults hget').not_resolvable
  · rcases Entry.isTerminal_iff.mp hterminal' with ⟨values', hget'⟩ | ⟨error', hget'⟩
    · exact absurd ⟨values', h'.yields hget'⟩ (h.faults hget).not_resolvable
    · rw [hget, hget']
      exact .failed ((h.faults hget).agrees (h'.faults hget'))

/-- Failures that one memo shows and that agree with one another are the same failure. -/
theorem eq_of_agrees (h : Consistent w memo) {key other : FlowKey} {error error' : ResolveError}
    (hkey : memo.get key = .failed error) (hother : memo.get other = .failed error')
    (hagrees : error.Agrees error') : error = error' := by
  cases hagrees with
  | mismatch m => rfl
  | @cycle c d hcycles =>
      obtain ⟨keys, others, hc, hd, hrotated⟩ := id hcycles
      cases keys with
      | nil => rw [hc, hd, List.isRotated_nil_iff'.mp hrotated]
      | cons member rest =>
          -- A key of both chains has failed with both.
          have hmember : member ∈ c.chain := by
            rw [hc]
            exact List.mem_cons_self
          have hleft := h.circle hkey member hmember
          have hright := h.circle hother member (hcycles.mem_chain hmember)
          rw [hleft] at hright
          exact Entry.failed.inj hright

theorem supports (h : Consistent w memo) {key : FlowKey}
    (hresolved : ∀ dependency ∈ w.dependencies key, ∃ values, memo.get dependency = .resolved values) :
    w.Supports memo key := by
  intro dependency hd
  obtain ⟨values, hget⟩ := hresolved dependency hd
  exact ⟨values, hget, h.yields hget⟩

/-- The memo supports every resolved key, whose values are what evaluation makes of the memo. -/
theorem evaluate_of_resolved (h : Consistent w memo) {key : FlowKey} {values : List Parameter}
    (hget : memo.get key = .resolved values) :
    w.Supports memo key ∧ w.evaluate memo key = .ok values := by
  have hyields := h.yields hget
  have hready : w.Ready key := Wiring.Resolvable.ready ⟨values, hyields⟩
  have hsupports : w.Supports memo key := by
    refine h.supports fun dependency hd => ?_
    have hterminal : (memo.get dependency).isTerminal = true :=
      (h.accounts (by rw [hget]; rfl)).closed (hready.touches hd)
    rcases Entry.isTerminal_iff.mp hterminal with hresolved | ⟨error, herror⟩
    · exact hresolved
    · exact absurd (hready dependency hd) (h.faults herror).not_resolvable
  refine ⟨hsupports, ?_⟩
  cases hyields with
  | evaluated memo' values' holds yields result =>
      have hsupports' : w.Supports memo' key := fun d hd => ⟨values' d, holds d hd, yields d hd⟩
      rw [hsupports.evaluate_eq hsupports', result]

/-- A key of which nothing is known may be taken up. -/
theorem set_resolving (h : Consistent w memo) {key : FlowKey} (hget : memo.get key = .unresolved) :
    Consistent w (memo.set key .resolving) := by
  refine h.settle (fun k => covers_set memo key k _) (fun k hk => ?_) fun k hold hnew => ?_
  · refine get_set_ne memo _ fun heq => ?_
    rw [heq, hget] at hk
    cases hk
  · rw [get_set] at hnew
    split at hnew
    · cases hnew
    · rw [hold] at hnew
      cases hnew

/-- A key that is being resolved may take the values that evaluation gives it. -/
theorem set_resolved (h : Consistent w memo) {key : FlowKey} {values : List Parameter}
    (hget : memo.get key = .resolving) (hsupports : w.Supports memo key)
    (hevaluate : w.evaluate memo key = .ok values) :
    Consistent w (memo.set key (.resolved values)) := by
  have hcovers : memo.Covers key := Classical.byContradiction fun hnot => by
    rw [get_of_not_covers hnot] at hget
    cases hget
  have hself : (memo.set key (.resolved values)).get key = .resolved values :=
    get_set_self _ hcovers
  have hkeep : ∀ k, (memo.get k).isTerminal = true →
      (memo.set key (.resolved values)).get k = memo.get k := by
    intro k hk
    refine get_set_ne memo _ fun heq => ?_
    rw [heq, hget] at hk
    cases hk
  refine h.settle (fun k => covers_set memo key k _) hkeep fun k hold hnew => ?_
  have hkey : k = key := by
    refine Classical.byContradiction fun hne => ?_
    rw [get_set_ne memo _ hne, hold] at hnew
    cases hnew
  subst hkey
  refine ⟨fun hout => ?_, fun herror => ?_, fun htouches => ?_, fun hcycle => ?_⟩
  · rw [hself] at hout
    cases hout
    exact hsupports.yields hevaluate
  · rw [hself] at herror
    cases herror
  · obtain ⟨out, hout, _⟩ := hsupports _ htouches.needs
    rw [hkeep _ (by rw [hout]; rfl), hout]
    rfl
  · rw [hself] at hcycle
    cases hcycle

/-- Keys that are being resolved may fail together: each fails with this failure, touches only what
is settled or fails too, and so does a circle. -/
theorem setAll_failed (h : Consistent w memo) {keys : List FlowKey} {error : ResolveError}
    (hget : ∀ key ∈ keys, memo.get key = .resolving) (hfaults : ∀ key ∈ keys, w.Faults key error)
    (htouched : ∀ key ∈ keys, ∀ dependency, w.Touches key dependency →
      (memo.get dependency).isTerminal = true ∨ dependency ∈ keys)
    (hcircle : ∀ c, error = .cycle c → ∀ member ∈ c.chain,
      memo.get member = .failed error ∨ member ∈ keys) :
    Consistent w (memo.setAll keys (.failed error)) := by
  have hin : ∀ {k}, k ∈ keys → (memo.setAll keys (.failed error)).get k = .failed error := by
    intro k hk
    have hcovers : memo.Covers k := Classical.byContradiction fun hnot => by
      have hresolving := hget k hk
      rw [get_of_not_covers hnot] at hresolving
      cases hresolving
    rw [get_setAll, if_pos ⟨hk, hcovers⟩]
  have hout : ∀ {k}, k ∉ keys → (memo.setAll keys (.failed error)).get k = memo.get k := by
    intro k hk
    rw [get_setAll, if_neg fun h => hk h.1]
  have hkeep : ∀ k, (memo.get k).isTerminal = true →
      (memo.setAll keys (.failed error)).get k = memo.get k := by
    intro k hk
    refine hout fun hmem => ?_
    rw [hget k hmem] at hk
    cases hk
  refine h.settle (fun k => covers_setAll memo keys _ k) hkeep fun k hold hnew => ?_
  have hmem : k ∈ keys := by
    refine Classical.byContradiction fun hnot => ?_
    rw [hout hnot, hold] at hnew
    cases hnew
  refine ⟨fun hvalues => ?_, fun hfailure => ?_, fun htouches => ?_, fun hcycle member hmember => ?_⟩
  · rw [hin hmem] at hvalues
    cases hvalues
  · rw [hin hmem] at hfailure
    cases hfailure
    exact hfaults k hmem
  · rcases htouched k hmem _ htouches with hsettled | hkeys
    · rwa [hkeep _ hsettled]
    · rw [hin hkeys]
      rfl
  · rw [hin hmem] at hcycle
    cases hcycle
    rcases hcircle _ rfl member hmember with hentry | hkeys
    · rw [hkeep member (by rw [hentry]; rfl), hentry]
    · exact hin hkeys

end Consistent

/-- The keys that have been evaluated: those that are settled and whose dependencies are
resolvable. -/
def evaluated (w : Wiring) (memo : Memo) : Set FlowKey :=
  {key | w.HasKey key ∧ (memo.get key).isTerminal = true ∧ w.Ready key}

theorem finite_evaluated (w : Wiring) (memo : Memo) : (evaluated w memo).Finite :=
  w.finite_hasKey.subset fun _ h => h.1

theorem evaluated_eq_of_iff (h : ∀ key, (memo.get key).isTerminal = true ↔
    (other.get key).isTerminal = true) : evaluated w memo = evaluated w other := by
  ext key
  simp only [evaluated, Set.mem_ofPred_eq, h key]

end Memo

end Negotiation
