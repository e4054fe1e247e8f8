import Negotiation.Proofs.Consistency

/-!
What a demand does to the ledger.

`Walk.Coherent` is the invariant of a walk: the pile is a path of dependencies, it holds just the
keys that are being resolved, and each of its keys waits for the one above it with every earlier
dependency resolved.  A step keeps the invariant or ends the walk (`Walk.Coherent.step`), and a walk
that ends has settled its target (`Walk.Coherent.run`).  So a demand settles what its key touches
and nothing else, and keeps what was settled (`Ledger.Settled.demand`).
-/

namespace Negotiation

open Relation

variable {w : Wiring}

/-- The first key waits for the second: every dependency before it is resolved. -/
def Memo.Awaits (w : Wiring) (memo : Memo) (key dependency : FlowKey) : Prop :=
  ∃ before after, w.dependencies key = before ++ dependency :: after ∧
    ∀ earlier ∈ before, ∃ values, memo.get earlier = .resolved values

namespace Memo.Awaits

variable {memo other : Memo} {key dependency : FlowKey}

theorem mono (h : memo.Awaits w key dependency)
    (hkeep : ∀ k, (memo.get k).isTerminal = true → other.get k = memo.get k) :
    other.Awaits w key dependency := by
  obtain ⟨before, after, hdeps, hbefore⟩ := h
  refine ⟨before, after, hdeps, fun earlier hearlier => ?_⟩
  obtain ⟨values, hvalues⟩ := hbefore earlier hearlier
  have hterminal : (memo.get earlier).isTerminal = true := by
    rw [hvalues]
    rfl
  exact ⟨values, (hkeep earlier hterminal).trans hvalues⟩

theorem touches (h : memo.Awaits w key dependency) (hconsistent : memo.Consistent w) :
    w.Touches key dependency := by
  obtain ⟨before, after, hdeps, hbefore⟩ := h
  refine ⟨before, after, hdeps, fun earlier hearlier => ?_⟩
  obtain ⟨values, hget⟩ := hbefore earlier hearlier
  exact ⟨values, hconsistent.yields hget⟩

theorem blames (h : memo.Awaits w key dependency) (hconsistent : memo.Consistent w)
    (hnot : ¬ w.Resolvable dependency) : w.Blames key dependency := by
  obtain ⟨before, after, hdeps, hbefore⟩ := h
  refine ⟨before, after, hdeps, fun earlier hearlier => ?_, hnot⟩
  obtain ⟨values, hget⟩ := hbefore earlier hearlier
  exact ⟨values, hconsistent.yields hget⟩

/-- Besides a key that is not resolvable, only resolved keys are touched. -/
theorem terminal_or_eq (h : memo.Awaits w key dependency) (hnot : ¬ w.Resolvable dependency)
    {touched : FlowKey} (htouched : w.Touches key touched) :
    (memo.get touched).isTerminal = true ∨ touched = dependency := by
  obtain ⟨before, after, hdeps, hbefore⟩ := h
  rcases htouched.mem_before_or_eq hdeps hnot with hmem | heq
  · obtain ⟨values, hget⟩ := hbefore touched hmem
    exact Or.inl (by rw [hget]; rfl)
  · exact Or.inr heq

end Memo.Awaits

namespace Blocker

variable {memo : Memo} {key : FlowKey}

theorem resolved_of_find?_eq_none (h : find? memo (w.dependencies key) = none) :
    ∀ dependency ∈ w.dependencies key, ∃ values, memo.get dependency = .resolved values := by
  intro dependency hd
  have hnone := List.findSome?_eq_none_iff.mp h dependency hd
  cases hget : memo.get dependency with
  | resolved values => exact ⟨values, rfl⟩
  | unresolved => simp [hget, ofEntry?] at hnone
  | resolving => simp [hget, ofEntry?] at hnone
  | failed error => simp [hget, ofEntry?] at hnone

theorem awaits_of_find?_eq_some {blocker : Blocker}
    (h : find? memo (w.dependencies key) = some blocker) :
    ∃ dependency, memo.Awaits w key dependency ∧
      ofEntry? dependency (memo.get dependency) = some blocker := by
  obtain ⟨before, dependency, after, hdeps, hblocker, hbefore⟩ := List.findSome?_eq_some_iff.mp h
  refine ⟨dependency, ⟨before, after, hdeps, fun earlier hearlier => ?_⟩, hblocker⟩
  have hnone := hbefore earlier hearlier
  cases hget : memo.get earlier with
  | resolved values => exact ⟨values, rfl⟩
  | unresolved => simp [hget, ofEntry?] at hnone
  | resolving => simp [hget, ofEntry?] at hnone
  | failed error => simp [hget, ofEntry?] at hnone

end Blocker

namespace Memo

variable {memo : Memo}

theorem evaluated_set_resolving {key : FlowKey} (hget : memo.get key = .unresolved) :
    evaluated w (memo.set key .resolving) = evaluated w memo := by
  refine evaluated_eq_of_iff fun k => ?_
  by_cases heq : k = key
  · subst heq
    rw [get_set_self _ (covers_of_get_unresolved hget), hget]
    simp [Entry.isTerminal]
  · rw [get_set_ne memo _ heq]

theorem evaluated_set_resolved {key : FlowKey} {values : List Parameter}
    (hkey : w.HasKey key) (hcovers : memo.Covers key) (hready : w.Ready key) :
    evaluated w (memo.set key (.resolved values)) = insert key (evaluated w memo) := by
  ext k
  simp only [evaluated, Set.mem_insert_iff, Set.mem_ofPred_eq]
  by_cases heq : k = key
  · subst heq
    simp [get_set_self _ hcovers, Entry.isTerminal, hkey, hready]
  · simp [get_set_ne memo _ heq, heq]

theorem evaluated_setAll_failed {keys : List FlowKey} {error : ResolveError}
    (hkeys : ∀ key ∈ keys, w.HasKey key) (hcovers : ∀ key ∈ keys, memo.Covers key) :
    evaluated w (memo.setAll keys (.failed error)) =
      evaluated w memo ∪ {key | key ∈ keys ∧ w.Ready key} := by
  ext k
  simp only [evaluated, Set.mem_union, Set.mem_ofPred_eq, get_setAll]
  by_cases hmem : k ∈ keys
  · simp [hmem, hcovers k hmem, hkeys k hmem, Entry.isTerminal]
  · simp [hmem]

end Memo

/-- The keys of a circle of dependencies are not resolvable. -/
theorem Wiring.not_resolvable_of_isChain {start : FlowKey} {rest : List FlowKey}
    (h : (start :: rest ++ [start]).IsChain w.Needs) :
    ∀ key ∈ start :: rest ++ [start], ¬ w.Resolvable key := by
  have hpath : (start :: rest ++ [start]).IsChain (TransGen w.Needs) := h.imp fun _ _ => .single
  have hback : ∀ key ∈ start :: rest, TransGen w.Needs key start := fun key hkey =>
    (List.pairwise_append.mp hpath.pairwise).2.2 key hkey start List.mem_cons_self
  have hstart : ¬ w.Resolvable start := fun hresolvable =>
    hresolvable.not_transGen_self (hback start List.mem_cons_self)
  intro key hkey hresolvable
  rcases List.mem_append.mp hkey with hmem | hlast
  · exact hstart (hresolvable.of_transGen (hback key hmem))
  · exact hstart (List.mem_singleton.mp hlast ▸ hresolvable)

/-- The ledger between two requests: its entries are outcomes, no key is being resolved, and the
number of evaluations is that of the keys that have been evaluated. -/
structure Ledger.Settled (w : Wiring) (ledger : Ledger) : Prop where
  consistent : ledger.memo.Consistent w
  idle : ∀ key, ledger.memo.get key ≠ .resolving
  counted : ledger.evaluations = (ledger.memo.evaluated w).ncard

/-- What a walk from `origin` to `target` keeps true of the memo: it keeps what was settled, and
settles only what the target touches. -/
structure Memo.Reaches (w : Wiring) (origin : Memo) (target : FlowKey) (memo : Memo) : Prop where
  keeps : ∀ key, (origin.get key).isTerminal = true → memo.get key = origin.get key
  within : ∀ key, (memo.get key).isTerminal = true →
    (origin.get key).isTerminal = true ∨ ReflTransGen w.Touches target key

/-- A memo that keeps what is settled, and settles besides only what the target touches. -/
theorem Memo.Reaches.advance {origin memo next : Memo} {target : FlowKey}
    (h : origin.Reaches w target memo)
    (hkeep : ∀ key, (memo.get key).isTerminal = true → next.get key = memo.get key)
    (hnew : ∀ key, (next.get key).isTerminal = true →
      (memo.get key).isTerminal = true ∨ ReflTransGen w.Touches target key) :
    origin.Reaches w target next := by
  constructor
  · intro key hkey
    have hold := h.keeps key hkey
    exact (hkeep key (hold ▸ hkey)).trans hold
  · intro key hkey
    rcases hnew key hkey with hterminal | htouched
    · exact h.within key hterminal
    · exact Or.inr htouched

namespace Walk

/-- The invariant of a walk. -/
structure Coherent (w : Wiring) (origin : Memo) (target : FlowKey) (walk : Walk) : Prop where
  consistent : walk.ledger.memo.Consistent w
  counted : walk.ledger.evaluations = (walk.ledger.memo.evaluated w).ncard
  reaches : origin.Reaches w target walk.ledger.memo
  nodup : walk.pile.Nodup
  resolving_iff : ∀ key, walk.ledger.memo.get key = .resolving ↔ key ∈ walk.pile
  linked : walk.pile.IsChain fun above below => walk.ledger.memo.Awaits w below above
  touched : ∀ key ∈ walk.pile, ReflTransGen w.Touches target key
  bottom : walk.pile.getLast? = some target ∨
    walk.pile = [] ∧ ∃ values, walk.ledger.memo.get target = .resolved values

end Walk

/-- A demand for `target` has ended: the ledger is settled again and the answer is the entry of the
target. -/
structure Arrival.Lands (w : Wiring) (origin : Memo) (target : FlowKey) (arrival : Arrival) :
    Prop where
  settled : arrival.ledger.Settled w
  reaches : origin.Reaches w target arrival.ledger.memo
  answer : (arrival.result = .ok () ∧
      ∃ values, arrival.ledger.memo.get target = .resolved values) ∨
    ∃ error, arrival.result = .error error ∧ arrival.ledger.memo.get target = .failed error

namespace Walk

namespace Coherent

variable {origin : Memo} {target : FlowKey} {walk : Walk}

theorem covers (h : Coherent w origin target walk) {key : FlowKey} (hkey : key ∈ walk.pile) :
    walk.ledger.memo.Covers key := by
  refine Classical.byContradiction fun hnot => ?_
  have hget := (h.resolving_iff key).mpr hkey
  rw [Memo.get_of_not_covers hnot] at hget
  cases hget

theorem hasKey (h : Coherent w origin target walk) {key : FlowKey} (hkey : key ∈ walk.pile) :
    w.HasKey key :=
  (h.consistent.covers key).mp (h.covers hkey)

/-- Every key below the top of the pile blames the one above it, once the top fails. -/
theorem blames_of_faults {memo : Memo} (hconsistent : memo.Consistent w) {top : FlowKey}
    {below : List FlowKey} {error : ResolveError}
    (hlinked : (top :: below).IsChain fun above below => memo.Awaits w below above)
    (htop : w.Faults top error) :
    ∀ key ∈ below, w.Faults key error ∧
      ∃ above ∈ top :: below, memo.Awaits w key above ∧ ¬ w.Resolvable above := by
  induction below generalizing top with
  | nil => exact fun key hkey => absurd hkey List.not_mem_nil
  | cons next rest ih =>
      have hawaits : memo.Awaits w next top := hlinked.rel_head? rfl
      have hnext : w.Faults next error :=
        .blames (hawaits.blames hconsistent htop.not_resolvable) htop
      intro key hkey
      rcases List.mem_cons.mp hkey with rfl | hrest
      · exact ⟨hnext, top, List.mem_cons_self, hawaits, htop.not_resolvable⟩
      · obtain ⟨hfault, above, habove, hawaited⟩ := ih hlinked.tail hnext key hrest
        exact ⟨hfault, above, List.mem_cons_of_mem _ habove, hawaited⟩

/-- A failure of the top fails the whole pile, and leaves the memo consistent. -/
theorem consistent_setAll_pile (h : Coherent w origin target walk) {top : FlowKey}
    {below : List FlowKey} (hpile : walk.pile = top :: below) {error : ResolveError}
    (hfault : w.Faults top error)
    (htouched : ∀ dependency, w.Touches top dependency →
      (walk.ledger.memo.get dependency).isTerminal = true ∨ dependency ∈ walk.pile)
    (hcircle : ∀ c, error = .cycle c → ∀ member ∈ c.chain,
      walk.ledger.memo.get member = .failed error ∨ member ∈ walk.pile) :
    (walk.ledger.memo.setAll walk.pile (.failed error)).Consistent w := by
  have hbelow := blames_of_faults h.consistent (hpile ▸ h.linked) hfault
  refine h.consistent.setAll_failed (fun key => (h.resolving_iff key).mpr) (fun key hkey => ?_)
    (fun key hkey dependency hdependency => ?_) hcircle
  · rw [hpile] at hkey
    rcases List.mem_cons.mp hkey with rfl | hmem
    · exact hfault
    · exact (hbelow key hmem).1
  · rw [hpile] at hkey
    rcases List.mem_cons.mp hkey with rfl | hmem
    · exact htouched dependency hdependency
    · obtain ⟨_, above, habove, hawaits, hnot⟩ := hbelow key hmem
      rcases hawaits.terminal_or_eq hnot hdependency with hterminal | rfl
      · exact Or.inl hterminal
      · exact Or.inr (hpile ▸ habove)

theorem get_setAll_pile (h : Coherent w origin target walk) (entry : Entry) (key : FlowKey) :
    (walk.ledger.memo.setAll walk.pile entry).get key =
      if key ∈ walk.pile then entry else walk.ledger.memo.get key := by
  rw [Memo.get_setAll]
  by_cases hkey : key ∈ walk.pile
  · rw [if_pos ⟨hkey, h.covers hkey⟩, if_pos hkey]
  · rw [if_neg fun hboth => hkey hboth.1, if_neg hkey]

/-- Of a pile that fails, only the top can have been evaluated. -/
theorem evaluated_setAll_pile (h : Coherent w origin target walk) {top : FlowKey}
    {below : List FlowKey} (hpile : walk.pile = top :: below) {error : ResolveError}
    (hfault : w.Faults top error) :
    (walk.ledger.memo.setAll walk.pile (.failed error)).evaluated w =
      walk.ledger.memo.evaluated w ∪ {key | key = top ∧ w.Ready top} := by
  rw [Memo.evaluated_setAll_failed (fun key => h.hasKey) fun key => h.covers]
  have hbelow := blames_of_faults h.consistent (hpile ▸ h.linked) hfault
  congr 1
  ext key
  simp only [Set.mem_ofPred_eq, hpile, List.mem_cons]
  constructor
  · rintro ⟨rfl | hmem, hready⟩
    · exact ⟨rfl, hready⟩
    · obtain ⟨_, above, _, hawaits, hnot⟩ := hbelow key hmem
      exact absurd hready (hawaits.blames h.consistent hnot).not_ready
  · rintro ⟨rfl, hready⟩
    exact ⟨Or.inl rfl, hready⟩

/-- Where the top of the pile fails, the walk ends with the whole pile failed. -/
theorem lands_of_faults (h : Coherent w origin target walk) {top : FlowKey} {below : List FlowKey}
    (hpile : walk.pile = top :: below) {error : ResolveError} (hfault : w.Faults top error)
    (htouched : ∀ dependency, w.Touches top dependency →
      (walk.ledger.memo.get dependency).isTerminal = true ∨ dependency ∈ walk.pile)
    (hcircle : ∀ c, error = .cycle c → ∀ member ∈ c.chain,
      walk.ledger.memo.get member = .failed error ∨ member ∈ walk.pile)
    {failing : Walk} (hmemo : failing.ledger.memo = walk.ledger.memo)
    (hsame : failing.pile = walk.pile)
    (hcounted : failing.ledger.evaluations =
      (walk.ledger.memo.evaluated w ∪ {key | key = top ∧ w.Ready top}).ncard) :
    (failing.fail error).Lands w origin target := by
  have hledger : (failing.fail error).ledger.memo =
      walk.ledger.memo.setAll walk.pile (.failed error) := by
    simp only [fail, hmemo, hsame]
  have hget : ∀ key, (failing.fail error).ledger.memo.get key =
      if key ∈ walk.pile then .failed error else walk.ledger.memo.get key := by
    intro key
    rw [hledger, h.get_setAll_pile]
  have htarget : target ∈ walk.pile := by
    rcases h.bottom with hlast | ⟨hnil, _⟩
    · exact List.mem_of_getLast? hlast
    · rw [hpile] at hnil
      cases hnil
  refine
    { settled := ⟨hledger ▸ h.consistent_setAll_pile hpile hfault htouched hcircle, fun key => ?stops,
        ?counted⟩
      reaches := h.reaches.advance (fun key hkey => ?keeps) fun key hkey => ?within
      answer := Or.inr ⟨error, rfl, (hget target).trans (if_pos htarget)⟩ }
  case stops =>
    rw [hget]
    split
    · exact fun heq => by cases heq
    · rename_i hnot
      exact mt (h.resolving_iff key).mp hnot
  case counted =>
    rw [hledger, h.evaluated_setAll_pile hpile hfault]
    exact hcounted
  case keeps =>
    have hnot : key ∉ walk.pile := by
      intro hmem
      rw [(h.resolving_iff key).mpr hmem] at hkey
      cases hkey
    exact (hget key).trans (if_neg hnot)
  case within =>
    rw [hget] at hkey
    split at hkey
    · rename_i hmem
      exact Or.inr (h.touched key hmem)
    · exact Or.inl hkey

theorem circle_eq_around {pile above under : List FlowKey} {key : FlowKey}
    (hpile : pile = above ++ key :: under) (hnot : key ∉ above) :
    circle pile key = .around (key :: above.reverse) := by
  have htake : pile.takeWhile (· ≠ key) = above := by
    rw [hpile, List.takeWhile_append_of_pos fun k hk => by
      simpa using fun heq : k = key => hnot (heq ▸ hk)]
    simp
  simp only [circle, htake]
  rfl

/-- A key of the pile that the top awaits closes a circle. -/
theorem closes_circle (h : Coherent w origin target walk) {top : FlowKey} {below : List FlowKey}
    (hpile : walk.pile = top :: below) {key : FlowKey} (hkey : key ∈ walk.pile)
    (hawaits : walk.ledger.memo.Awaits w top key) :
    w.Closes key (circle walk.pile key) ∧ ¬ w.Resolvable key := by
  obtain ⟨above, under, hsplit, hnotMem⟩ := List.eq_append_cons_of_mem hkey
  have hinit : (above ++ [key]) <+: walk.pile := ⟨under, by rw [hsplit]; simp⟩
  have hchain : (key :: above.reverse ++ [key]).IsChain (walk.ledger.memo.Awaits w) := by
    refine List.isChain_append.mpr ⟨?_, List.isChain_singleton _, ?_⟩
    · have hreverse : (above ++ [key]).reverse = key :: above.reverse := by simp
      rw [← hreverse, List.isChain_reverse]
      exact h.linked.prefix hinit
    · intro last hlast first hfirst
      have htop : last = top := by
        have hhead : (above ++ [key]).head? = some top := by
          have hpileHead : walk.pile.head? = some top := by rw [hpile]; rfl
          rw [← hpileHead, hsplit]
          cases above <;> rfl
        have hreverse : (key :: above.reverse).getLast? = (above ++ [key]).head? := by
          rw [← List.getLast?_reverse]
          simp
        rw [hreverse, hhead] at hlast
        exact (Option.some.inj hlast).symm
      rw [htop, ← Option.some.inj hfirst]
      exact hawaits
  have hnot := Wiring.not_resolvable_of_isChain (hchain.imp fun _ _ hstep =>
    (hstep.touches h.consistent).needs)
  rw [circle_eq_around hsplit hnotMem]
  refine ⟨⟨above.reverse, rfl, ?_, ?_⟩, hnot key List.mem_cons_self⟩
  · rw [List.nodup_cons, List.nodup_reverse, List.mem_reverse]
    exact ⟨hnotMem, (hinit.sublist.nodup h.nodup).of_append_left⟩
  · exact hchain.imp_of_mem_imp fun _ next _ hnext hstep =>
      hstep.blames h.consistent (hnot next hnext)

/-- A dependency of which nothing is known goes onto the pile. -/
theorem push (h : Coherent w origin target walk) {top : FlowKey} {below : List FlowKey}
    (hpile : walk.pile = top :: below) {key : FlowKey}
    (hawaits : walk.ledger.memo.Awaits w top key)
    (hget : walk.ledger.memo.get key = .unresolved) : Coherent w origin target (walk.push key) := by
  have hself : (walk.ledger.memo.set key .resolving).get key = .resolving :=
    Memo.get_set_self _ (Memo.covers_of_get_unresolved hget)
  have hother : ∀ k, k ≠ key →
      (walk.ledger.memo.set key .resolving).get k = walk.ledger.memo.get k := fun k hk =>
    Memo.get_set_ne _ _ hk
  have hkeep : ∀ k, (walk.ledger.memo.get k).isTerminal = true →
      (walk.ledger.memo.set key .resolving).get k = walk.ledger.memo.get k := by
    intro k hk
    refine hother k fun heq => ?_
    rw [heq, hget] at hk
    cases hk
  have hnew : ∀ k, ((walk.ledger.memo.set key .resolving).get k).isTerminal = true →
      (walk.ledger.memo.get k).isTerminal = true := by
    intro k hk
    by_cases heq : k = key
    · rw [heq, hself] at hk
      cases hk
    · rwa [hother k heq] at hk
  have hfresh : key ∉ walk.pile := by
    intro hmem
    rw [(h.resolving_iff key).mpr hmem] at hget
    cases hget
  refine
    { consistent := h.consistent.set_resolving hget
      counted := h.counted.trans (congrArg Set.ncard (Memo.evaluated_set_resolving hget).symm)
      reaches := h.reaches.advance hkeep fun k hk => Or.inl (hnew k hk)
      nodup := List.nodup_cons.mpr ⟨hfresh, h.nodup⟩
      resolving_iff := fun k => ?resolving
      linked := List.isChain_cons.mpr ⟨fun next hnext => ?linked, ?rest⟩
      touched := fun k hk => ?touched
      bottom := ?bottom }
  case resolving =>
    simp only [Walk.push, List.mem_cons]
    by_cases heq : k = key
    · subst heq
      simp [hself]
    · rw [hother k heq, h.resolving_iff]
      simp [heq]
  case linked =>
    rw [hpile] at hnext
    rw [← Option.some.inj hnext]
    exact hawaits.mono hkeep
  case rest => exact h.linked.imp fun _ _ hstep => hstep.mono hkeep
  case touched =>
    rcases List.mem_cons.mp hk with rfl | hmem
    · have htop : ReflTransGen w.Touches target top :=
        h.touched top (hpile ▸ List.mem_cons_self)
      exact htop.tail (hawaits.touches h.consistent)
    · exact h.touched k hmem
  case bottom =>
    rcases h.bottom with hlast | ⟨hnil, _⟩
    · exact Or.inl (by simp only [Walk.push, List.getLast?_cons, hlast, Option.getD_some])
    · rw [hpile] at hnil
      cases hnil

/-- The top of the pile takes the values that evaluation gives it, and leaves the pile. -/
theorem pop (h : Coherent w origin target walk) {top : FlowKey} {below : List FlowKey}
    (hpile : walk.pile = top :: below) (hsupports : w.Supports walk.ledger.memo top)
    {values : List Parameter} (hevaluate : w.evaluate walk.ledger.memo top = .ok values)
    {next : Walk} (hmemo : next.ledger.memo = walk.ledger.memo.set top (.resolved values))
    (hcount : next.ledger.evaluations = walk.ledger.evaluations + 1) (hrest : next.pile = below) :
    Coherent w origin target next := by
  have hmem : top ∈ walk.pile := hpile ▸ List.mem_cons_self
  have hresolving : walk.ledger.memo.get top = .resolving := (h.resolving_iff top).mpr hmem
  have hself : next.ledger.memo.get top = .resolved values := by
    rw [hmemo, Memo.get_set_self _ (h.covers hmem)]
  have hother : ∀ k, k ≠ top → next.ledger.memo.get k = walk.ledger.memo.get k := fun k hk => by
    rw [hmemo, Memo.get_set_ne _ _ hk]
  have hkeep : ∀ k, (walk.ledger.memo.get k).isTerminal = true →
      next.ledger.memo.get k = walk.ledger.memo.get k := by
    intro k hk
    refine hother k fun heq => ?_
    rw [heq, hresolving] at hk
    cases hk
  have hnew : ∀ k, (next.ledger.memo.get k).isTerminal = true →
      (walk.ledger.memo.get k).isTerminal = true ∨ ReflTransGen w.Touches target k := by
    intro k hk
    by_cases heq : k = top
    · exact Or.inr (heq ▸ h.touched top hmem)
    · rw [hother k heq] at hk
      exact Or.inl hk
  have hnot : top ∉ walk.ledger.memo.evaluated w := by
    intro hevaluated
    have hterminal := hevaluated.2.1
    rw [hresolving] at hterminal
    cases hterminal
  have hnodup : top ∉ below ∧ below.Nodup := List.nodup_cons.mp (hpile ▸ h.nodup)
  refine
    { consistent := hmemo ▸ h.consistent.set_resolved hresolving hsupports hevaluate
      counted := ?counted
      reaches := h.reaches.advance hkeep hnew
      nodup := hrest ▸ hnodup.2
      resolving_iff := fun k => ?resolving
      linked := ?linked
      touched := fun k hk => ?touched
      bottom := ?bottom }
  case counted =>
    rw [hcount, h.counted, hmemo,
      Memo.evaluated_set_resolved (h.hasKey hmem) (h.covers hmem) hsupports.ready,
      Set.ncard_insert_of_notMem hnot (Memo.finite_evaluated w _)]
  case resolving =>
    rw [hrest]
    by_cases heq : k = top
    · subst heq
      rw [hself]
      exact iff_of_false (fun hbad => by cases hbad) hnodup.1
    · rw [hother k heq, h.resolving_iff, hpile]
      simp [heq]
  case linked =>
    rw [hrest]
    have htail := hpile ▸ h.linked
    exact htail.tail.imp fun _ _ hstep => hstep.mono hkeep
  case touched =>
    rw [hrest] at hk
    exact h.touched k (hpile ▸ List.mem_cons_of_mem _ hk)
  case bottom =>
    rw [hrest]
    rcases h.bottom with hlast | ⟨hnil, _⟩
    · cases below with
      | nil =>
          have htop : top = target := by simpa [hpile] using hlast
          exact Or.inr ⟨rfl, values, htop ▸ hself⟩
      | cons second others =>
          rw [hpile, List.getLast?_cons_cons] at hlast
          exact Or.inl hlast
    · rw [hpile] at hnil
      cases hnil

/-- A walk whose pile is empty has resolved its target. -/
theorem lands_of_nil (h : Coherent w origin target walk) (hpile : walk.pile = []) :
    (⟨.ok (), walk.ledger, walk.events⟩ : Arrival).Lands w origin target := by
  refine ⟨⟨h.consistent, fun key hkey => ?_, h.counted⟩, h.reaches, Or.inl ⟨rfl, ?_⟩⟩
  · have hmem := (h.resolving_iff key).mp hkey
    rw [hpile] at hmem
    exact absurd hmem List.not_mem_nil
  · rcases h.bottom with hlast | ⟨_, hresolved⟩
    · rw [hpile] at hlast
      cases hlast
    · exact hresolved

/-- A walk that is blocked by a failed dependency of the top ends with that failure. -/
theorem lands_of_failed (h : Coherent w origin target walk) {top : FlowKey} {below : List FlowKey}
    (hpile : walk.pile = top :: below) {key : FlowKey} {error : ResolveError}
    (hawaits : walk.ledger.memo.Awaits w top key)
    (hget : walk.ledger.memo.get key = .failed error) :
    (walk.fail error).Lands w origin target := by
  have hfault : w.Faults key error := h.consistent.faults hget
  have hblames := hawaits.blames h.consistent hfault.not_resolvable
  refine h.lands_of_faults hpile (.blames hblames hfault) (fun dependency hdependency => ?_)
    (fun c hc member hmember => ?_) rfl rfl ?_
  · rcases hawaits.terminal_or_eq hfault.not_resolvable hdependency with hterminal | rfl
    · exact Or.inl hterminal
    · exact Or.inl (by rw [hget]; rfl)
  · subst hc
    exact Or.inl (h.consistent.circle hget member hmember)
  · have hnone : {k | k = top ∧ w.Ready top} = ∅ := by
      ext k
      simp [hblames.not_ready]
    rw [hnone, Set.union_empty]
    exact h.counted

/-- A walk that comes back to a key of its pile ends with the circle. -/
theorem lands_of_resolving (h : Coherent w origin target walk) {top : FlowKey}
    {below : List FlowKey} (hpile : walk.pile = top :: below) {key : FlowKey}
    (hawaits : walk.ledger.memo.Awaits w top key)
    (hget : walk.ledger.memo.get key = .resolving) :
    (walk.fail (.cycle (circle walk.pile key))).Lands w origin target := by
  have hkey : key ∈ walk.pile := (h.resolving_iff key).mp hget
  obtain ⟨hcloses, hnot⟩ := h.closes_circle hpile hkey hawaits
  have hblames := hawaits.blames h.consistent hnot
  refine h.lands_of_faults hpile (.blames hblames (.closes hcloses))
    (fun dependency hdependency => ?_) (fun c hc member hmember => ?_) rfl rfl ?_
  · rcases hawaits.terminal_or_eq hnot hdependency with hterminal | rfl
    · exact Or.inl hterminal
    · exact Or.inr hkey
  · obtain rfl := ResolveError.cycle.inj hc
    simp only [circle, List.mem_append, List.mem_cons, List.mem_reverse, List.not_mem_nil,
      or_false] at hmember
    rcases hmember with (rfl | htaken) | rfl
    · exact Or.inr hkey
    · exact Or.inr ((List.takeWhile_sublist _).mem htaken)
    · exact Or.inr hkey
  · have hnone : {k | k = top ∧ w.Ready top} = ∅ := by
      ext k
      simp [hblames.not_ready]
    rw [hnone, Set.union_empty]
    exact h.counted

/-- A walk whose top refuses the values of its dependencies ends with that refusal. -/
theorem lands_of_refuses (h : Coherent w origin target walk) {top : FlowKey} {below : List FlowKey}
    (hpile : walk.pile = top :: below) (hsupports : w.Supports walk.ledger.memo top)
    {error : ResolveError} (hevaluate : w.evaluate walk.ledger.memo top = .error error)
    {failing : Walk} (hmemo : failing.ledger.memo = walk.ledger.memo)
    (hsame : failing.pile = walk.pile)
    (hcount : failing.ledger.evaluations = walk.ledger.evaluations + 1) :
    (failing.fail error).Lands w origin target := by
  have hmem : top ∈ walk.pile := hpile ▸ List.mem_cons_self
  refine h.lands_of_faults hpile (.refuses ⟨_, hsupports, hevaluate⟩)
    (fun dependency hdependency => ?_) (fun c hc => ?_) hmemo hsame ?_
  · obtain ⟨values, hget, _⟩ := hsupports dependency hdependency.needs
    exact Or.inl (by rw [hget]; rfl)
  · obtain ⟨mismatch, hmismatch⟩ := Wiring.exists_mismatch_of_evaluate hevaluate
    rw [hmismatch] at hc
    cases hc
  · have hnot : top ∉ walk.ledger.memo.evaluated w := by
      intro hevaluated
      have hterminal := hevaluated.2.1
      rw [(h.resolving_iff top).mpr hmem] at hterminal
      cases hterminal
    have hone : walk.ledger.memo.evaluated w ∪ {k | k = top ∧ w.Ready top} =
        insert top (walk.ledger.memo.evaluated w) := by
      ext k
      simp [hsupports.ready]
    rw [hone, Set.ncard_insert_of_notMem hnot (Memo.finite_evaluated w _), hcount, h.counted]

/-- What a step does: it ends where the pile is empty, piles up a dependency of which nothing is
known, fails with a circle or with a failed dependency, or evaluates the key on top. -/
theorem step_cases (h : Coherent w origin target walk) (trace : Bool) :
    (walk.pile = [] ∧ walk.step w trace = .inr ⟨.ok (), walk.ledger, walk.events⟩) ∨
      ∃ top below, walk.pile = top :: below ∧
        ((∃ key, walk.ledger.memo.Awaits w top key ∧ walk.ledger.memo.get key = .unresolved ∧
            walk.step w trace = .inl (walk.push key)) ∨
          (∃ key, walk.ledger.memo.Awaits w top key ∧ walk.ledger.memo.get key = .resolving ∧
            walk.step w trace = .inr (walk.fail (.cycle (circle walk.pile key)))) ∨
          (∃ key error, walk.ledger.memo.Awaits w top key ∧
            walk.ledger.memo.get key = .failed error ∧
            walk.step w trace = .inr (walk.fail error)) ∨
          (w.Supports walk.ledger.memo top ∧
            walk.step w trace = walk.evaluate w trace top below)) := by
  cases hpile : walk.pile with
  | nil => exact Or.inl ⟨rfl, by simp only [Walk.step, hpile]⟩
  | cons top below =>
      refine Or.inr ⟨top, below, rfl, ?_⟩
      cases hfind : Blocker.find? walk.ledger.memo (w.dependencies top) with
      | none =>
          have hsupports := h.consistent.supports (Blocker.resolved_of_find?_eq_none hfind)
          exact Or.inr (Or.inr (Or.inr ⟨hsupports, by simp only [Walk.step, hpile, hfind]⟩))
      | some blocker =>
          obtain ⟨key, hawaits, hblocker⟩ := Blocker.awaits_of_find?_eq_some hfind
          cases hget : walk.ledger.memo.get key with
          | resolved values => simp [hget, Blocker.ofEntry?] at hblocker
          | unresolved =>
              obtain rfl : Blocker.fresh key = blocker := by
                simpa [hget, Blocker.ofEntry?] using hblocker
              exact Or.inl ⟨key, hawaits, hget, by simp only [Walk.step, hpile, hfind]⟩
          | resolving =>
              obtain rfl : Blocker.inProgress key = blocker := by
                simpa [hget, Blocker.ofEntry?] using hblocker
              exact Or.inr (Or.inl ⟨key, hawaits, hget, by simp only [Walk.step, hpile, hfind]⟩)
          | failed error =>
              obtain rfl : Blocker.failed error = blocker := by
                simpa [hget, Blocker.ofEntry?] using hblocker
              exact Or.inr (Or.inr (Or.inl
                ⟨key, error, hawaits, hget, by simp only [Walk.step, hpile, hfind]⟩))

/-- The invariant holds of the next walk; or the walk is over, and has ended as it should. -/
def Continues (w : Wiring) (origin : Memo) (target : FlowKey) : Walk ⊕ Arrival → Prop
  | .inl next => Coherent w origin target next
  | .inr arrival => arrival.Lands w origin target

theorem evaluate (h : Coherent w origin target walk) (trace : Bool) {top : FlowKey}
    {below : List FlowKey} (hpile : walk.pile = top :: below)
    (hsupports : w.Supports walk.ledger.memo top) :
    Continues w origin target (walk.evaluate w trace top below) := by
  cases hevaluate : w.evaluate walk.ledger.memo top with
  | error error =>
      simp only [Walk.evaluate, hevaluate]
      exact h.lands_of_refuses hpile hsupports hevaluate rfl rfl rfl
  | ok values =>
      simp only [Walk.evaluate, hevaluate]
      exact h.pop hpile hsupports hevaluate rfl rfl rfl

/-- A step keeps the invariant, or ends the walk as it should end. -/
theorem step (h : Coherent w origin target walk) (trace : Bool) :
    Continues w origin target (walk.step w trace) := by
  rcases h.step_cases trace with ⟨hpile, hstep⟩ | ⟨top, below, hpile,
    ⟨key, hawaits, hget, hstep⟩ | ⟨key, hawaits, hget, hstep⟩ | ⟨key, error, hawaits, hget, hstep⟩ |
    ⟨hsupports, hstep⟩⟩
  · rw [hstep]
    exact h.lands_of_nil hpile
  · rw [hstep]
    exact h.push hpile hawaits hget
  · rw [hstep]
    exact h.lands_of_resolving hpile hawaits hget
  · rw [hstep]
    exact h.lands_of_failed hpile hawaits hget
  · rw [hstep]
    exact h.evaluate trace hpile hsupports

/-- However many steps a walk takes: if it ends, it ends as it should. -/
theorem run (h : Coherent w origin target walk) {trace : Bool} {n : Nat} {arrival : Arrival}
    (hrun : Walk.run w trace n walk = .inr arrival) : arrival.Lands w origin target := by
  induction n generalizing walk with
  | zero => cases hrun
  | succ n ih =>
      have hcontinues := h.step trace
      rw [Walk.run] at hrun
      cases hstep : walk.step w trace with
      | inl next =>
          rw [hstep] at hrun hcontinues
          exact ih hcontinues hrun
      | inr last =>
          rw [hstep] at hrun hcontinues
          obtain rfl := Sum.inr.inj hrun
          exact hcontinues

end Coherent

/-- A walk may start from a settled ledger to a key of which nothing is known. -/
theorem coherent_start {ledger : Ledger} (h : ledger.Settled w) {key : FlowKey}
    (hget : ledger.memo.get key = .unresolved) :
    Coherent w ledger.memo key (start ledger key) := by
  have hself : (ledger.memo.set key .resolving).get key = .resolving :=
    Memo.get_set_self _ (Memo.covers_of_get_unresolved hget)
  have hother : ∀ k, k ≠ key →
      (ledger.memo.set key .resolving).get k = ledger.memo.get k := fun k hk =>
    Memo.get_set_ne _ _ hk
  refine ⟨h.consistent.set_resolving hget, ?_, ⟨fun k hk => ?_, fun k hk => ?_⟩,
    List.nodup_singleton key, fun k => ?_, List.isChain_singleton key, fun k hk => ?_, Or.inl rfl⟩
  · exact h.counted.trans (congrArg Set.ncard (Memo.evaluated_set_resolving hget).symm)
  · refine hother k fun heq => ?_
    rw [heq, hget] at hk
    cases hk
  · by_cases heq : k = key
    · simp only [start, heq, hself] at hk
      cases hk
    · simp only [start, hother k heq] at hk
      exact Or.inl hk
  · simp only [start, List.mem_singleton]
    by_cases heq : k = key
    · simp [heq, hself]
    · simp [heq, hother k heq, h.idle k]
  · rw [List.mem_singleton.mp hk]

theorem lands_toEnd {ledger : Ledger} (h : ledger.Settled w) {key : FlowKey}
    (hget : ledger.memo.get key = .unresolved) (trace : Bool) :
    (toEnd w trace ledger key).Lands w ledger.memo key :=
  (coherent_start h hget).run (Sum.inr_getRight _ _).symm

end Walk

/-- A demand on a settled ledger: the ledger is settled again, what was settled is kept, only what
the key touches is settled in addition, and the answer is the entry of the key. -/
theorem Ledger.Settled.demand {ledger : Ledger} (h : ledger.Settled w) (trace : Bool)
    (key : FlowKey) : (ledger.demand w trace key).Lands w ledger.memo key := by
  have hstay : ledger.memo.Reaches w key ledger.memo := ⟨fun _ _ => rfl, fun _ => Or.inl⟩
  cases hget : ledger.memo.get key with
  | resolved values =>
      simp only [Ledger.demand, hget]
      exact ⟨h, hstay, Or.inl ⟨rfl, values, hget⟩⟩
  | failed error =>
      simp only [Ledger.demand, hget]
      exact ⟨h, hstay, Or.inr ⟨error, rfl, hget⟩⟩
  | unresolved =>
      simp only [Ledger.demand, hget]
      exact Walk.lands_toEnd h hget trace
  | resolving => exact absurd hget (h.idle key)

end Negotiation
