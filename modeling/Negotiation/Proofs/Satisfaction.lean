import Mathlib.Order.Bounds.Basic
import Negotiation.Proofs.GroupOutcome
import Negotiation.Proofs.Snapshot

/-!
What a merge under a policy comes to.

A value that is still open stands for the numbers that it admits, and settles on the largest of them
(`Value.isGreatest_of_settle?`); what satisfies two values admits the numbers that both admit
(`Value.numbers_intersect?`).  So the number that is made of two is described by what the sides
admit (`Policy.settles_of_meets`), and a resolved edge satisfies both sides field by field
(`Graph.resolved_satisfies`).  In particular it has the shape that its protocol declares; a function
of an author's need not give it that shape, and what it makes is handed on as it is
(`Graph.resolved_shapes`).
-/

namespace Negotiation

namespace NumberSet

theorem le_of_max? {s : NumberSet} {m n : UInt64} (h : s.max? = some n) (hm : m ∈ s.members) :
    m ≤ n := by
  obtain ⟨rest, hmembers⟩ := List.getLast?_eq_some_iff.mp h
  have hascending := s.ascending
  rw [hmembers] at hascending hm
  rcases List.mem_append.mp hm with hrest | hlast
  · exact UInt64.le_of_lt ((List.pairwise_append.mp hascending).2.2 m hrest n List.mem_cons_self)
  · rw [List.mem_singleton.mp hlast]
    exact UInt64.le_refl n

end NumberSet

namespace WindowSet

/-- The set was built from windows, and from sets that were. -/
inductive Built : WindowSet → Prop
  | empty : Built .empty
  | ofList (windows : List Window) : Built (.ofList windows)
  | union {s t : WindowSet} (hs : Built s) (ht : Built t) : Built (s.union t)
  | intersect {s t : WindowSet} (hs : Built s) (ht : Built t) : Built (s.intersect t)

theorem Built.separated {s : WindowSet} (h : s.Built) : s.Separated := by
  induction h with
  | empty => exact List.Pairwise.nil
  | ofList windows => exact separated_ofList windows
  | union _ _ _ _ => exact separated_ofList _
  | intersect _ _ ihs iht => exact (regular_intersect ihs iht).1

end WindowSet

namespace Value

variable {a b c : Value} {n : UInt64}

/-- The numbers that a value admits. -/
def numbers (a : Value) : Set UInt64 :=
  {n | a.admits n = true}

theorem numbers_intersect? (h : a.intersect? b = some c) : c.numbers = a.numbers ∩ b.numbers :=
  Set.ext fun _ => admits_intersect? h

theorem settle?_of_kind (h : a.kind ≠ .number) : a.settle? = some a := by
  cases a with
  | num n => exact absurd rfl h
  | oneOf set => exact absurd rfl h
  | span lo hi => exact absurd rfl h
  | _ => rfl

/-- A value settles on the largest number that it admits. -/
theorem isGreatest_of_settle? (h : a.settle? = some (num n)) : IsGreatest a.numbers n := by
  refine ⟨admits_of_settle? h, ?_⟩
  intro m hm
  cases a with
  | num k =>
      cases h
      rw [eq_of_beq hm]
      exact UInt64.le_refl m
  | oneOf set =>
      obtain ⟨k, hmax, heq⟩ := Option.map_eq_some_iff.mp h
      cases heq
      exact NumberSet.le_of_max? hmax (NumberSet.contains_iff_mem.mp hm)
  | span lo hi =>
      simp only [settle?] at h
      split at h
      · cases h
        exact of_decide_eq_true (Bool.and_eq_true_iff.mp hm).2
      · cases h
  | _ => cases hm

end Value

namespace Policy

variable {policy : Policy} {a b c : Value}

/-- The number on which a policy settles where the sides admit these: the largest that both admit,
the larger or the smaller of their largest, or the largest of either if they have the same. -/
def Settles (policy : Policy) (ours theirs : Set UInt64) (n : UInt64) : Prop :=
  match policy with
  | .intersect => IsGreatest (ours ∩ theirs) n
  | .maximum => ∃ k m, IsGreatest ours k ∧ IsGreatest theirs m ∧ n = max k m
  | .minimum => ∃ k m, IsGreatest ours k ∧ IsGreatest theirs m ∧ n = min k m
  | .mustEqual => IsGreatest ours n ∧ IsGreatest theirs n

/-- The addresses on which a policy settles: those of both sides, as far as the sets were built from
windows, or those of either side if they have the same. -/
def Shares (policy : Policy) (ours theirs agreed : WindowSet) : Prop :=
  match policy with
  | .intersect => ours.Built → theirs.Built → ∀ address, agreed.contains address = true ↔
      ours.contains address = true ∧ theirs.contains address = true
  | _ => agreed = ours ∧ agreed = theirs

theorem shares_iff_eq {s t r : WindowSet} (hmeet : policy ≠ .intersect) :
    policy.Shares s t r ↔ r = s ∧ r = t := by
  cases policy with
  | intersect => exact absurd rfl hmeet
  | maximum => rfl
  | minimum => rfl
  | mustEqual => rfl

theorem settles_of_pick {n : UInt64} (hmeet : policy ≠ .intersect)
    (h : policy.pick a b = .ok (.num n)) : policy.Settles a.numbers b.numbers n := by
  obtain ⟨s, t, hs, ht, ⟨rfl, rfl⟩ | ⟨k, m, rfl, rfl, ⟨rfl, heq⟩ | ⟨rfl, heq⟩⟩⟩ :=
    exists_of_pick_eq_ok h
  · have hours := Value.isGreatest_of_settle? hs
    have htheirs := Value.isGreatest_of_settle? ht
    cases policy with
    | intersect => exact absurd rfl hmeet
    | maximum => exact ⟨n, n, hours, htheirs, Std.max_self.symm⟩
    | minimum => exact ⟨n, n, hours, htheirs, Std.min_self.symm⟩
    | mustEqual => exact ⟨hours, htheirs⟩
  · exact ⟨k, m, Value.isGreatest_of_settle? hs, Value.isGreatest_of_settle? ht, Value.num.inj heq⟩
  · exact ⟨k, m, Value.isGreatest_of_settle? hs, Value.isGreatest_of_settle? ht, Value.num.inj heq⟩

/-- Numbers that meet are a number on which the policy settles. -/
theorem settles_of_meets {n : UInt64} (h : policy.Meets a b (.num n)) :
    policy.Settles a.numbers b.numbers n := by
  by_cases hmeet : policy = .intersect
  · subst hmeet
    obtain ⟨both, hboth, hsettle⟩ := h
    have hgreatest := Value.isGreatest_of_settle? hsettle
    rwa [Value.numbers_intersect? hboth] at hgreatest
  · exact settles_of_pick hmeet ((meets_iff_pick hmeet).mp h)

/-- A value that is no number is picked only where both sides are that value. -/
theorem eq_of_pick (hkind : a.kind ≠ .number) (h : policy.pick a b = .ok c) : c = a ∧ c = b := by
  obtain ⟨s, t, hs, ht, ⟨rfl, rfl⟩ | ⟨k, m, rfl, rfl, _⟩⟩ := exists_of_pick_eq_ok h
  · have hours := Value.settle?_of_kind hkind
    obtain rfl : a = c := Option.some.inj (hours.symm.trans hs)
    have htheirs := Value.settle?_of_kind (Value.kind_of_settle? ht ▸ hkind)
    exact ⟨rfl, Option.some.inj (ht.symm.trans htheirs)⟩
  · exact absurd (Value.kind_of_settle? hs).symm hkind

/-- A symbol or a flag is met only by the same. -/
theorem eq_of_meets (hkind : a.kind = .symbol ∨ a.kind = .flag) (h : policy.Meets a b c) :
    c = a ∧ c = b := by
  obtain ⟨hnumber, haddress⟩ : a.kind ≠ .number ∧ a.kind ≠ .address := by
    rcases hkind with hsymbol | hflag
    · rw [hsymbol]
      exact ⟨nofun, nofun⟩
    · rw [hflag]
      exact ⟨nofun, nofun⟩
  by_cases hmeet : policy = .intersect
  · subst hmeet
    obtain ⟨both, hboth, hsettle⟩ := h
    rcases Value.intersect?_eq_some hboth with ⟨heq, _⟩ | ⟨rfl, rfl, _⟩ | ⟨_, _, rfl, _⟩
    · exact absurd heq hnumber
    · have hself := Value.settle?_of_kind hnumber
      obtain rfl : both = c := Option.some.inj (hself.symm.trans hsettle)
      exact ⟨rfl, rfl⟩
    · exact absurd rfl haddress
  · exact eq_of_pick hnumber ((meets_iff_pick hmeet).mp h)

/-- Address sets meet in a set that the sides share as the policy has it. -/
theorem shares_of_meets {s t : WindowSet} (h : policy.Meets (.addr s) (.addr t) c) :
    ∃ r, c = .addr r ∧ policy.Shares s t r := by
  by_cases hmeet : policy = .intersect
  · subst hmeet
    obtain ⟨both, hboth, hsettle⟩ := h
    rcases Value.intersect?_eq_some hboth with ⟨heq, _⟩ | ⟨_, _, hne⟩ | ⟨_, _, hs, ht, rfl⟩
    · cases heq
    · exact absurd rfl hne
    · cases hs
      cases ht
      refine ⟨s.intersect t, (Option.some.inj hsettle).symm, ?_⟩
      intro hs ht address
      exact WindowSet.contains_intersect hs.separated ht.separated
  · have hkind : (Value.addr s).kind ≠ .number := nofun
    obtain ⟨rfl, heq⟩ := eq_of_pick hkind ((meets_iff_pick hmeet).mp h)
    exact ⟨s, rfl, (shares_iff_eq hmeet).mpr ⟨rfl, Value.addr.inj heq⟩⟩

theorem kind_of_joins_ours {y : Option Value} (h : policy.Joins (some a) y (some c)) :
    c.kind = a.kind := by
  cases h with
  | ours _ hsettle => exact Value.kind_of_settle? hsettle
  | both hmeets => exact hmeets.kind.1

theorem kind_of_joins_theirs {x : Option Value} (h : policy.Joins x (some b) (some c)) :
    c.kind = b.kind := by
  cases h with
  | theirs _ hsettle => exact Value.kind_of_settle? hsettle
  | both hmeets => exact hmeets.kind.2

/-- The parameter is what a policy makes of a downward and an upward parameter of a protocol, field
by field. -/
structure Satisfies (policy : Policy) (protocol : Protocol) (down up value : Parameter) :
    Prop where
  /-- The fields are those that the protocol declares in either direction. -/
  fields : ∀ name, value.contains name = true ↔
    (protocol.schema .down).contains name = true ∨ (protocol.schema .up).contains name = true
  /-- Nothing is left open. -/
  concrete : ∀ {name c}, value.get? name = some c → c.isConcrete = true
  /-- Each field is of the kind that it is declared with, in either direction. -/
  declared : ∀ {name c} direction {kind}, value.get? name = some c →
    (protocol.schema direction).get? name = some kind → c.kind = kind
  /-- A field of one side only is settled. -/
  ours : ∀ {name a}, down.get? name = some a → up.get? name = none → value.get? name = a.settle?
  theirs : ∀ {name b}, down.get? name = none → up.get? name = some b → value.get? name = b.settle?
  /-- Numbers of both sides settle as the policy has it. -/
  number : ∀ {name a b}, down.get? name = some a → up.get? name = some b → a.kind = .number →
    ∃ n, value.get? name = some (.num n) ∧ policy.Settles a.numbers b.numbers n
  /-- Symbols and flags are those of both sides. -/
  same : ∀ {name a b}, down.get? name = some a → up.get? name = some b →
    a.kind = .symbol ∨ a.kind = .flag → value.get? name = some a ∧ value.get? name = some b
  /-- Addresses of both sides are shared as the policy has it. -/
  address : ∀ {name s t}, down.get? name = some (.addr s) → up.get? name = some (.addr t) →
    ∃ r, value.get? name = some (.addr r) ∧ policy.Shares s t r

/-- What parameters that fit a protocol are merged into satisfies both. -/
theorem satisfies_of_merge {protocol : Protocol} {down up value : Parameter}
    (hdown : (protocol.schema .down).admits down = true)
    (hup : (protocol.schema .up).admits up = true) (h : policy.merge down up = .ok value) :
    policy.Satisfies protocol down up value := by
  have hjoins := joins_of_merge h
  have hmeets : ∀ {name a b}, down.get? name = some a → up.get? name = some b →
      ∃ c, value.get? name = some c ∧ policy.Meets a b c := by
    intro name a b ha hb
    have hboth := hjoins name
    rw [ha, hb] at hboth
    generalize value.get? name = z at hboth
    cases hboth with
    | both hmeets => exact ⟨_, rfl, hmeets⟩
  constructor
  case fields =>
    intro name
    rw [Fields.contains, ← Option.isSome_map, Schema.map_kind_of_merge hdown hup h,
      Option.isSome_or, Bool.or_eq_true]
    rfl
  case concrete =>
    intro name c hc
    exact (hc ▸ hjoins name).isConcrete
  case declared =>
    intro name c direction kind hc hkind
    have hfield := hc ▸ hjoins name
    cases direction with
    | down =>
        rw [← Schema.map_kind hdown] at hkind
        obtain ⟨a, ha, rfl⟩ := Option.map_eq_some_iff.mp hkind
        exact kind_of_joins_ours (ha ▸ hfield)
    | up =>
        rw [← Schema.map_kind hup] at hkind
        obtain ⟨b, hb, rfl⟩ := Option.map_eq_some_iff.mp hkind
        exact kind_of_joins_theirs (hb ▸ hfield)
  case ours =>
    intro name a ha hb
    have hfield := hjoins name
    rw [ha, hb] at hfield
    generalize value.get? name = z at hfield
    cases hfield with
    | ours _ hsettle => exact hsettle.symm
  case theirs =>
    intro name b ha hb
    have hfield := hjoins name
    rw [ha, hb] at hfield
    generalize value.get? name = z at hfield
    cases hfield with
    | theirs _ hsettle => exact hsettle.symm
  case number =>
    intro name a b ha hb hkind
    obtain ⟨c, hc, hmeet⟩ := hmeets ha hb
    obtain ⟨n, rfl⟩ := Value.exists_num hmeet.isConcrete (hmeet.kind.1.trans hkind)
    exact ⟨n, hc, settles_of_meets hmeet⟩
  case same =>
    intro name a b ha hb hkind
    obtain ⟨c, hc, hmeet⟩ := hmeets ha hb
    obtain ⟨rfl, rfl⟩ := eq_of_meets hkind hmeet
    exact ⟨hc, hc⟩
  case address =>
    intro name s t ha hb
    obtain ⟨c, hc, hmeet⟩ := hmeets ha hb
    obtain ⟨r, rfl, hshares⟩ := shares_of_meets hmeet
    exact ⟨r, hc, hshares⟩

end Policy

namespace Graph

variable {g : Graph}

/-- A resolved edge with a policy satisfies both sides: what crosses it is known, and what it
resolves to is what the policy makes of that, field by field. -/
theorem resolved_satisfies (hg : g.Reachable) {e : EdgeId} {edge : Edge} {policy : Policy}
    (hedge : g.wiring.edge? e = some edge) (hrule : edge.rule = .policy policy)
    (hresolved : g.progress (.edge e) = .resolved) :
    ∃ down up value, g.flows? edge = some (down, up) ∧ g.resolved? e = some value ∧
      policy.Satisfies edge.protocol down up value := by
  obtain ⟨down, up, value, hflows, hvalue, hdown, hup, hmerge⟩ :=
    hg.sound.exists_crossing hedge hresolved
  rw [hrule] at hmerge
  exact ⟨down, up, value, hflows, hvalue, Policy.satisfies_of_merge hdown.fits hup.fits hmerge⟩

/-- A protocol whose two directions have most fields in common. -/
def mixture : Protocol where
  signature := ⟨"bus", .ofList [("lanes", .number), ("mode", .symbol), ("width", .number),
    ("window", .address)], .ofList [("mode", .symbol), ("width", .number), ("window", .address)]⟩
  merge := .policy .intersect
  downFallback := .absent
  upFallback := .absent

/-- A source and a sink that leave their numbers open, and the edge between them resolved. -/
def medley : Graph :=
  after {} [.build (.addNode (.source "cpu" mixture (.exactly 1) (.ofList [("lanes", .span 1 4),
      ("mode", .sym "burst"), ("width", .oneOf (.ofList [4, 8, 16])),
      ("window", .addr (.ofList [⟨0, 32⟩]))]))),
    .build (.addNode (.sink "ram" mixture (.exactly 1) (.ofList [("mode", .sym "burst"),
      ("width", .span 6 12), ("window", .addr (.ofList [⟨16, 32⟩]))]))),
    .build (.bind (NodeId.output ⟨0⟩ 0) (NodeId.input ⟨1⟩ 0)), .call (.resolve ⟨0⟩)]

theorem edge?_medley : medley.wiring.edge? ⟨0⟩ =
    some ⟨⟨0⟩, NodeId.output ⟨0⟩ 0, NodeId.input ⟨1⟩ 0, mixture, .identity, none⟩ := by
  simp (disch := decide) only [medley, WindowSet.ofList_singleton]
  rfl

theorem progress_medley : medley.progress (.edge ⟨0⟩) = .resolved := by
  simp (disch := decide) only [medley, WindowSet.ofList_singleton]
  decide

theorem medley_satisfies :
    medley.resolved? ⟨0⟩ = some (.ofList [("lanes", .num 4), ("mode", .sym "burst"),
        ("width", .num 8), ("window", .addr (.ofList [⟨16, 16⟩]))]) ∧
      medley.progress (.edge ⟨0⟩) = .resolved ∧
      ∃ edge down up value, medley.wiring.edge? ⟨0⟩ = some edge ∧ edge.rule = .policy .intersect ∧
        medley.flows? edge = some (down, up) ∧ medley.resolved? ⟨0⟩ = some value ∧
        Policy.intersect.Satisfies mixture down up value := by
  obtain ⟨down, up, value, hflows, hvalue, hsatisfies⟩ :=
    resolved_satisfies (reachable_after _ _) edge?_medley rfl progress_medley
  refine ⟨?_, progress_medley, _, down, up, value, edge?_medley, rfl, hflows, hvalue, hsatisfies⟩
  simp (disch := decide) only [medley, WindowSet.ofList_singleton]
  decide

end Graph

/-! ### The shape of what edges resolve to -/

/-- The value is settled, and the protocol declares each of its fields, with its kind, in one of the
directions. -/
def Protocol.Shapes (protocol : Protocol) (value : Parameter) : Prop :=
  value.isConcrete = true ∧ ∀ {name c}, value.get? name = some c →
    ∃ direction, (protocol.schema direction).get? name = some c.kind

/-- What the rule makes of parameters that fit the protocol has the shape that it declares. -/
def MergeRule.Shapes (rule : MergeRule) (protocol : Protocol) : Prop :=
  ∀ {down up value}, (protocol.schema .down).admits down = true →
    (protocol.schema .up).admits up = true → rule.merge down up = .ok value →
      protocol.Shapes value

theorem Policy.Satisfies.shapes {policy : Policy} {protocol : Protocol}
    {down up value : Parameter} (h : policy.Satisfies protocol down up value) :
    protocol.Shapes value := by
  refine ⟨Parameter.isConcrete_iff.mpr fun _ _ hc => h.concrete hc, ?_⟩
  intro name c hc
  have hcontains : value.contains name = true := by
    rw [Fields.contains, hc]
    rfl
  obtain ⟨direction, hdeclared⟩ : ∃ direction, (protocol.schema direction).contains name = true :=
    ((h.fields name).mp hcontains).elim (⟨.down, ·⟩) (⟨.up, ·⟩)
  obtain ⟨kind, hkind⟩ := Option.isSome_iff_exists.mp hdeclared
  refine ⟨direction, ?_⟩
  rw [h.declared direction hc hkind]
  exact hkind

theorem Policy.shapes (policy : Policy) (protocol : Protocol) :
    (MergeRule.policy policy).Shapes protocol := by
  intro down up value hdown hup hmerge
  exact (Policy.satisfies_of_merge hdown hup hmerge).shapes

namespace Graph

variable {g : Graph}

/-- Every policy makes values of the shape that a protocol declares.  An edge resolves to a value of
that shape if its rule makes such values; and whatever its rule makes of what crosses it, it
resolves to. -/
theorem resolved_shapes (hg : g.Reachable) {e : EdgeId} {edge : Edge}
    (hedge : g.wiring.edge? e = some edge) :
    (∀ policy : Policy, (MergeRule.policy policy).Shapes edge.protocol) ∧
      (edge.rule.Shapes edge.protocol → g.progress (.edge e) = .resolved →
        ∃ value, g.resolved? e = some value ∧ edge.protocol.Shapes value) ∧
      ∀ down up value, g.wiring.Crosses edge .down down → g.wiring.Crosses edge .up up →
        edge.rule.merge down up = .ok value →
          (g.call (.resolve e)).progress (.edge e) = .resolved ∧
            (g.call (.resolve e)).resolved? e = some value := by
  refine ⟨fun policy => policy.shapes edge.protocol, ?rule, ?handed⟩
  case rule =>
    intro hrule hresolved
    obtain ⟨down, up, value, _, hvalue, hdown, hup, hmerge⟩ :=
      hg.sound.exists_crossing hedge hresolved
    exact ⟨value, hvalue, hrule hdown.fits hup.fits hmerge⟩
  case handed =>
    intro down up value hdown hup hmerge
    have hkey : g.wiring.HasKey (.edge e) := .of_edge? hedge
    obtain ⟨hprogress, hsound, hterminal⟩ := hg.sound.calls [.resolve e]
    have hyields : g.wiring.Yields (.edge e) [value] :=
      (Wiring.yields_edge_iff hedge).mpr ⟨down, up, value, hdown, hup, hmerge, rfl⟩
    have hsettled := hterminal e hkey ⟨.resolve e, List.mem_singleton_self _, rfl⟩
    rw [← hprogress.wiring] at hkey hyields
    exact (hsound.outcome_of_isTerminal hsettled hkey).1 value hyields

/-- A protocol whose function takes what satisfies both sides, and settles nothing. -/
def unsettled : Protocol where
  signature := ⟨"bus", .ofList [("width", .number)], .ofList [("width", .number)]⟩
  merge := .author 0 Parameter.intersect
  downFallback := .absent
  upFallback := .absent

/-- A source and a sink that leave a number open, and the edge between them resolved. -/
def loose : Graph :=
  after {} [.build (.addNode (.source "cpu" unsettled (.exactly 1)
      (.ofList [("width", .span 8 16)]))),
    .build (.addNode (.sink "ram" unsettled (.exactly 1) (.ofList [("width", .span 8 32)]))),
    .build (.bind (NodeId.output ⟨0⟩ 0) (NodeId.input ⟨1⟩ 0)), .call (.resolve ⟨0⟩)]

/-- The edge of the medley resolves to a value of the declared shape; that of the loose graph to
what its function makes. -/
theorem medley_shapes :
    (∃ value, medley.resolved? ⟨0⟩ = some value ∧ mixture.Shapes value) ∧
      ∃ value, (loose.call (.resolve ⟨0⟩)).resolved? ⟨0⟩ = some value ∧
        value = .ofList [("width", .span 8 16)] := by
  have hloose : loose.wiring.edge? ⟨0⟩ =
      some ⟨⟨0⟩, NodeId.output ⟨0⟩ 0, NodeId.input ⟨1⟩ 0, unsettled, .identity, none⟩ := rfl
  have hreachable : loose.Reachable := reachable_after _ _
  obtain ⟨hpolicy, hrule, _⟩ := resolved_shapes (reachable_after _ _) edge?_medley
  obtain ⟨_, _, hhanded⟩ := resolved_shapes hreachable hloose
  -- The edge of the loose graph is resolved already, so what crosses it is at hand.
  obtain ⟨down, up, value, _, hvalue, hdown, hup, hmerge⟩ :=
    hreachable.sound.exists_crossing hloose (by decide)
  have hspan : loose.resolved? ⟨0⟩ = some (.ofList [("width", .span 8 16)]) := by decide
  obtain rfl := Option.some.inj (hvalue.symm.trans hspan)
  exact ⟨hrule (hpolicy .intersect) progress_medley, _, (hhanded down up _ hdown hup hmerge).2, rfl⟩

/-- The edge of the loose graph resolves to a value that is not settled. -/
theorem loose_unsettled :
    loose.Reachable ∧ loose.progress (.edge ⟨0⟩) = .resolved ∧
      ∃ edge value, loose.wiring.edge? ⟨0⟩ = some edge ∧ loose.resolved? ⟨0⟩ = some value ∧
        ¬ edge.protocol.Shapes value := by
  have hedge : loose.wiring.edge? ⟨0⟩ =
      some ⟨⟨0⟩, NodeId.output ⟨0⟩ 0, NodeId.input ⟨1⟩ 0, unsettled, .identity, none⟩ := rfl
  have hspan : loose.resolved? ⟨0⟩ = some (.ofList [("width", .span 8 16)]) := by decide
  refine ⟨reachable_after _ _, by decide, _, _, hedge, hspan, ?_⟩
  intro hshapes
  exact absurd hshapes.1 (by decide)

end Graph

end Negotiation
