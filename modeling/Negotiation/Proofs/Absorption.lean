import Negotiation.Proofs.Keeping

/-!
Merging once more.

A merge does not depend on which side comes first (`Policy.merge_comm`), and what it came to comes
out unchanged when it is merged once more with what it was made of: it absorbs both sides
(`Policy.absorbs_of_merge`).  So what was reduced from many parameters absorbs each of them
(`Policy.absorbs_of_reduce`).
-/

namespace Negotiation

namespace NumberSet

theorem filter_contains_comm (s t : NumberSet) : s.filter t.contains = t.filter s.contains := by
  refine ext_mem fun n => ?_
  rw [mem_filter, mem_filter, contains_iff_mem, contains_iff_mem, and_comm]

end NumberSet

namespace Value

variable {a b c : Value}

/-- The value is no address set, or one whose windows stop before the next one begins. -/
def Separated (a : Value) : Prop :=
  ∀ s, a = .addr s → s.Separated

theorem separated_of_kind (h : a.kind ≠ .address) : a.Separated := by
  rintro s rfl
  exact absurd rfl h

theorem separated_addr_ofList (ws : List Window) : (addr (.ofList ws)).Separated := by
  rintro s hs
  cases hs
  exact WindowSet.separated_ofList ws

theorem Separated.of_settle? (ha : a.Separated) (h : a.settle? = some c) : c.Separated := by
  rintro s rfl
  have hkind := kind_of_settle? h
  cases a with
  | addr t =>
      cases h
      exact ha _ rfl
  | _ => cases hkind

theorem addr_intersect_comm {s t : WindowSet} (hs : s.Separated) (ht : t.Separated) :
    s.intersect t = t.intersect s := by
  refine (WindowSet.regular_intersect hs ht).ext_contains (WindowSet.regular_intersect ht hs) ?_
  intro address
  rw [Bool.eq_iff_iff, WindowSet.contains_intersect hs ht, WindowSet.contains_intersect ht hs,
    and_comm]

/-- What satisfies two values does not depend on which of them comes first. -/
theorem intersect?_comm (ha : a.Separated) (hb : b.Separated) :
    a.intersect? b = b.intersect? a := by
  cases a with
  | num m =>
      cases b with
      | num n =>
          by_cases hmn : m = n
          · rw [hmn]
          · simp [intersect?, admits, hmn, Ne.symm hmn]
      | _ => rfl
  | oneOf s =>
      cases b with
      | oneOf t =>
          have hkept : s.filter (oneOf t).admits = t.filter (oneOf s).admits :=
            s.filter_contains_comm t
          simp only [intersect?, restrict?, hkept]
      | _ => rfl
  | span lo hi =>
      cases b with
      | span lo' hi' => simp only [intersect?, max_comm lo, min_comm hi]
      | _ => rfl
  | sym text =>
      cases b with
      | sym text' =>
          by_cases heq : text = text'
          · rw [heq]
          · simp [intersect?, heq, Ne.symm heq]
      | _ => rfl
  | flag set =>
      cases b with
      | flag set' =>
          by_cases heq : set = set'
          · rw [heq]
          · simp [intersect?, heq, Ne.symm heq]
      | _ => rfl
  | addr s =>
      cases b with
      | addr t => simp only [intersect?, addr_intersect_comm (ha s rfl) (hb t rfl)]
      | _ => rfl

/-! ### Numbers that are admitted -/

theorem admits_ofSet (set : NumberSet) (n : UInt64) : (ofSet set).admits n = set.contains n := by
  rw [ofSet]
  split
  · rename_i m hmembers
    rw [admits, NumberSet.contains, hmembers, List.contains_cons]
    simp [Bool.beq_comm]
  · rfl

theorem admits_between {lo hi n : UInt64} :
    (between lo hi).admits n = true ↔ lo ≤ n ∧ n ≤ hi := by
  rw [between]
  split
  · rename_i heq
    subst heq
    simp only [admits, beq_iff_eq]
    constructor
    · rintro rfl
      exact ⟨UInt64.le_refl lo, UInt64.le_refl lo⟩
    · rintro ⟨hlo, hhi⟩
      exact UInt64.le_antisymm hlo hhi
  · simp [admits]

theorem admits_restrict? {set : NumberSet} {n : UInt64} (h : restrict? set a = some c) :
    c.admits n = true ↔ set.contains n = true ∧ a.admits n = true := by
  simp only [restrict?] at h
  split at h
  · cases h
  · cases h
    rw [admits_ofSet, NumberSet.contains_iff_mem, NumberSet.mem_filter, NumberSet.contains_iff_mem]

/-- What satisfies two values admits the numbers that both admit. -/
theorem admits_intersect? {n : UInt64} (h : a.intersect? b = some c) :
    c.admits n = true ↔ a.admits n = true ∧ b.admits n = true := by
  rw [intersect?.eq_def] at h
  split at h
  · split at h
    · rename_i hadmits
      cases h
      exact ⟨fun hn => ⟨hn, eq_of_beq hn ▸ hadmits⟩, And.left⟩
    · cases h
  · split at h
    · rename_i hadmits
      cases h
      exact ⟨fun hn => ⟨eq_of_beq hn ▸ hadmits, hn⟩, And.right⟩
    · cases h
  · exact admits_restrict? h
  · exact (admits_restrict? h).trans and_comm
  · split at h
    · cases h
      rw [admits_between, Std.max_le_iff, Std.le_min_iff]
      simp only [admits, Bool.and_eq_true, decide_eq_true_eq]
      exact and_and_and_comm
    · cases h
  · split at h
    · cases h
      simp [admits]
    · cases h
  · split at h
    · cases h
      simp [admits]
    · cases h
  · split at h
    · cases h
    · cases h
      simp [admits]
  · cases h

theorem admits_of_settle? {n : UInt64} (h : a.settle? = some (num n)) : a.admits n = true := by
  cases a with
  | num m =>
      cases h
      exact beq_self_eq_true n
  | oneOf set =>
      obtain ⟨m, hm, heq⟩ := Option.map_eq_some_iff.mp h
      cases heq
      exact NumberSet.contains_iff_mem.mpr (List.mem_of_getLast? hm)
  | span lo hi =>
      simp only [settle?] at h
      split at h
      · rename_i hle
        cases h
        simpa [admits] using hle
      · cases h
  | _ => cases h

theorem num_intersect? {n : UInt64} (h : a.admits n = true) :
    (num n).intersect? a = some (num n) := by
  rw [intersect?, if_pos h]

/-- A concrete value of the kind of numbers is a number. -/
theorem exists_num (hconcrete : a.isConcrete = true) (hkind : a.kind = .number) :
    ∃ n, a = num n := by
  cases a with
  | num n => exact ⟨n, rfl⟩
  | oneOf set => cases hconcrete
  | span lo hi => cases hconcrete
  | _ => cases hkind

theorem exists_num_of_settle? (hkind : a.kind = .number) (h : a.settle? = some c) :
    ∃ n, c = num n :=
  exists_num (isConcrete_of_settle? h) ((kind_of_settle? h).trans hkind)

end Value

namespace Policy

section Values

variable {policy : Policy} {a b c : Value} {m n : UInt64}

theorem pick_of_settle? (ha : a.settle? = some c) (hb : b.settle? = some c) :
    policy.pick a b = .ok c := by
  rw [pick, Value.settle_eq_ok_iff.mpr ha, Value.settle_eq_ok_iff.mpr hb]
  cases policy with
  | maximum =>
      cases c with
      | num k => exact congrArg (fun x => Except.ok (Value.num x)) Std.max_self
      | _ => exact if_pos rfl
  | minimum =>
      cases c with
      | num k => exact congrArg (fun x => Except.ok (Value.num x)) Std.min_self
      | _ => exact if_pos rfl
  | intersect => exact if_pos rfl
  | mustEqual => exact if_pos rfl

theorem pick_maximum_num (ha : a.settle? = some (.num m)) (hb : b.settle? = some (.num n)) :
    Policy.maximum.pick a b = .ok (.num (max m n)) := by
  rw [pick, Value.settle_eq_ok_iff.mpr ha, Value.settle_eq_ok_iff.mpr hb]
  rfl

theorem pick_minimum_num (ha : a.settle? = some (.num m)) (hb : b.settle? = some (.num n)) :
    Policy.minimum.pick a b = .ok (.num (min m n)) := by
  rw [pick, Value.settle_eq_ok_iff.mpr ha, Value.settle_eq_ok_iff.mpr hb]
  rfl

/-- What was picked is picked again beside what it was picked from. -/
theorem pick_again (h : policy.pick a b = .ok c) : policy.pick c a = .ok c := by
  obtain ⟨s, t, hs, _, ⟨rfl, rfl⟩ | ⟨m, n, rfl, rfl, ⟨rfl, rfl⟩ | ⟨rfl, rfl⟩⟩⟩ :=
    exists_of_pick_eq_ok h
  · exact pick_of_settle? (Value.settle?_of_isConcrete (Value.isConcrete_of_settle? hs)) hs
  · rw [pick_maximum_num rfl hs, Std.LawfulOrderLeftLeaningMax.max_eq_left _ _ Std.left_le_max]
  · have hle : min m n ≤ m := Std.min_le_left
    rw [pick_minimum_num rfl hs, Std.LawfulOrderLeftLeaningMin.min_eq_left _ _ hle]

/-- A value that is picked beside a settled one is picked beside all that the settled one is picked
beside. -/
theorem pick_trans (hb : b.isConcrete = true) (h : policy.pick c b = .ok c)
    (h' : policy.pick b a = .ok b) : policy.pick c a = .ok c := by
  have hself := Value.settle?_of_isConcrete hb
  obtain ⟨s, t, hs, ht, ⟨rfl, rfl⟩ | ⟨m, n, rfl, rfl, hcase⟩⟩ := exists_of_pick_eq_ok h
  · obtain rfl : b = c := Option.some.inj (hself.symm.trans ht)
    exact h'
  · obtain rfl : b = .num n := Option.some.inj (hself.symm.trans ht)
    obtain ⟨s', t', hs', ht', ⟨rfl, hb'⟩ | ⟨n', k, rfl, rfl, hcase'⟩⟩ := exists_of_pick_eq_ok h'
    · -- the other value settles on the same number
      rw [← hb'] at ht'
      rcases hcase with ⟨rfl, hc⟩ | ⟨rfl, hc⟩
      · rw [pick_maximum_num hs ht', ← hc]
      · rw [pick_minimum_num hs ht', ← hc]
    · cases hs'
      rcases hcase with ⟨rfl, hc⟩ | ⟨rfl, hc⟩
      · obtain ⟨_, hmax⟩ | ⟨hpolicy, _⟩ := hcase'
        · have hkn : k ≤ n := by
            rw [Value.num.inj hmax]
            exact Std.right_le_max
          have hle : n ≤ max m n := Std.right_le_max
          rw [hc] at hs ⊢
          rw [pick_maximum_num rfl ht',
            Std.LawfulOrderLeftLeaningMax.max_eq_left _ _ (UInt64.le_trans hkn hle)]
        · cases hpolicy
      · obtain ⟨hpolicy, _⟩ | ⟨_, hmin⟩ := hcase'
        · cases hpolicy
        · have hnk : n ≤ k := by
            rw [Value.num.inj hmin]
            exact Std.min_le_right
          have hle : min m n ≤ n := Std.min_le_right
          rw [hc] at hs ⊢
          rw [pick_minimum_num rfl ht',
            Std.LawfulOrderLeftLeaningMin.min_eq_left _ _ (UInt64.le_trans hle hnk)]

theorem meets_comm (hseparated : policy = .intersect → a.Separated ∧ b.Separated)
    (h : policy.Meets a b c) : policy.Meets b a c := by
  cases policy with
  | intersect =>
      obtain ⟨both, hboth, hsettle⟩ := h
      obtain ⟨ha, hb⟩ := hseparated rfl
      exact ⟨both, (Value.intersect?_comm hb ha).trans hboth, hsettle⟩
  | maximum => exact pick_comm h
  | minimum => exact pick_comm h
  | mustEqual => exact pick_comm h

theorem Meets.kind (h : policy.Meets a b c) : c.kind = a.kind ∧ c.kind = b.kind := by
  have hpick : policy.pick a b = .ok c → c.kind = a.kind ∧ c.kind = b.kind := by
    intro hpick
    obtain ⟨s, t, hs, ht, ⟨rfl, rfl⟩ | ⟨_, _, rfl, rfl, ⟨_, rfl⟩ | ⟨_, rfl⟩⟩⟩ :=
      exists_of_pick_eq_ok hpick
    · exact ⟨Value.kind_of_settle? hs, Value.kind_of_settle? ht⟩
    · have ha := Value.kind_of_settle? hs
      have hb := Value.kind_of_settle? ht
      exact ⟨ha, hb⟩
    · have ha := Value.kind_of_settle? hs
      have hb := Value.kind_of_settle? ht
      exact ⟨ha, hb⟩
  cases policy with
  | intersect =>
      obtain ⟨both, hboth, hsettle⟩ := h
      rw [Value.kind_of_settle? hsettle]
      rcases Value.intersect?_eq_some hboth with
        ⟨ha, hb, hkind⟩ | ⟨rfl, rfl, _⟩ | ⟨_, _, rfl, rfl, rfl⟩
      · exact ⟨hkind.trans ha.symm, hkind.trans hb.symm⟩
      · exact ⟨rfl, rfl⟩
      · exact ⟨rfl, rfl⟩
  | maximum => exact hpick h
  | minimum => exact hpick h
  | mustEqual => exact hpick h

theorem meets_num_intersect (h : a.admits n = true) :
    Policy.intersect.Meets (.num n) a (.num n) :=
  ⟨.num n, Value.num_intersect? h, rfl⟩

theorem Meets.separated (ha : a.Separated) (hb : b.Separated) (h : Policy.intersect.Meets a b c) :
    c.Separated := by
  obtain ⟨both, hboth, hsettle⟩ := h
  rcases Value.intersect?_eq_some hboth with ⟨_, _, hkind⟩ | ⟨_, rfl, hkind⟩ | ⟨s, t, rfl, rfl, rfl⟩
  · refine Value.separated_of_kind ?_
    rw [Value.kind_of_settle? hsettle, hkind]
    exact nofun
  · refine Value.separated_of_kind ?_
    rw [Value.kind_of_settle? hsettle]
    exact hkind
  · cases hsettle
    rintro r hr
    cases hr
    exact (WindowSet.regular_intersect (ha s rfl) (hb t rfl)).1

/-- What a value settles on meets the value in itself. -/
theorem meets_of_settle? (hkind : a.kind ≠ .address) (h : a.settle? = some c) :
    policy.Meets c a c := by
  have hself := Value.settle?_of_isConcrete (Value.isConcrete_of_settle? h)
  cases policy with
  | intersect =>
      by_cases hnumber : a.kind = .number
      · obtain ⟨n, rfl⟩ := Value.exists_num_of_settle? hnumber h
        exact meets_num_intersect (Value.admits_of_settle? h)
      · refine ⟨c, ?_, hself⟩
        cases a with
        | sym text =>
            cases h
            exact if_pos rfl
        | flag set =>
            cases h
            exact if_pos rfl
        | addr set => exact absurd rfl hkind
        | _ => exact absurd rfl hnumber
  | maximum => exact pick_of_settle? hself h
  | minimum => exact pick_of_settle? hself h
  | mustEqual => exact pick_of_settle? hself h

theorem meets_addr_again {s t : WindowSet} (hs : s.Separated) (ht : t.Separated)
    (h : Value.intersect? (.addr s) (.addr t) = some (.addr (s.intersect t))) :
    Policy.intersect.Meets (.addr (s.intersect t)) (.addr s) (.addr (s.intersect t)) := by
  have hsame := (WindowSet.regular_intersect hs ht).intersect_eq hs
    fun address hin => (WindowSet.contains_of_intersect hin).1
  refine ⟨.addr (s.intersect t), ?_, rfl⟩
  simp only [Value.intersect?] at h ⊢
  rw [hsame.1]
  exact h

/-- What two values became meets the first of them in itself. -/
theorem meets_again (hseparated : policy = .intersect → a.Separated ∧ b.Separated)
    (h : policy.Meets a b c) : policy.Meets c a c := by
  cases policy with
  | intersect =>
      obtain ⟨both, hboth, hsettle⟩ := h
      obtain ⟨ha, hb⟩ := hseparated rfl
      rcases Value.intersect?_eq_some hboth with
        ⟨_, _, hkind⟩ | ⟨_, rfl, hkind⟩ | ⟨s, t, rfl, rfl, rfl⟩
      · obtain ⟨n, rfl⟩ := Value.exists_num_of_settle? hkind hsettle
        exact meets_num_intersect
          ((Value.admits_intersect? hboth).mp (Value.admits_of_settle? hsettle)).1
      · exact meets_of_settle? hkind hsettle
      · cases hsettle
        exact meets_addr_again (ha s rfl) (hb t rfl) hboth
  | maximum => exact pick_again h
  | minimum => exact pick_again h
  | mustEqual => exact pick_again h

/-- A value that a settled one leaves as it is also stays as it is beside what leaves the settled
one as it is. -/
theorem meets_trans (hb : b.isConcrete = true) (hkind : b.kind ≠ .address)
    (h : policy.Meets c b c) (h' : policy.Meets b a b) : policy.Meets c a c := by
  cases policy with
  | intersect =>
      have hsettle := settle?_of_meets_intersect hb hkind (Or.inr h)
      obtain rfl : b = c := Option.some.inj ((Value.settle?_of_isConcrete hb).symm.trans hsettle)
      exact h'
  | maximum => exact pick_trans hb h h'
  | minimum => exact pick_trans hb h h'
  | mustEqual => exact pick_trans hb h h'

end Values

end Policy

namespace Parameter

/-- The windows of every address set of the parameter stop before the next one begins. -/
def Separated (p : Parameter) : Prop :=
  ∀ name a, p.get? name = some a → a.Separated

/-- No field of the parameter is an address set. -/
def Addressless (p : Parameter) : Prop :=
  ∀ name a, p.get? name = some a → a.kind ≠ .address

theorem Addressless.separated {p : Parameter} (h : p.Addressless) : p.Separated :=
  fun name a ha => Value.separated_of_kind (h name a ha)

theorem Separated.insert {p : Parameter} {a : Value} (hp : p.Separated) (ha : a.Separated)
    (name : String) : Separated (Fields.insert p name a) := by
  intro other b hb
  rw [Fields.get?_insert] at hb
  split at hb
  · rw [← Option.some.inj hb]
    exact ha
  · exact hp other b hb

/-- A parameter that is made of separated values is separated. -/
theorem separated_ofList {fields : List (String × Value)}
    (h : ∀ field ∈ fields, field.2.Separated) : Separated (.ofList fields) := by
  have hfold : ∀ p : Parameter, p.Separated →
      Separated (fields.foldl (fun p field => p.insert field.1 field.2) p) := by
    induction fields with
    | nil => exact fun p hp => hp
    | cons field rest ih =>
        obtain ⟨hfield, hrest⟩ := List.forall_mem_cons.mp h
        exact fun p hp => ih hrest _ (hp.insert hfield field.1)
  exact hfold _ fun name a ha => nomatch ha

theorem addressless_of_settle {p q : Parameter} (hp : p.Addressless) (h : p.settle = .ok q) :
    q.Addressless := by
  intro name c hc
  have hrel := get?_of_settle h name
  have hkind := hp name
  rw [hc] at hrel
  generalize p.get? name = x at hrel hkind
  cases hrel with
  | some hsettle =>
      rw [Value.kind_of_settle? hsettle]
      exact hkind _ rfl

theorem settle_of_isConcrete {p : Parameter} (h : p.isConcrete = true) : p.settle = .ok p := by
  refine settle_eq_ok_iff.mpr fun name => ?_
  cases ha : p.get? name with
  | none => exact .none
  | some a => exact .some (Value.settle?_of_isConcrete (isConcrete_iff.mp h name a ha))

end Parameter

namespace Policy

variable {policy : Policy} {p q r merged reduced : Parameter}

theorem Joins.comm {x y z : Option Value} (h : policy.Joins x y z)
    (hseparated : policy = .intersect →
      ∀ a b, x = some a → y = some b → a.Separated ∧ b.Separated) :
    policy.Joins y x z := by
  cases h with
  | neither => exact .neither
  | ours hpolicy hsettle => exact .theirs hpolicy hsettle
  | theirs hpolicy hsettle => exact .ours hpolicy hsettle
  | both hmeets => exact .both (meets_comm (fun hpolicy => hseparated hpolicy _ _ rfl rfl) hmeets)

/-- A merge does not depend on which side comes first. -/
theorem merge_comm (hseparated : policy = .intersect → p.Separated ∧ q.Separated)
    (h : policy.merge p q = .ok merged) : policy.merge q p = .ok merged := by
  refine merge_eq_ok_iff.mpr fun name => (joins_of_merge h name).comm fun hpolicy a b ha hb => ?_
  obtain ⟨hp, hq⟩ := hseparated hpolicy
  exact ⟨hp name a ha, hq name b hb⟩

theorem separated_of_merge (hp : p.Separated) (hq : q.Separated)
    (h : Policy.intersect.merge p q = .ok merged) : merged.Separated := by
  intro name c hc
  have hjoins := joins_of_merge h name
  have hleft := hp name
  have hright := hq name
  rw [hc] at hjoins
  generalize p.get? name = x at hjoins hleft
  generalize q.get? name = y at hjoins hright
  cases hjoins with
  | ours _ hsettle => exact (hleft _ rfl).of_settle? hsettle
  | theirs _ hsettle => exact (hright _ rfl).of_settle? hsettle
  | both hmeets => exact hmeets.separated (hleft _ rfl) (hright _ rfl)

theorem intersect_of_isConcrete (hq : q.isConcrete = true) (haddress : q.Addressless)
    (hfields : ∀ name, (q.get? name).isSome = (p.get? name).isSome)
    (h : p.intersect q = .ok merged) : merged = q := by
  refine Fields.ext_get? fun name => ?_
  obtain ⟨hnone, hsome⟩ := Fields.get?_of_absorb h name
  cases hb : q.get? name with
  | none =>
      have hfield := hfields name
      rw [hb, Option.isSome_none] at hfield
      rw [hnone hb, Option.isSome_eq_false_iff.mp hfield.symm |> Option.isNone_iff_eq_none.mp]
  | some b =>
      obtain ⟨c, hmeet, hc⟩ := hsome b hb
      have hconcrete := Parameter.isConcrete_iff.mp hq name b hb
      rw [hc]
      rcases Parameter.meetField_eq_ok_iff.mp hmeet with ⟨_, rfl⟩ | ⟨a, _, hboth⟩
      · rfl
      · rw [Value.intersect?_of_isConcrete hconcrete (haddress name b hb) (Or.inr hboth)]

/-- What satisfies a settled parameter without address sets and one with the same fields is the
settled one, if there is anything. -/
theorem merge_intersect_eq_ok_iff (hq : q.isConcrete = true) (haddress : q.Addressless)
    (hfields : ∀ name, (q.get? name).isSome = (p.get? name).isSome) :
    Policy.intersect.merge p q = .ok merged ↔ merged = q ∧ ∃ both, p.intersect q = .ok both := by
  constructor
  · intro h
    obtain ⟨both, hboth, hsettle⟩ := exists_of_bind_eq_ok h
    rw [intersect_of_isConcrete hq haddress hfields hboth,
      Parameter.settle_of_isConcrete hq] at hsettle
    exact ⟨(Except.ok.inj hsettle).symm, both, hboth⟩
  · rintro ⟨rfl, both, hboth⟩
    rw [merge, hboth, intersect_of_isConcrete hq haddress hfields hboth]
    exact Parameter.settle_of_isConcrete hq

/-- Merged with the second parameter, the first stays as it is. -/
def Absorbs (policy : Policy) (p q : Parameter) : Prop :=
  policy.merge p q = .ok p

theorem absorbs_of_settle (hp : p.Addressless) (h : p.settle = .ok r) : policy.Absorbs r p := by
  refine merge_eq_ok_iff.mpr fun name => ?_
  have hrel := Parameter.get?_of_settle h name
  cases ha : p.get? name with
  | none =>
      rw [ha] at hrel
      generalize r.get? name = y at hrel ⊢
      cases hrel
      exact .neither
  | some a =>
      have hkind := hp name a ha
      rw [ha] at hrel
      generalize r.get? name = y at hrel ⊢
      cases hrel with
      | some hsettle => exact .both (meets_of_settle? hkind hsettle)

/-- What two parameters were merged into absorbs the first of them, as long as an address set of the
first is also one of the second. -/
theorem absorbs_of_merge
    (hseparated : policy = .intersect → p.Separated ∧ q.Separated)
    (hshared : ∀ name s, p.get? name = some (.addr s) → (q.get? name).isSome = true)
    (h : policy.merge p q = .ok merged) : policy.Absorbs merged p := by
  refine merge_eq_ok_iff.mpr fun name => ?_
  have hjoins := joins_of_merge h name
  have hfields : policy = .intersect → ∀ a b, p.get? name = some a → q.get? name = some b →
      a.Separated ∧ b.Separated := fun hpolicy a b ha hb =>
    ⟨(hseparated hpolicy).1 name a ha, (hseparated hpolicy).2 name b hb⟩
  have hshared := hshared name
  generalize p.get? name = x at hjoins hfields hshared ⊢
  generalize q.get? name = y at hjoins hfields hshared
  generalize merged.get? name = z at hjoins ⊢
  cases hjoins with
  | neither => exact .neither
  | @ours a c _ hsettle =>
      refine .both (meets_of_settle? (fun hkind => ?_) hsettle)
      cases a with
      | addr s => exact absurd (hshared s rfl) nofun
      | _ => cases hkind
  | theirs hpolicy hsettle =>
      exact .ours hpolicy (Value.settle?_of_isConcrete (Value.isConcrete_of_settle? hsettle))
  | both hmeets => exact .both (meets_again (fun hpolicy => hfields hpolicy _ _ rfl rfl) hmeets)

/-- A parameter absorbs what is absorbed by a settled one that it absorbs. -/
theorem Absorbs.trans (hq : q.isConcrete = true) (haddress : q.Addressless)
    (h : policy.Absorbs p q) (h' : policy.Absorbs q r) : policy.Absorbs p r := by
  refine merge_eq_ok_iff.mpr fun name => ?_
  have hjoins := joins_of_merge h name
  have hjoins' := joins_of_merge h' name
  have hconcrete := Parameter.isConcrete_iff.mp hq name
  have hkind := haddress name
  generalize p.get? name = x at hjoins ⊢
  generalize q.get? name = y at hjoins hjoins' hconcrete hkind
  generalize r.get? name = z at hjoins' ⊢
  cases hjoins' with
  | neither => exact hjoins
  | ours hpolicy _ =>
      cases hjoins with
      | both hmeets =>
          exact .ours hpolicy (Value.settle?_of_isConcrete hmeets.isConcrete)
  | both hmeets' =>
      cases hjoins with
      | both hmeets =>
          exact .both (meets_trans (hconcrete _ rfl) (hkind _ rfl) hmeets hmeets')

theorem addressless_of_merge (hp : p.Addressless) (hq : q.Addressless)
    (h : policy.merge p q = .ok merged) : merged.Addressless := by
  intro name c hc
  have hjoins := joins_of_merge h name
  have hleft := hp name
  have hright := hq name
  rw [hc] at hjoins
  generalize p.get? name = x at hjoins hleft
  generalize q.get? name = y at hjoins hright
  cases hjoins with
  | ours _ hsettle =>
      rw [Value.kind_of_settle? hsettle]
      exact hleft _ rfl
  | theirs _ hsettle =>
      rw [Value.kind_of_settle? hsettle]
      exact hright _ rfl
  | both hmeets =>
      rw [hmeets.kind.1]
      exact hleft _ rfl

theorem absorbs_of_foldlM {first : Parameter} {rest : List Parameter}
    (hfirst : first.isConcrete = true) (haddress : ∀ v ∈ first :: rest, v.Addressless)
    (h : rest.foldlM policy.merge first = .ok reduced) :
    reduced.Addressless ∧ policy.Absorbs reduced first ∧ ∀ v ∈ rest, policy.Absorbs reduced v := by
  induction rest generalizing first with
  | nil =>
      obtain rfl : first = reduced := Except.ok.inj h
      have hself := haddress first List.mem_cons_self
      have habsorbs : policy.Absorbs first first :=
        absorbs_of_settle hself (Parameter.settle_of_isConcrete hfirst)
      exact ⟨hself, habsorbs, fun v hv => absurd hv List.not_mem_nil⟩
  | cons next rest ih =>
      rw [List.foldlM_cons] at h
      obtain ⟨merged, hmerged, hrest⟩ := exists_of_bind_eq_ok h
      obtain ⟨haddressFirst, hothers⟩ := List.forall_mem_cons.mp haddress
      obtain ⟨haddressNext, haddressRest⟩ := List.forall_mem_cons.mp hothers
      have haddressMerged := addressless_of_merge haddressFirst haddressNext hmerged
      have hconcrete := isConcrete_of_merge hmerged
      obtain ⟨hreduced, habsorbs, hall⟩ :=
        ih hconcrete (List.forall_mem_cons.mpr ⟨haddressMerged, haddressRest⟩) hrest
      have hleft : policy.Absorbs merged first :=
        absorbs_of_merge (fun _ => ⟨haddressFirst.separated, haddressNext.separated⟩)
          (fun name s hs => absurd rfl (haddressFirst name _ hs)) hmerged
      have hright : policy.Absorbs merged next :=
        absorbs_of_merge (fun _ => ⟨haddressNext.separated, haddressFirst.separated⟩)
          (fun name s hs => absurd rfl (haddressNext name _ hs))
          (merge_comm (fun _ => ⟨haddressFirst.separated, haddressNext.separated⟩) hmerged)
      exact ⟨hreduced, habsorbs.trans hconcrete haddressMerged hleft,
        List.forall_mem_cons.mpr ⟨habsorbs.trans hconcrete haddressMerged hright, hall⟩⟩

/-- What is reduced from parameters without address sets absorbs each of them. -/
theorem absorbs_of_reduce {values : List Parameter} (haddress : ∀ v ∈ values, v.Addressless)
    (h : policy.reduce values = .ok reduced) :
    reduced.Addressless ∧ ∀ v ∈ values, policy.Absorbs reduced v := by
  cases values with
  | nil => cases h
  | cons value rest =>
      obtain ⟨settled, hsettled, hrest⟩ := exists_of_bind_eq_ok h
      obtain ⟨hfirst, hothers⟩ := List.forall_mem_cons.mp haddress
      have hconcrete := (Parameter.keeps_of_settle hsettled).1
      have haddressSettled := Parameter.addressless_of_settle hfirst hsettled
      obtain ⟨hreduced, habsorbs, hall⟩ :=
        absorbs_of_foldlM hconcrete (List.forall_mem_cons.mpr ⟨haddressSettled, hothers⟩) hrest
      exact ⟨hreduced, List.forall_mem_cons.mpr
        ⟨habsorbs.trans hconcrete haddressSettled (absorbs_of_settle hfirst hsettled), hall⟩⟩

end Policy

end Negotiation
