import Negotiation.Merge
import Negotiation.Proofs.Records
import Negotiation.Proofs.Windows

/-!
What merging makes of each field.

`Policy.merge_eq_ok_iff` describes what is merged by its fields: each comes from what the two sides
have of it, and from nothing else, and a merge is refused only if some field is.
-/

namespace Negotiation

theorem inField_eq_ok_iff {α : Type} {name : String} {x : Except Reason α} {a : α} :
    inField name x = .ok a ↔ x = .ok a :=
  mapError_eq_ok_iff

namespace Value

theorem settle_eq_ok_iff {v w : Value} : v.settle = .ok w ↔ v.settle? = some w := by
  rw [settle]
  cases v.settle? with
  | none => exact ⟨nofun, nofun⟩
  | some settled => rw [Except.ok.injEq, Option.some.injEq]

theorem settle?_of_isConcrete {v : Value} (h : v.isConcrete = true) : v.settle? = some v := by
  cases v with
  | oneOf set => cases h
  | span lo hi => cases h
  | _ => rfl

end Value

namespace Policy

/-- The two values of a field become this one. -/
def Meets (policy : Policy) (ours theirs agreed : Value) : Prop :=
  match policy with
  | .intersect => ∃ both, ours.intersect? theirs = some both ∧ both.settle? = some agreed
  | _ => policy.pick ours theirs = .ok agreed

/-- What the two sides have of a field, if anything, becomes this. -/
inductive Joins (policy : Policy) : Option Value → Option Value → Option Value → Prop
  | neither : Joins policy none none none
  | ours {a c : Value} (hpolicy : policy ≠ .mustEqual) (hsettle : a.settle? = some c) :
      Joins policy (some a) none (some c)
  | theirs {b c : Value} (hpolicy : policy ≠ .mustEqual) (hsettle : b.settle? = some c) :
      Joins policy none (some b) (some c)
  | both {a b c : Value} (hmeets : policy.Meets a b c) : Joins policy (some a) (some b) (some c)

section Fields

variable {policy : Policy} {a b c d : Value} {x y z z' : Option Value}

theorem Meets.unique (h : policy.Meets a b c) (h' : policy.Meets a b d) : c = d := by
  cases policy with
  | intersect =>
      obtain ⟨both, hboth, hsettle⟩ := h
      obtain ⟨both', hboth', hsettle'⟩ := h'
      rw [hboth] at hboth'
      cases hboth'
      exact Option.some.inj (hsettle.symm.trans hsettle')
  | maximum => exact Except.ok.inj (Eq.trans (Eq.symm h) h')
  | minimum => exact Except.ok.inj (Eq.trans (Eq.symm h) h')
  | mustEqual => exact Except.ok.inj (Eq.trans (Eq.symm h) h')

theorem Joins.unique (h : policy.Joins x y z) (h' : policy.Joins x y z') : z = z' := by
  cases h with
  | neither => cases h'; rfl
  | ours _ hsettle =>
      cases h' with
      | ours _ hsettle' => rw [← hsettle, hsettle']
  | theirs _ hsettle =>
      cases h' with
      | theirs _ hsettle' => rw [← hsettle, hsettle']
  | both hmeets =>
      cases h' with
      | both hmeets' => rw [hmeets.unique hmeets']

/-- The value on which a policy settles, other than by intersection. -/
theorem exists_of_pick_eq_ok (h : policy.pick a b = .ok c) :
    ∃ s t, a.settle? = some s ∧ b.settle? = some t ∧ (s = t ∧ c = s ∨
      ∃ m n, s = .num m ∧ t = .num n ∧ (policy = .maximum ∧ c = .num (max m n) ∨
        policy = .minimum ∧ c = .num (min m n))) := by
  rw [pick] at h
  obtain ⟨s, hs, h⟩ := exists_of_bind_eq_ok h
  obtain ⟨t, ht, h⟩ := exists_of_bind_eq_ok h
  refine ⟨s, t, Value.settle_eq_ok_iff.mp hs, Value.settle_eq_ok_iff.mp ht, ?_⟩
  split at h
  · rename_i m n _ _
    exact Or.inr ⟨m, n, rfl, rfl, Or.inl ⟨rfl, (Except.ok.inj h).symm⟩⟩
  · rename_i m n _ _
    exact Or.inr ⟨m, n, rfl, rfl, Or.inr ⟨rfl, (Except.ok.inj h).symm⟩⟩
  · split at h
    · rename_i heq
      exact Or.inl ⟨heq, (Except.ok.inj h).symm⟩
    · cases h

theorem pick_comm (h : policy.pick a b = .ok c) : policy.pick b a = .ok c := by
  obtain ⟨s, t, hs, ht, hchoice⟩ := exists_of_pick_eq_ok h
  rw [pick, Value.settle_eq_ok_iff.mpr hs, Value.settle_eq_ok_iff.mpr ht] at h ⊢
  rcases hchoice with ⟨rfl, rfl⟩ | ⟨m, n, rfl, rfl, ⟨rfl, rfl⟩ | ⟨rfl, rfl⟩⟩
  · exact h
  · exact congrArg (fun k => Except.ok (Value.num k)) (max_comm n m)
  · exact congrArg (fun k => Except.ok (Value.num k)) (min_comm n m)

theorem pick_mustEqual_eq_ok_iff :
    mustEqual.pick a b = .ok c ↔ a.settle? = some c ∧ b.settle? = some c := by
  constructor
  · intro h
    obtain ⟨s, t, hs, ht, ⟨rfl, rfl⟩ | ⟨_, _, _, _, ⟨hpolicy, _⟩ | ⟨hpolicy, _⟩⟩⟩ :=
      exists_of_pick_eq_ok h
    · exact ⟨hs, ht⟩
    · cases hpolicy
    · cases hpolicy
  · rintro ⟨hs, ht⟩
    rw [pick, Value.settle_eq_ok_iff.mpr hs, Value.settle_eq_ok_iff.mpr ht]
    exact if_pos rfl

theorem Meets.isConcrete (h : policy.Meets a b c) : c.isConcrete = true := by
  have hpick : policy.pick a b = .ok c → c.isConcrete = true := by
    intro hpick
    obtain ⟨s, t, hs, _, ⟨_, rfl⟩ | ⟨_, _, _, _, ⟨_, rfl⟩ | ⟨_, rfl⟩⟩⟩ :=
      exists_of_pick_eq_ok hpick
    · exact Value.isConcrete_of_settle? hs
    · rfl
    · rfl
  cases policy with
  | intersect =>
      obtain ⟨both, _, hsettle⟩ := h
      exact Value.isConcrete_of_settle? hsettle
  | maximum => exact hpick h
  | minimum => exact hpick h
  | mustEqual => exact hpick h

theorem Joins.isConcrete (h : policy.Joins x y (some c)) : c.isConcrete = true := by
  cases h with
  | ours _ hsettle => exact Value.isConcrete_of_settle? hsettle
  | theirs _ hsettle => exact Value.isConcrete_of_settle? hsettle
  | both hmeets => exact hmeets.isConcrete

end Fields

end Policy

namespace Parameter

theorem get?_of_settle {p q : Parameter} (h : p.settle = .ok q) (name : String) :
    Option.Rel (fun a b => a.settle? = some b) (p.get? name) (q.get? name) := by
  have hrel := Fields.get?_of_traverse h name
  generalize p.get? name = x at hrel
  generalize q.get? name = y at hrel
  cases hrel with
  | none => exact .none
  | some hsettle => exact .some (Value.settle_eq_ok_iff.mp (inField_eq_ok_iff.mp hsettle))

theorem exists_settle_eq_ok {p : Parameter}
    (h : ∀ name a, p.get? name = some a → ∃ b, a.settle? = some b) : ∃ q, p.settle = .ok q := by
  refine Fields.exists_traverse_eq_ok fun name a ha => ?_
  obtain ⟨b, hb⟩ := h name a ha
  exact ⟨b, inField_eq_ok_iff.mpr (Value.settle_eq_ok_iff.mpr hb)⟩

/-- A record settles if and only if each of its fields does. -/
theorem settle_eq_ok_iff {p q : Parameter} : p.settle = .ok q ↔
    ∀ name, Option.Rel (fun a b => a.settle? = some b) (p.get? name) (q.get? name) := by
  refine ⟨get?_of_settle, fun h => ?_⟩
  obtain ⟨found, hfound⟩ : ∃ found, p.settle = .ok found := by
    refine exists_settle_eq_ok fun name a ha => ?_
    have hrel := h name
    rw [ha] at hrel
    generalize q.get? name = y at hrel
    cases hrel with
    | some hsettle => exact ⟨_, hsettle⟩
  have hsame : found = q := by
    refine Fields.ext_get? fun name => ?_
    have hrel := h name
    have hrel' := get?_of_settle hfound name
    generalize p.get? name = x at hrel hrel'
    generalize q.get? name = y at hrel ⊢
    generalize found.get? name = z at hrel' ⊢
    cases hrel with
    | none =>
        cases hrel'
        rfl
    | some hsettle =>
        cases hrel' with
        | some hsettle' => rw [← hsettle, hsettle']
  rw [hfound, hsame]

theorem meetField_eq_ok_iff {p : Parameter} {name : String} {b c : Value} :
    p.meetField name b = .ok c ↔ (p.get? name = none ∧ b = c) ∨
      ∃ a, p.get? name = some a ∧ a.intersect? b = some c := by
  rw [meetField]
  cases p.get? name with
  | none => simp
  | some a => cases hboth : a.intersect? b <;> simp [hboth]

end Parameter

namespace Policy

section Merge

variable {policy : Policy} {down up agreed : Parameter}

theorem pickField_eq_ok_iff {name : String} {b c : Value} :
    policy.pickField down name b = .ok c ↔ (down.get? name = none ∧ b.settle? = some c) ∨
      ∃ a, down.get? name = some a ∧ policy.pick a b = .ok c := by
  rw [pickField, inField_eq_ok_iff]
  cases down.get? name with
  | none => simp [Value.settle_eq_ok_iff]
  | some a => simp

theorem joins_of_intersect (h : Policy.intersect.merge down up = .ok agreed) (name : String) :
    Policy.intersect.Joins (down.get? name) (up.get? name) (agreed.get? name) := by
  obtain ⟨both, hboth, hsettle⟩ := exists_of_bind_eq_ok h
  obtain ⟨hnone, hsome⟩ := Fields.get?_of_absorb hboth name
  have hrel := Parameter.get?_of_settle hsettle name
  generalize agreed.get? name = z at hrel ⊢
  cases hup : up.get? name with
  | none =>
      rw [hnone hup] at hrel
      generalize down.get? name = x at hrel
      cases hrel with
      | none => exact .neither
      | some hsettle => exact .ours (by decide) hsettle
  | some b =>
      obtain ⟨c, hmeet, hget⟩ := hsome b hup
      rw [hget] at hrel
      cases hrel with
      | some hsettle =>
          rcases Parameter.meetField_eq_ok_iff.mp hmeet with ⟨hdown, rfl⟩ | ⟨a, hdown, hmeets⟩
          · rw [hdown]
            exact .theirs (by decide) hsettle
          · rw [hdown]
            exact .both ⟨c, hmeets, hsettle⟩

theorem meets_iff_pick (hpolicy : policy ≠ .intersect) {a b c : Value} :
    policy.Meets a b c ↔ policy.pick a b = .ok c := by
  cases policy with
  | intersect => exact absurd rfl hpolicy
  | maximum => rfl
  | minimum => rfl
  | mustEqual => rfl

theorem joins_of_combine (hmeet : policy ≠ .intersect) (hequal : policy ≠ .mustEqual)
    (h : policy.combine down up = .ok agreed) (name : String) :
    policy.Joins (down.get? name) (up.get? name) (agreed.get? name) := by
  obtain ⟨settled, hsettled, habsorb⟩ := exists_of_bind_eq_ok h
  obtain ⟨hnone, hsome⟩ := Fields.get?_of_absorb habsorb name
  cases hup : up.get? name with
  | none =>
      have hrel := Parameter.get?_of_settle hsettled name
      rw [hnone hup]
      generalize down.get? name = x at hrel ⊢
      generalize settled.get? name = y at hrel ⊢
      cases hrel with
      | none => exact .neither
      | some hsettle => exact .ours hequal hsettle
  | some b =>
      obtain ⟨c, hpick, hget⟩ := hsome b hup
      rw [hget]
      rcases pickField_eq_ok_iff.mp hpick with ⟨hdown, hsettle⟩ | ⟨a, hdown, hpick⟩
      · rw [hdown]
        exact .theirs hequal hsettle
      · rw [hdown]
        exact .both ((meets_iff_pick hmeet).mpr hpick)

theorem joins_of_mustEqual (h : mustEqual.merge down up = .ok agreed) (name : String) :
    mustEqual.Joins (down.get? name) (up.get? name) (agreed.get? name) := by
  obtain ⟨d, hd, h⟩ := exists_of_bind_eq_ok h
  obtain ⟨u, hu, h⟩ := exists_of_bind_eq_ok h
  split at h
  · rename_i heq
    obtain rfl : d = agreed := Except.ok.inj h
    rw [← heq] at hu
    have hdown := Parameter.get?_of_settle hd name
    have hup := Parameter.get?_of_settle hu name
    generalize down.get? name = x at hdown
    generalize up.get? name = y at hup
    generalize d.get? name = z at hdown hup
    cases hdown with
    | none =>
        cases hup
        exact .neither
    | some hsettle =>
        cases hup with
        | some hsettle' => exact .both (pick_mustEqual_eq_ok_iff.mpr ⟨hsettle, hsettle'⟩)
  · cases h

/-- A merge makes of each field what the policy makes of what the two sides have of it. -/
theorem joins_of_merge (h : policy.merge down up = .ok agreed) (name : String) :
    policy.Joins (down.get? name) (up.get? name) (agreed.get? name) := by
  cases policy with
  | intersect => exact joins_of_intersect h name
  | maximum => exact joins_of_combine (by decide) (by decide) h name
  | minimum => exact joins_of_combine (by decide) (by decide) h name
  | mustEqual => exact joins_of_mustEqual h name

/-! ### What is not refused -/

theorem exists_settle_of_joins (hmeet : policy ≠ .intersect)
    (h : ∀ name, policy.Joins (down.get? name) (up.get? name) (agreed.get? name)) :
    (∃ settled, down.settle = .ok settled) ∧ ∃ settled, up.settle = .ok settled := by
  constructor
  · refine Parameter.exists_settle_eq_ok fun name a ha => ?_
    have hjoins := h name
    rw [ha] at hjoins
    generalize up.get? name = y at hjoins
    generalize agreed.get? name = z at hjoins
    cases hjoins with
    | ours _ hsettle => exact ⟨_, hsettle⟩
    | both hmeets =>
        obtain ⟨s, t, hs, -⟩ := exists_of_pick_eq_ok ((meets_iff_pick hmeet).mp hmeets)
        exact ⟨s, hs⟩
  · refine Parameter.exists_settle_eq_ok fun name b hb => ?_
    have hjoins := h name
    rw [hb] at hjoins
    generalize down.get? name = x at hjoins
    generalize agreed.get? name = z at hjoins
    cases hjoins with
    | theirs _ hsettle => exact ⟨_, hsettle⟩
    | both hmeets =>
        obtain ⟨s, t, -, ht, -⟩ := exists_of_pick_eq_ok ((meets_iff_pick hmeet).mp hmeets)
        exact ⟨t, ht⟩

/-- What satisfies both sides can be settled where every field can be joined. -/
theorem exists_settle_intersect_of_joins {both : Parameter}
    (h : ∀ name, Policy.intersect.Joins (down.get? name) (up.get? name) (agreed.get? name))
    (hboth : down.intersect up = .ok both) : ∃ found, both.settle = .ok found := by
  refine Parameter.exists_settle_eq_ok fun name c hc => ?_
  obtain ⟨hnone, hsome⟩ := Fields.get?_of_absorb hboth name
  have hjoins := h name
  generalize agreed.get? name = z at hjoins
  cases hup : up.get? name with
  | none =>
      rw [hup, ← hnone hup, hc] at hjoins
      cases hjoins with
      | ours _ hsettle => exact ⟨_, hsettle⟩
  | some b =>
      obtain ⟨c', hmeet, hget⟩ := hsome b hup
      obtain rfl : c' = c := Option.some.inj (hget.symm.trans hc)
      rw [hup] at hjoins
      rcases Parameter.meetField_eq_ok_iff.mp hmeet with ⟨hdown, rfl⟩ | ⟨a, hdown, hmeets⟩
      · rw [hdown] at hjoins
        cases hjoins with
        | theirs _ hsettle => exact ⟨_, hsettle⟩
      · rw [hdown] at hjoins
        cases hjoins with
        | both hagreed =>
            obtain ⟨both', hboth', hsettle⟩ := hagreed
            obtain rfl : c' = both' := Option.some.inj (hmeets.symm.trans hboth')
            exact ⟨_, hsettle⟩

theorem exists_intersect_of_joins
    (h : ∀ name, Policy.intersect.Joins (down.get? name) (up.get? name) (agreed.get? name)) :
    ∃ found, Policy.intersect.merge down up = .ok found := by
  have hmeet : ∀ name b, up.get? name = some b → ∃ c, down.meetField name b = .ok c := by
    intro name b hb
    have hjoins := h name
    rw [hb] at hjoins
    generalize hdown : down.get? name = x at hjoins
    generalize agreed.get? name = z at hjoins
    cases hjoins with
    | theirs _ _ => exact ⟨b, Parameter.meetField_eq_ok_iff.mpr (Or.inl ⟨hdown, rfl⟩)⟩
    | both hmeets =>
        obtain ⟨both, hboth, -⟩ := hmeets
        exact ⟨both, Parameter.meetField_eq_ok_iff.mpr (Or.inr ⟨_, hdown, hboth⟩)⟩
  obtain ⟨both, hboth⟩ : ∃ both, down.intersect up = .ok both := Fields.exists_absorb_eq_ok hmeet
  obtain ⟨found, hfound⟩ := exists_settle_intersect_of_joins h hboth
  refine ⟨found, ?_⟩
  rw [merge, hboth]
  exact hfound

theorem exists_combine_of_joins (hmeet : policy ≠ .intersect)
    (h : ∀ name, policy.Joins (down.get? name) (up.get? name) (agreed.get? name)) :
    ∃ found, policy.combine down up = .ok found := by
  obtain ⟨⟨settled, hsettled⟩, -⟩ := exists_settle_of_joins hmeet h
  have hpick : ∀ name b, up.get? name = some b → ∃ c, policy.pickField down name b = .ok c := by
    intro name b hb
    have hjoins := h name
    rw [hb] at hjoins
    generalize hdown : down.get? name = x at hjoins
    generalize agreed.get? name = z at hjoins
    cases hjoins with
    | theirs _ hsettle => exact ⟨_, pickField_eq_ok_iff.mpr (Or.inl ⟨hdown, hsettle⟩)⟩
    | both hmeets =>
        exact ⟨_, pickField_eq_ok_iff.mpr (Or.inr ⟨_, hdown, (meets_iff_pick hmeet).mp hmeets⟩)⟩
  obtain ⟨found, hfound⟩ := Fields.exists_absorb_eq_ok hpick
  refine ⟨found, ?_⟩
  rw [combine, hsettled]
  exact hfound

theorem exists_mustEqual_of_joins
    (h : ∀ name, mustEqual.Joins (down.get? name) (up.get? name) (agreed.get? name)) :
    ∃ found, mustEqual.merge down up = .ok found := by
  obtain ⟨⟨d, hd⟩, u, hu⟩ := exists_settle_of_joins (by decide) h
  -- A field that only one side has cannot be joined, and of a common field both settle alike.
  have hsame : d = u := by
    refine Fields.ext_get? fun name => ?_
    have hjoins := h name
    have hdown := Parameter.get?_of_settle hd name
    have hup := Parameter.get?_of_settle hu name
    generalize down.get? name = x at hjoins hdown
    generalize up.get? name = y at hjoins hup
    generalize d.get? name = x' at hdown
    generalize u.get? name = y' at hup
    generalize agreed.get? name = z at hjoins
    cases hjoins with
    | neither =>
        cases hdown
        cases hup
        rfl
    | ours hpolicy _ => exact absurd rfl hpolicy
    | theirs hpolicy _ => exact absurd rfl hpolicy
    | both hmeets =>
        obtain ⟨hs, ht⟩ := pick_mustEqual_eq_ok_iff.mp hmeets
        cases hdown with
        | some hs' =>
            cases hup with
            | some ht' => rw [← hs', ← ht', hs, ht]
  refine ⟨d, ?_⟩
  rw [merge, hd, hu]
  exact if_pos hsame

/-- A merge comes to a parameter if and only if each of its fields is what the policy makes of what
the two sides have of it. -/
theorem merge_eq_ok_iff : policy.merge down up = .ok agreed ↔
    ∀ name, policy.Joins (down.get? name) (up.get? name) (agreed.get? name) := by
  refine ⟨joins_of_merge, fun h => ?_⟩
  have hfound : ∃ found, policy.merge down up = .ok found := by
    cases policy with
    | intersect => exact exists_intersect_of_joins h
    | maximum => exact exists_combine_of_joins (by decide) h
    | minimum => exact exists_combine_of_joins (by decide) h
    | mustEqual => exact exists_mustEqual_of_joins h
  obtain ⟨found, hfound⟩ := hfound
  have hsame : found = agreed :=
    Fields.ext_get? fun name => (joins_of_merge hfound name).unique (h name)
  rw [hfound, hsame]

/-- A merge comes to something if every field can be joined. -/
theorem exists_merge_eq_ok (h : ∀ name, ∃ z, policy.Joins (down.get? name) (up.get? name) z) :
    ∃ agreed, policy.merge down up = .ok agreed := by
  obtain ⟨field, hfield⟩ := Classical.axiomOfChoice h
  obtain ⟨agreed, hagreed⟩ := Fields.exists_get?_eq field (down.keys ++ up.keys)
  refine ⟨agreed, merge_eq_ok_iff.mpr fun name => ?_⟩
  rw [hagreed]
  split
  · exact hfield name
  · rename_i hmissing
    have hjoins := hfield name
    simp only [List.mem_append, ← Fields.contains_iff_mem_keys, Fields.contains, not_or,
      Bool.not_eq_true, Option.isSome_eq_false_iff, Option.isNone_iff_eq_none] at hmissing
    rw [hmissing.1, hmissing.2]
    exact .neither

end Merge

end Policy

end Negotiation
