import Negotiation.Proofs.Compatibility
import Negotiation.Proofs.Satisfaction

/-!
What many records have in common, and what an intersection makes of them.

`Parameter.common` meets all records first; `Policy.reduce` settles the first one and narrows that
down by one record after the other.  A field whose value is settled has no second choice, so the two
agree only where the number that the first record settles to is admitted by all others
(`Policy.reduce_intersect_eq_ok_iff`).  What the records have in common does not depend on their
order, and neither does what they are reduced to where they are; whether they are does.
-/

namespace Negotiation

namespace Value

variable {a b c s : Value} {n : UInt64} {rest : List Value} {x y z : Option Value}

theorem isConcrete_of_intersect? (ha : a.isConcrete = true) (h : a.intersect? b = some c) :
    c.isConcrete = true := by
  rcases intersect?_eq_some h with ⟨hkind, _, _⟩ | ⟨rfl, rfl, _⟩ | ⟨_, _, _, _, rfl⟩
  · obtain ⟨n, rfl⟩ := exists_num ha hkind
    rw [intersect?_num h]
    rfl
  · exact ha
  · rfl

theorem isConcrete_of_foldlM (ha : a.isConcrete = true)
    (h : rest.foldlM Value.intersect? a = some c) : c.isConcrete = true := by
  induction rest generalizing a with
  | nil =>
      cases h
      exact ha
  | cons b rest ih =>
      rw [foldlM_intersect?_cons] at h
      obtain ⟨e, he, h⟩ := Option.bind_eq_some_iff.mp h
      exact ih (isConcrete_of_intersect? ha he) h

/-- A number is all that is left of it, where the others admit it. -/
theorem foldlM_num : rest.foldlM Value.intersect? (num n) = some c ↔
    c = num n ∧ ∀ v ∈ rest, v.admits n = true := by
  induction rest with
  | nil => exact ⟨fun h => ⟨(Option.some.inj h).symm, nofun⟩, fun h => congrArg some h.1.symm⟩
  | cons b rest ih =>
      rw [foldlM_intersect?_cons, intersect?, List.forall_mem_cons]
      by_cases hb : b.admits n = true
      · rw [if_pos hb, Option.bind_some, ih]
        simp [hb]
      · simp [hb]

theorem admits_foldlM (h : rest.foldlM Value.intersect? a = some c) :
    c.admits n = true ↔ a.admits n = true ∧ ∀ v ∈ rest, v.admits n = true := by
  induction rest generalizing a with
  | nil =>
      cases h
      simp
  | cons b rest ih =>
      rw [foldlM_intersect?_cons] at h
      obtain ⟨e, he, h⟩ := Option.bind_eq_some_iff.mp h
      rw [ih h, admits_intersect? he, List.forall_mem_cons, and_assoc]

theorem exists_foldlM_of_admits (ha : a.admits n = true) (hrest : ∀ v ∈ rest, v.admits n = true) :
    ∃ c, rest.foldlM Value.intersect? a = some c := by
  induction rest generalizing a with
  | nil => exact ⟨a, rfl⟩
  | cons b rest ih =>
      obtain ⟨hb, hrest⟩ := List.forall_mem_cons.mp hrest
      obtain ⟨e, he⟩ := exists_intersect?_of_admits ha hb
      rw [foldlM_intersect?_cons, he]
      exact ih ((admits_intersect? he).mpr ⟨ha, hb⟩) hrest

theorem isUnsatisfiable_of_admits (h : a.admits n = true) : a.isUnsatisfiable = false := by
  cases a with
  | oneOf set =>
      refine Bool.not_eq_true _ ▸ fun hempty => ?_
      exact NumberSet.isEmpty_iff.mp hempty n (NumberSet.contains_iff_mem.mp h)
  | span lo hi =>
      obtain ⟨hlo, hhi⟩ := Bool.and_eq_true_iff.mp h
      refine decide_eq_false (UInt64.not_lt.mpr ?_)
      exact UInt64.le_trans (of_decide_eq_true hlo) (of_decide_eq_true hhi)
  | _ => rfl

theorem exists_settle?_of_admits (h : a.admits n = true) : ∃ m, a.settle? = some (num m) := by
  have hsettles : a.settle? ≠ none := fun hnone => by
    rw [settle?_eq_none_iff, isUnsatisfiable_of_admits h] at hnone
    cases hnone
  obtain ⟨c, hc⟩ := Option.ne_none_iff_exists'.mp hsettles
  obtain ⟨m, rfl⟩ := exists_num_of_settle? (kind_of_admits h) hc
  exact ⟨m, hc⟩

/-- Where all others admit what the first value settles to, that is what they settle to together. -/
theorem exists_foldlM_of_settle? (ha : a.settle? = some (num n))
    (hrest : ∀ v ∈ rest, v.admits n = true) :
    ∃ c, rest.foldlM Value.intersect? a = some c ∧ c.settle? = some (num n) := by
  obtain ⟨hadmits, hgreatest⟩ := isGreatest_of_settle? ha
  obtain ⟨c, hc⟩ := exists_foldlM_of_admits hadmits hrest
  have hmem : c.admits n = true := (admits_foldlM hc).mpr ⟨hadmits, hrest⟩
  obtain ⟨m, hm⟩ := exists_settle?_of_admits hmem
  obtain ⟨hm', hle⟩ := isGreatest_of_settle? hm
  have hsame : m = n :=
    UInt64.le_antisymm (hgreatest ((admits_foldlM hc).mp hm').1) (hle hmem)
  exact ⟨c, hc, hsame ▸ hm⟩

/-- What is left of the first value of a field, settled, when the others narrow it down. -/
def lead? : List Value → Option (Option Value)
  | [] => some none
  | a :: rest => (a.settle?.bind fun s => rest.foldlM Value.intersect? s).map some

theorem lead?_toList (hx : ∀ a, x = some a → a.isConcrete = true) : lead? x.toList = some x := by
  cases x with
  | none => rfl
  | some a =>
      rw [Option.toList_some, lead?, settle?_of_isConcrete (hx a rfl)]
      rfl

/-- What is left of the first value after some of the others is narrowed down by the remaining. -/
theorem lead?_append (left right : List Value) :
    lead? (left ++ right) = (lead? left).bind fun x => lead? (x.toList ++ right) := by
  cases left with
  | nil => rfl
  | cons a left =>
      rw [List.cons_append, lead?, lead?]
      cases hsettle : a.settle? with
      | none => rfl
      | some s =>
          rw [Option.bind_some, Option.bind_some, List.foldlM_append]
          cases hfold : left.foldlM Value.intersect? s with
          | none => rfl
          | some e =>
              have he := isConcrete_of_foldlM (isConcrete_of_settle? hsettle) hfold
              change (right.foldlM Value.intersect? e).map some = lead? (e :: right)
              rw [lead?, settle?_of_isConcrete he]
              rfl

theorem lead?_of_settle? (h : Option.Rel (fun a b => a.settle? = some b) x y) (l : List Value) :
    lead? (x.toList ++ l) = lead? (y.toList ++ l) := by
  cases h with
  | none => rfl
  | @some a c hsettle =>
      change lead? (a :: l) = lead? (c :: l)
      rw [lead?, lead?, hsettle, settle?_of_isConcrete (isConcrete_of_settle? hsettle)]

theorem lead?_singleton (b : Value) : lead? [b] = b.settle?.map some :=
  congrArg (Option.map some) (Option.bind_fun_some _)

theorem lead?_pair (ha : a.isConcrete = true) (b : Value) :
    lead? [a, b] = (a.intersect? b).map some := by
  rw [lead?, settle?_of_isConcrete ha, ← common?_pair]
  rfl

/-- A merge makes of a settled field what the other side leaves of it. -/
theorem joins_intersect_iff (hx : ∀ a, x = some a → a.isConcrete = true) :
    Policy.intersect.Joins x y z ↔ lead? (x.toList ++ y.toList) = some z := by
  constructor
  · intro h
    cases h with
    | neither => rfl
    | @ours a c _ hsettle =>
        rw [settle?_of_isConcrete (hx a rfl)] at hsettle
        rw [← hsettle]
        exact lead?_toList hx
    | @theirs b c _ hsettle => exact (lead?_singleton b).trans (congrArg _ hsettle)
    | @both a b c hmeets =>
        obtain ⟨both, hboth, hsettle⟩ := hmeets
        rw [settle?_of_isConcrete (isConcrete_of_intersect? (hx a rfl) hboth)] at hsettle
        exact (lead?_pair (hx a rfl) b).trans (congrArg _ (hboth.trans hsettle))
  · intro h
    cases x with
    | none =>
        cases y with
        | none =>
            cases h
            exact .neither
        | some b =>
            obtain ⟨c, hsettle, rfl⟩ :=
              Option.map_eq_some_iff.mp ((lead?_singleton b).symm.trans h)
            exact .theirs (by decide) hsettle
    | some a =>
        have ha := hx a rfl
        cases y with
        | none =>
            obtain rfl : some a = z := Option.some.inj ((lead?_toList hx).symm.trans h)
            exact .ours (by decide) (settle?_of_isConcrete ha)
        | some b =>
            obtain ⟨c, hboth, rfl⟩ := Option.map_eq_some_iff.mp ((lead?_pair ha b).symm.trans h)
            have hc := isConcrete_of_intersect? ha hboth
            exact .both ⟨c, hboth, settle?_of_isConcrete hc⟩

theorem kind_of_foldlM (h : rest.foldlM Value.intersect? a = some c) : c.kind = a.kind := by
  induction rest generalizing a with
  | nil =>
      cases h
      rfl
  | cons b rest ih =>
      rw [foldlM_intersect?_cons] at h
      obtain ⟨e, he, h⟩ := Option.bind_eq_some_iff.mp h
      rw [ih h, (kind_of_intersect? he).1]

/-- The number that the first value settles to, if any, is admitted by all the others. -/
def FollowFirst : List Value → Prop
  | [] => True
  | a :: rest => ∀ n, a.settle? = some (num n) → ∀ v ∈ rest, v.admits n = true

/-- What the values have in common settles to this. -/
def SettleTo (values : List Value) (z : Option Value) : Prop :=
  ∃ x, common? values = some x ∧ Option.Rel (fun a b => a.settle? = some b) x z

theorem settleTo_cons : SettleTo (a :: rest) z ↔
    ∃ c e, rest.foldlM Value.intersect? a = some c ∧ c.settle? = some e ∧ z = some e := by
  constructor
  · rintro ⟨x, hx, hrel⟩
    obtain ⟨c, hc, rfl⟩ := Option.map_eq_some_iff.mp hx
    cases hrel with
    | some hsettle => exact ⟨c, _, hc, hsettle, rfl⟩
  · rintro ⟨c, e, hc, hsettle, rfl⟩
    exact ⟨some c, Option.map_eq_some_iff.mpr ⟨c, hc, rfl⟩, .some hsettle⟩

theorem lead?_of_num (ha : a.settle? = some (num n)) : lead? (a :: rest) = some z ↔
    SettleTo (a :: rest) z ∧ ∀ v ∈ rest, v.admits n = true := by
  have hlead : lead? (a :: rest) = some z ↔
      z = some (num n) ∧ ∀ v ∈ rest, v.admits n = true := by
    rw [lead?, ha, Option.bind_some, Option.map_eq_some_iff]
    simp only [foldlM_num]
    exact ⟨fun ⟨c, ⟨hc, hrest⟩, hz⟩ => ⟨hc ▸ hz.symm, hrest⟩,
      fun ⟨hz, hrest⟩ => ⟨num n, ⟨rfl, hrest⟩, hz.symm⟩⟩
  rw [hlead, settleTo_cons]
  refine and_congr_left fun hrest => ?_
  obtain ⟨c, hc, hsettle⟩ := exists_foldlM_of_settle? ha hrest
  simp [hc, hsettle]

theorem lead?_of_kind (ha : a.kind ≠ .number) :
    lead? (a :: rest) = some z ↔ SettleTo (a :: rest) z := by
  rw [lead?, settle?_of_kind ha, Option.bind_some, Option.map_eq_some_iff, settleTo_cons]
  constructor
  · rintro ⟨c, hc, hz⟩
    exact ⟨c, c, hc, settle?_of_kind (kind_of_foldlM hc ▸ ha), hz.symm⟩
  · rintro ⟨c, e, hc, hsettle, hz⟩
    rw [settle?_of_kind (kind_of_foldlM hc ▸ ha)] at hsettle
    exact ⟨c, hc, hsettle.trans hz.symm⟩

/-- Settled first or met first: a field comes to the same where all others admit what the first
value settles to, and to nothing where they do not. -/
theorem lead?_eq_some_iff {l : List Value} :
    lead? l = some z ↔ SettleTo l z ∧ FollowFirst l := by
  cases l with
  | nil =>
      constructor
      · intro h
        cases h
        exact ⟨⟨none, rfl, .none⟩, trivial⟩
      · rintro ⟨⟨x, hx, hrel⟩, _⟩
        cases hx
        cases hrel
        rfl
  | cons a rest =>
      by_cases hkind : a.kind = .number
      · cases hsettle : a.settle? with
        | none =>
            -- What has nothing to settle to has nothing in common with the others either.
            rw [lead?, hsettle]
            refine ⟨nofun, fun ⟨hsettles, _⟩ => ?_⟩
            obtain ⟨c, e, hc, he, _⟩ := settleTo_cons.mp hsettles
            obtain ⟨m, rfl⟩ := exists_num_of_settle? ((kind_of_foldlM hc).trans hkind) he
            have hadmits := ((admits_foldlM hc).mp (admits_of_settle? he)).1
            obtain ⟨n, hn⟩ := exists_settle?_of_admits hadmits
            rw [hsettle] at hn
            cases hn
        | some s =>
            obtain ⟨n, rfl⟩ := exists_num_of_settle? hkind hsettle
            rw [lead?_of_num hsettle]
            refine and_congr_right fun _ => ⟨fun hrest m hm => ?_, fun hfollow => hfollow n hsettle⟩
            cases hsettle.symm.trans hm
            exact hrest
      · rw [lead?_of_kind hkind]
        refine (and_iff_left fun n hn => ?_).symm
        rw [settle?_of_kind hkind] at hn
        cases hn
        exact absurd rfl hkind

end Value

namespace Parameter

/-- What all records have in common, none of them settled before. -/
def common : List Parameter → Except Reason Parameter
  | [] => .error .nothingToAggregate
  | first :: rest => rest.foldlM intersect first

/-- The number that a field settles to in the first record that has it is admitted by all the others
that have it. -/
def FollowFirst (records : List Parameter) : Prop :=
  ∀ name, Value.FollowFirst (held name records)

variable {p q r acc : Parameter} {records : List Parameter}

theorem common_eq_ok_iff (hne : records ≠ []) (h : ∀ p ∈ records, p.Separated) :
    common records = .ok r ↔ IsMeet records r := by
  cases records with
  | nil => exact absurd rfl hne
  | cons first rest =>
      have hcomb : (Bracketing.comb (.leaf first) rest).eval intersect = common (first :: rest) :=
        Bracketing.eval_comb intersect (.leaf first) rest
      have hparts : (Bracketing.comb (.leaf first) rest).parts = first :: rest :=
        Bracketing.parts_comb (.leaf first) rest
      rw [← hcomb, eval_intersect_eq_ok_iff (hparts ▸ h), hparts]

theorem common_perm {others : List Parameter} (h : ∀ p ∈ records, p.Separated)
    (hperm : records.Perm others) : common records = .ok r ↔ common others = .ok r := by
  by_cases hne : records = []
  · subst hne
    rw [hperm.nil_eq]
  · have hne' : others ≠ [] := fun hnil => hne ((hnil ▸ hperm).eq_nil)
    have hothers : ∀ p ∈ others, p.Separated := fun p hp => h p (hperm.mem_iff.mpr hp)
    rw [common_eq_ok_iff hne h, common_eq_ok_iff hne' hothers]
    exact ⟨fun hmeet => hmeet.perm hperm h, fun hmeet => hmeet.perm hperm.symm hothers⟩

end Parameter

namespace Policy

open Parameter

variable {acc r : Parameter} {rest values : List Parameter}

/-- What a settled record is narrowed down to by one record after the other, field by field. -/
theorem foldlM_intersect_eq_ok_iff (hacc : acc.isConcrete = true) :
    rest.foldlM Policy.intersect.merge acc = .ok r ↔
      ∀ name, Value.lead? ((acc.get? name).toList ++ held name rest) = some (r.get? name) := by
  have hsettled : ∀ {acc : Parameter} name, acc.isConcrete = true →
      ∀ a, acc.get? name = some a → a.isConcrete = true :=
    fun name hacc => isConcrete_iff.mp hacc name
  induction rest generalizing acc with
  | nil =>
      have hself : ∀ name, Value.lead? ((acc.get? name).toList ++ []) = some (acc.get? name) :=
        fun name => by rw [List.append_nil, Value.lead?_toList (hsettled name hacc)]
      constructor
      · intro h
        cases h
        exact hself
      · intro h
        refine congrArg Except.ok (Fields.ext_get? fun name => ?_)
        exact Option.some.inj ((hself name).symm.trans (h name))
  | cons q rest ih =>
      have hsplit : ∀ name, (acc.get? name).toList ++ held name (q :: rest) =
          ((acc.get? name).toList ++ (q.get? name).toList) ++ held name rest :=
        fun name => by rw [held_cons, List.append_assoc]
      rw [List.foldlM_cons, bind_eq_ok_iff]
      simp only [hsplit, Value.lead?_append (_ ++ _)]
      constructor
      · rintro ⟨merged, hmerged, hrest⟩ name
        have hjoins := (Value.joins_intersect_iff (hsettled name hacc)).mp
          (joins_of_merge hmerged name)
        rw [hjoins]
        exact (ih (isConcrete_of_merge hmerged)).mp hrest name
      · intro h
        obtain ⟨merged, hmerged⟩ : ∃ merged, Policy.intersect.merge acc q = .ok merged := by
          refine exists_merge_eq_ok fun name => ?_
          obtain ⟨z, hz, _⟩ := Option.bind_eq_some_iff.mp (h name)
          exact ⟨z, (Value.joins_intersect_iff (hsettled name hacc)).mpr hz⟩
        refine ⟨merged, hmerged, (ih (isConcrete_of_merge hmerged)).mpr fun name => ?_⟩
        have hjoins := (Value.joins_intersect_iff (hsettled name hacc)).mp
          (joins_of_merge hmerged name)
        have hname := h name
        rw [hjoins] at hname
        exact hname

theorem reduce_intersect_fields (hne : values ≠ []) : Policy.intersect.reduce values = .ok r ↔
    ∀ name, Value.lead? (held name values) = some (r.get? name) := by
  cases values with
  | nil => exact absurd rfl hne
  | cons first rest =>
      rw [reduce, bind_eq_ok_iff]
      simp only [held_cons]
      constructor
      · rintro ⟨settled, hsettled, hrest⟩ name
        rw [Value.lead?_of_settle? (get?_of_settle hsettled name)]
        exact (foldlM_intersect_eq_ok_iff (keeps_of_settle hsettled).1).mp hrest name
      · intro h
        obtain ⟨settled, hsettled⟩ : ∃ settled, first.settle = .ok settled := by
          refine exists_settle_eq_ok fun name a ha => ?_
          have hname := h name
          rw [ha] at hname
          obtain ⟨c, hc, _⟩ := Option.map_eq_some_iff.mp hname
          obtain ⟨s, hs, _⟩ := Option.bind_eq_some_iff.mp hc
          exact ⟨s, hs⟩
        refine ⟨settled, hsettled, ?_⟩
        refine (foldlM_intersect_eq_ok_iff (keeps_of_settle hsettled).1).mpr fun name => ?_
        rw [← Value.lead?_of_settle? (get?_of_settle hsettled name)]
        exact h name

theorem exists_common_settle_iff (hne : values ≠ []) (h : ∀ p ∈ values, p.Separated) :
    (∃ c, common values = .ok c ∧ c.settle = .ok r) ↔
      ∀ name, Value.SettleTo (held name values) (r.get? name) := by
  simp only [common_eq_ok_iff hne h, settle_eq_ok_iff]
  constructor
  · rintro ⟨c, hc, hsettle⟩ name
    exact ⟨c.get? name, hc name, hsettle name⟩
  · intro hfields
    obtain ⟨c, hc⟩ := exists_isMeet fun name => (hfields name).imp fun x hx => hx.1
    refine ⟨c, hc, fun name => ?_⟩
    obtain ⟨x, hx, hrel⟩ := hfields name
    rw [hc name] at hx
    cases hx
    exact hrel

/-- Reduced by intersection, records come to what they have in common, settled, where the others
follow the first. -/
theorem reduce_intersect_eq_ok_iff (h : ∀ p ∈ values, p.Separated) :
    Policy.intersect.reduce values = .ok r ↔
      (∃ c, common values = .ok c ∧ c.settle = .ok r) ∧ FollowFirst values := by
  by_cases hne : values = []
  · subst hne
    exact ⟨nofun, fun ⟨⟨c, hc, _⟩, _⟩ => nomatch hc⟩
  · rw [reduce_intersect_fields hne, exists_common_settle_iff hne h]
    simp only [Value.lead?_eq_some_iff, forall_and]
    rfl

/-- What settled records have in common, if anything, follows the first of them. -/
theorem followFirst_of_isConcrete {c : Parameter} (hne : values ≠ [])
    (h : ∀ p ∈ values, p.Separated) (hconcrete : ∀ p ∈ values, p.isConcrete = true)
    (hc : common values = .ok c) : FollowFirst values := by
  intro name
  have hfield := (common_eq_ok_iff hne h).mp hc name
  have hheld : ∀ v ∈ held name values, v.isConcrete = true := by
    intro v hv
    obtain ⟨p, hp, hget⟩ := List.mem_filterMap.mp hv
    exact isConcrete_iff.mp (hconcrete p hp) name v hget
  cases hvalues : held name values with
  | nil => trivial
  | cons a rest =>
      intro n hn
      rw [hvalues] at hheld hfield
      rw [Value.settle?_of_isConcrete (hheld a List.mem_cons_self)] at hn
      cases hn
      obtain ⟨e, he, _⟩ := Option.map_eq_some_iff.mp hfield
      exact (Value.foldlM_num.mp he).2

theorem reduce_of_isConcrete (h : ∀ p ∈ values, p.Separated)
    (hconcrete : ∀ p ∈ values, p.isConcrete = true) : Policy.intersect.reduce values = .ok r ↔
      ∃ c, common values = .ok c ∧ c.settle = .ok r := by
  refine (reduce_intersect_eq_ok_iff h).trans (and_iff_left_of_imp ?_)
  rintro ⟨c, hc, _⟩
  refine followFirst_of_isConcrete ?_ h hconcrete hc
  rintro rfl
  cases hc

/-- What records are reduced to by intersection.  It is what they have in common, settled, provided
that the number each field settles to in the first record that has it is admitted by the others.
What they have in common does not depend on their order, so no two orders lead to different results;
settled records lead to the same in any order. -/
theorem reduced_to_common (h : ∀ p ∈ values, p.Separated) :
    (∀ r, Policy.intersect.reduce values = .ok r ↔
      (∃ c, common values = .ok c ∧ c.settle = .ok r) ∧ FollowFirst values) ∧
    ∀ {others : List Parameter}, values.Perm others →
      (∀ c, common values = .ok c ↔ common others = .ok c) ∧
      (∀ r r', Policy.intersect.reduce values = .ok r →
        Policy.intersect.reduce others = .ok r' → r = r') ∧
      ((∀ p ∈ values, p.isConcrete = true) →
        ∀ r, Policy.intersect.reduce values = .ok r ↔ Policy.intersect.reduce others = .ok r) := by
  refine ⟨fun r => reduce_intersect_eq_ok_iff h, fun {others} hperm => ?_⟩
  have hothers : ∀ p ∈ others, p.Separated := fun p hp => h p (hperm.mem_iff.mpr hp)
  have hcommon : ∀ c, common values = .ok c ↔ common others = .ok c := fun c => common_perm h hperm
  refine ⟨hcommon, ?_, ?_⟩
  · intro r r' hr hr'
    obtain ⟨⟨c, hc, hsettle⟩, _⟩ := (reduce_intersect_eq_ok_iff h).mp hr
    obtain ⟨⟨c', hc', hsettle'⟩, _⟩ := (reduce_intersect_eq_ok_iff hothers).mp hr'
    rw [(hcommon c).mp hc] at hc'
    cases hc'
    exact Except.ok.inj (hsettle.symm.trans hsettle')
  · intro hconcrete r
    have hconcrete' : ∀ p ∈ others, p.isConcrete = true :=
      fun p hp => hconcrete p (hperm.mem_iff.mpr hp)
    rw [reduce_of_isConcrete h hconcrete, reduce_of_isConcrete hothers hconcrete']
    simp only [hcommon]

/-- A settled width, and after it one that is still open beside a depth. -/
def settledBeforeOpen : List Parameter :=
  [.ofList [("width", .num 8)],
    .ofList [("depth", .span 1 4), ("width", .oneOf (.ofList [8, 16]))]]

theorem settledBeforeOpen_reduced :
    Policy.intersect.reduce settledBeforeOpen = .ok (.ofList [("depth", .num 4), ("width", .num 8)]) ∧
      FollowFirst settledBeforeOpen ∧
      common settledBeforeOpen.reverse = .ok (.ofList [("depth", .span 1 4), ("width", .num 8)]) := by
  have hreduce : Policy.intersect.reduce settledBeforeOpen =
      .ok (.ofList [("depth", .num 4), ("width", .num 8)]) := rfl
  have hcommon : common settledBeforeOpen =
      .ok (.ofList [("depth", .span 1 4), ("width", .num 8)]) := rfl
  have hseparated : ∀ p ∈ settledBeforeOpen, p.Separated := by
    have hnumber : ∀ {a : Value}, a.kind = .number → a.Separated := Value.separated_of_number
    intro p hp
    rcases List.mem_pair.mp hp with rfl | rfl
    · exact separated_ofList (List.forall_mem_singleton.mpr (hnumber rfl))
    · exact separated_ofList (List.forall_mem_cons.mpr
        ⟨hnumber rfl, List.forall_mem_singleton.mpr (hnumber rfl)⟩)
  obtain ⟨hresult, horder⟩ := reduced_to_common hseparated
  exact ⟨hreduce, ((hresult _).mp hreduce).2,
    ((horder (List.reverse_perm _).symm).1 _).mp hcommon⟩

/-- Two widths that have 8 in common. -/
def overlapping : List Parameter :=
  [.ofList [("width", .oneOf (.ofList [8, 16]))], .ofList [("width", .oneOf (.ofList [8, 32]))]]

/-- Records that have something in common, and are merged to it, may be refused all the same, since
the first of them is settled before the others are looked at: it settles to 16, which the other does
not admit.  Whether they are refused depends on the order. -/
theorem overlapping_refused :
    (common overlapping = .ok (.ofList [("width", .num 8)]) ∧
      Parameter.settle (.ofList [("width", .num 8)]) = .ok (.ofList [("width", .num 8)]) ∧
      Policy.intersect.merge (.ofList [("width", .oneOf (.ofList [8, 16]))])
        (.ofList [("width", .oneOf (.ofList [8, 32]))]) = .ok (.ofList [("width", .num 8)]) ∧
      Policy.intersect.reduce overlapping = .error (.inField "width"
        (.nothingInCommon (.num 16) (.oneOf (.ofList [8, 32]))))) ∧
    Policy.intersect.reduce settledBeforeOpen = .ok (.ofList [("depth", .num 4), ("width", .num 8)]) ∧
    Policy.intersect.reduce settledBeforeOpen.reverse = .error (.inField "width"
      (.nothingInCommon (.num 16) (.num 8))) :=
  ⟨⟨rfl, rfl, rfl, rfl⟩, rfl, rfl⟩

end Policy

end Negotiation
