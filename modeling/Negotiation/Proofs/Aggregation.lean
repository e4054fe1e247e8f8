import Mathlib.Order.Bounds.Basic
import Negotiation.Proofs.Compatibility

/-!
What many records are reduced to under maximum, minimum and must-equal.

A reduction looks at nothing but what each record settles to.  Of a field there is the extreme of the
numbers that the records have of it, or else the one value that all of them have
(`Policy.Selects`), and every record must settle to the same under must-equal.  Both are said of the
records as a whole, so it does not matter in which order they are reduced, nor which of them are
merged before they meet the others (`Policy.reduce_eq_bracketing`).
-/

namespace Negotiation

namespace Value

variable {a b c : Value}

/-- All of the values are numbers, or all of them are equal. -/
def Uniform (values : Set Value) : Prop :=
  (∀ c ∈ values, c.kind = .number) ∨ ∀ c ∈ values, ∀ d ∈ values, c = d

theorem Uniform.subset {S T : Set Value} (h : Uniform T) (hsub : S ⊆ T) : Uniform S := by
  rcases h with hnumbers | hequal
  · exact Or.inl fun c hc => hnumbers c (hsub hc)
  · exact Or.inr fun c hc d hd => hequal c (hsub hc) d (hsub hd)

end Value

namespace Policy

/-- The policy takes the larger or the smaller of two numbers. -/
def Ranks (policy : Policy) : Prop :=
  policy = .maximum ∨ policy = .minimum

/-- The largest of the numbers under maximum, the smallest under minimum. -/
def Extreme (policy : Policy) (numbers : Set UInt64) (n : UInt64) : Prop :=
  match policy with
  | .maximum => IsGreatest numbers n
  | .minimum => IsLeast numbers n
  | _ => numbers = {n}

/-- What a policy makes of settled values of a field: nothing where there are none, the extreme where
they are numbers, otherwise the one value that all of them are. -/
def Selects (policy : Policy) (values : Set Value) : Option Value → Prop
  | none => values = ∅
  | some (.num n) => (∀ c ∈ values, c.kind = .number) ∧ policy.Extreme {m | .num m ∈ values} n
  | some c => values = {c}

section Fields

variable {policy : Policy} {a b c : Value} {A B : Set UInt64} {m n : UInt64} {S T : Set Value}
  {x y z z' : Option Value}

theorem Ranks.ne_intersect (h : policy.Ranks) : policy ≠ .intersect := by
  rcases h with rfl | rfl <;> decide

theorem Ranks.ne_mustEqual (h : policy.Ranks) : policy ≠ .mustEqual := by
  rcases h with rfl | rfl <;> decide

theorem Extreme.mem (h : policy.Extreme A n) : n ∈ A := by
  cases policy with
  | maximum => exact h.1
  | minimum => exact h.1
  | intersect => exact Eq.symm h ▸ rfl
  | mustEqual => exact Eq.symm h ▸ rfl

theorem Extreme.unique (h : policy.Extreme A m) (h' : policy.Extreme A n) : m = n := by
  cases policy with
  | maximum => exact UInt64.le_antisymm (h'.2 h.1) (h.2 h'.1)
  | minimum => exact UInt64.le_antisymm (h.2 h'.1) (h'.2 h.1)
  | intersect => exact Set.singleton_injective (Eq.trans (Eq.symm h) h')
  | mustEqual => exact Set.singleton_injective (Eq.trans (Eq.symm h) h')

theorem extreme_singleton (policy : Policy) (n : UInt64) : policy.Extreme {n} n := by
  have hself : ∀ m ∈ ({n} : Set UInt64), m = n := fun m hm => hm
  cases policy with
  | maximum => exact ⟨rfl, fun m hm => hself m hm ▸ UInt64.le_refl m⟩
  | minimum => exact ⟨rfl, fun m hm => hself m hm ▸ UInt64.le_refl m⟩
  | intersect => rfl
  | mustEqual => rfl

/-- The larger of two largest numbers is the largest of all, and so for the smallest. -/
theorem Extreme.union (hpolicy : policy.Ranks) (hA : policy.Extreme A m) (hB : policy.Extreme B n) :
    ∃ k, policy.pick (.num m) (.num n) = .ok (.num k) ∧ policy.Extreme (A ∪ B) k := by
  rcases hpolicy with rfl | rfl
  · refine ⟨max m n, pick_maximum_num rfl rfl, ?_, ?_⟩
    · rcases Std.max_eq_or (a := m) (b := n) with heq | heq
      · rw [heq]
        exact Or.inl hA.1
      · rw [heq]
        exact Or.inr hB.1
    · rintro k (hk | hk)
      · exact UInt64.le_trans (hA.2 hk) Std.left_le_max
      · exact UInt64.le_trans (hB.2 hk) Std.right_le_max
  · refine ⟨min m n, pick_minimum_num rfl rfl, ?_, ?_⟩
    · rcases Std.min_eq_or (a := m) (b := n) with heq | heq
      · rw [heq]
        exact Or.inl hA.1
      · rw [heq]
        exact Or.inr hB.1
    · rintro k (hk | hk)
      · exact UInt64.le_trans Std.min_le_left (hA.2 hk)
      · exact UInt64.le_trans Std.min_le_right (hB.2 hk)

theorem selects_of_kind (h : c.kind ≠ .number) : policy.Selects S (some c) ↔ S = {c} := by
  cases c with
  | num n => exact absurd rfl h
  | _ => rfl

theorem Selects.eq_or (h : policy.Selects S (some c)) : S = {c} ∨ ∃ n, c = .num n ∧
    (∀ d ∈ S, d.kind = .number) ∧ policy.Extreme {m | .num m ∈ S} n := by
  cases c with
  | num n => exact Or.inr ⟨n, rfl, h⟩
  | _ => exact Or.inl h

theorem Selects.mem (h : policy.Selects S (some c)) : c ∈ S := by
  rcases h.eq_or with rfl | ⟨n, rfl, _, hextreme⟩
  · rfl
  · exact hextreme.mem

theorem Selects.uniform (h : policy.Selects S z) : Value.Uniform S := by
  cases z with
  | none => exact Or.inl fun c hc => absurd hc (Eq.symm h ▸ Set.notMem_empty c)
  | some c =>
      rcases h.eq_or with rfl | ⟨n, rfl, hnumbers, _⟩
      · exact Or.inr fun d hd e he => Eq.trans hd (Eq.symm he)
      · exact Or.inl hnumbers

theorem Selects.unique (h : policy.Selects S z) (h' : policy.Selects S z') : z = z' := by
  cases z with
  | none =>
      cases z' with
      | none => rfl
      | some c => exact absurd h'.mem (Eq.symm h ▸ Set.notMem_empty c)
  | some c =>
      cases z' with
      | none => exact absurd h.mem (Eq.symm h' ▸ Set.notMem_empty c)
      | some d =>
          rcases h.eq_or with rfl | ⟨m, rfl, _, hextreme⟩
          · exact congrArg some (Eq.symm h'.mem)
          · rcases h'.eq_or with rfl | ⟨n, rfl, _, hextreme'⟩
            · exact congrArg some h.mem
            · rw [hextreme.unique hextreme']

theorem selects_self (policy : Policy) (x : Option Value) : policy.Selects {c | x = some c} x := by
  cases x with
  | none => exact Set.eq_empty_of_forall_notMem nofun
  | some c =>
      have hsingle : {d | some c = some d} = ({c} : Set Value) :=
        Set.ext fun d => ⟨fun hd => (Option.some.inj hd).symm, fun hd => congrArg some hd.symm⟩
      rw [hsingle]
      cases c with
      | num n =>
          have hnumbers : {m | Value.num m ∈ ({.num n} : Set Value)} = {n} :=
            Set.ext fun m => ⟨fun hm => Value.num.inj hm, fun hm => congrArg Value.num hm⟩
          refine ⟨fun d hd => congrArg Value.kind hd, ?_⟩
          rw [hnumbers]
          exact extreme_singleton policy n
      | _ => rfl

/-- Where a policy joins what was selected of two groups, it selects that of both together. -/
theorem Selects.union (hpolicy : policy.Ranks) (hx : ∀ a, x = some a → a.isConcrete = true)
    (hy : ∀ b, y = some b → b.isConcrete = true) (hS : policy.Selects S x)
    (hT : policy.Selects T y) (h : policy.Joins x y z) : policy.Selects (S ∪ T) z := by
  cases h with
  | neither =>
      rw [Selects] at hS hT
      rw [hS, hT, Set.union_self]
      rfl
  | @ours a c _ hsettle =>
      rw [Value.settle?_of_isConcrete (hx a rfl)] at hsettle
      rw [Selects] at hT
      rw [hT, Set.union_empty, ← hsettle]
      exact hS
  | @theirs b c _ hsettle =>
      rw [Value.settle?_of_isConcrete (hy b rfl)] at hsettle
      rw [Selects] at hS
      rw [hS, Set.empty_union, ← hsettle]
      exact hT
  | @both a b c hmeets =>
      have hpick := (meets_iff_pick hpolicy.ne_intersect).mp hmeets
      obtain ⟨s, t, hs, ht, hchoice⟩ := exists_of_pick_eq_ok hpick
      rw [Value.settle?_of_isConcrete (hx a rfl)] at hs
      rw [Value.settle?_of_isConcrete (hy b rfl)] at ht
      cases hs
      cases ht
      by_cases hkind : a.kind = .number
      · obtain ⟨m, rfl⟩ := Value.exists_num (hx a rfl) hkind
        obtain ⟨n, rfl⟩ : ∃ n, b = .num n := by
          rcases hchoice with ⟨rfl, _⟩ | ⟨_, n, _, rfl, _⟩
          · exact ⟨m, rfl⟩
          · exact ⟨n, rfl⟩
        obtain ⟨k, hk, hextreme⟩ := hS.2.union hpolicy hT.2
        rw [hpick] at hk
        cases hk
        exact ⟨fun d hd => hd.elim (hS.1 d) (hT.1 d), hextreme⟩
      · rcases hchoice with ⟨rfl, rfl⟩ | ⟨m, _, rfl, _⟩
        · rw [selects_of_kind hkind] at hS hT ⊢
          rw [hS, hT, Set.union_self]
        · exact absurd rfl hkind

/-- What was selected of two groups can be joined if the values of both together are all numbers or
all equal. -/
theorem exists_joins_of_uniform (hpolicy : policy.Ranks)
    (hx : ∀ a, x = some a → a.isConcrete = true) (hy : ∀ b, y = some b → b.isConcrete = true)
    (hS : policy.Selects S x) (hT : policy.Selects T y) (h : Value.Uniform (S ∪ T)) :
    ∃ z, policy.Joins x y z := by
  cases x with
  | none =>
      cases y with
      | none => exact ⟨none, .neither⟩
      | some b => exact ⟨some b, .theirs hpolicy.ne_mustEqual (Value.settle?_of_isConcrete (hy b rfl))⟩
  | some a =>
      have ha := Value.settle?_of_isConcrete (hx a rfl)
      cases y with
      | none => exact ⟨some a, .ours hpolicy.ne_mustEqual ha⟩
      | some b =>
          suffices hpick : ∃ c, policy.pick a b = .ok c by
            obtain ⟨c, hc⟩ := hpick
            exact ⟨some c, .both ((meets_iff_pick hpolicy.ne_intersect).mpr hc)⟩
          rcases h with hnumbers | hequal
          · obtain ⟨m, rfl⟩ := Value.exists_num (hx a rfl) (hnumbers a (Or.inl hS.mem))
            obtain ⟨n, rfl⟩ := Value.exists_num (hy b rfl) (hnumbers b (Or.inr hT.mem))
            obtain ⟨k, hk, _⟩ := hS.2.union hpolicy hT.2
            exact ⟨.num k, hk⟩
          · obtain rfl := hequal a (Or.inl hS.mem) b (Or.inr hT.mem)
            exact ⟨a, pick_of_settle? ha ha⟩

theorem pick_settle? {s t : Value} (ha : a.settle? = some s) (hb : b.settle? = some t) :
    policy.pick a b = policy.pick s t := by
  have hs := Value.settle?_of_isConcrete (Value.isConcrete_of_settle? ha)
  have ht := Value.settle?_of_isConcrete (Value.isConcrete_of_settle? hb)
  rw [pick, pick, Value.settle_eq_ok_iff.mpr ha, Value.settle_eq_ok_iff.mpr hb,
    Value.settle_eq_ok_iff.mpr hs, Value.settle_eq_ok_iff.mpr ht]

/-- Other than by intersection, a field is joined by what the two sides settle to. -/
theorem joins_settle_iff (hpolicy : policy ≠ .intersect) {x' y' : Option Value}
    (hx : Option.Rel (fun a b => a.settle? = some b) x x')
    (hy : Option.Rel (fun a b => a.settle? = some b) y y') :
    policy.Joins x y z ↔ policy.Joins x' y' z := by
  have hsettled : ∀ {a s : Value}, a.settle? = some s → s.settle? = a.settle? := fun h =>
    (Value.settle?_of_isConcrete (Value.isConcrete_of_settle? h)).trans h.symm
  cases hx with
  | none =>
      cases hy with
      | none => rfl
      | some hb =>
          constructor
          · rintro (_ | _ | ⟨hne, hsettle⟩)
            exact .theirs hne ((hsettled hb).trans hsettle)
          · rintro (_ | _ | ⟨hne, hsettle⟩)
            exact .theirs hne ((hsettled hb).symm.trans hsettle)
  | some ha =>
      cases hy with
      | none =>
          constructor
          · rintro (_ | ⟨hne, hsettle⟩)
            exact .ours hne ((hsettled ha).trans hsettle)
          · rintro (_ | ⟨hne, hsettle⟩)
            exact .ours hne ((hsettled ha).symm.trans hsettle)
      | some hb =>
          constructor
          · rintro (_ | _ | _ | hmeets)
            rw [meets_iff_pick hpolicy, pick_settle? ha hb] at hmeets
            exact .both ((meets_iff_pick hpolicy).mpr hmeets)
          · rintro (_ | _ | _ | hmeets)
            rw [meets_iff_pick hpolicy, ← pick_settle? ha hb] at hmeets
            exact .both ((meets_iff_pick hpolicy).mpr hmeets)

end Fields

section Records

variable {policy : Policy} {p q r down up merged : Parameter} {values : List Parameter}
  {t u : Bracketing Parameter}

/-- Other than by intersection, records are merged as what they settle to. -/
theorem merge_settle_iff (hpolicy : policy ≠ .intersect) : policy.merge down up = .ok merged ↔
    ∃ d u, down.settle = .ok d ∧ up.settle = .ok u ∧ policy.merge d u = .ok merged := by
  constructor
  · intro h
    obtain ⟨⟨d, hd⟩, u, hu⟩ := exists_settle_of_joins hpolicy (joins_of_merge h)
    refine ⟨d, u, hd, hu, merge_eq_ok_iff.mpr fun name => ?_⟩
    exact (joins_settle_iff hpolicy (Parameter.get?_of_settle hd name)
      (Parameter.get?_of_settle hu name)).mp (joins_of_merge h name)
  · rintro ⟨d, u, hd, hu, h⟩
    refine merge_eq_ok_iff.mpr fun name => ?_
    exact (joins_settle_iff hpolicy (Parameter.get?_of_settle hd name)
      (Parameter.get?_of_settle hu name)).mpr (joins_of_merge h name)

/-- Merge the parts of a bracketing and settle what comes of it. -/
def gather (policy : Policy) (t : Bracketing Parameter) : Except Reason Parameter := do
  (← t.eval policy.merge).settle

theorem gather_node (hpolicy : policy ≠ .intersect) :
    policy.gather (.node t u) = .ok merged ↔
      ∃ d e, policy.gather t = .ok d ∧ policy.gather u = .ok e ∧ policy.merge d e = .ok merged := by
  simp only [gather, Bracketing.eval, bind_eq_ok_iff]
  constructor
  · rintro ⟨whole, ⟨left, hleft, right, hright, hwhole⟩, hsettle⟩
    rw [Parameter.settle_of_isConcrete (isConcrete_of_merge hwhole)] at hsettle
    cases hsettle
    obtain ⟨d, e, hd, he, hmerge⟩ := (merge_settle_iff hpolicy).mp hwhole
    exact ⟨d, e, ⟨left, hleft, hd⟩, ⟨right, hright, he⟩, hmerge⟩
  · rintro ⟨d, e, ⟨left, hleft, hd⟩, ⟨right, hright, he⟩, hmerge⟩
    have hwhole := (merge_settle_iff hpolicy).mpr ⟨d, e, hd, he, hmerge⟩
    exact ⟨merged, ⟨left, hleft, right, hright, hwhole⟩,
      Parameter.settle_of_isConcrete (isConcrete_of_merge hmerge)⟩

theorem isConcrete_of_gather (h : policy.gather t = .ok r) : r.isConcrete = true := by
  obtain ⟨whole, _, hsettle⟩ := exists_of_bind_eq_ok h
  exact (Parameter.keeps_of_settle hsettle).1

end Records

end Policy

namespace Parameter

/-- What a field settles to in the records that have it. -/
def settlements (name : String) (values : List Parameter) : Set Value :=
  {c | ∃ p ∈ values, ∃ s, p.settle = .ok s ∧ s.get? name = some c}

variable {p s : Parameter} {left right : List Parameter} {name : String}

theorem settlements_append :
    settlements name (left ++ right) = settlements name left ∪ settlements name right := by
  ext c
  constructor
  · rintro ⟨p, hp, h⟩
    exact (List.mem_append.mp hp).imp (fun hleft => ⟨p, hleft, h⟩) fun hright => ⟨p, hright, h⟩
  · rintro (⟨p, hp, h⟩ | ⟨p, hp, h⟩)
    · exact ⟨p, List.mem_append_left _ hp, h⟩
    · exact ⟨p, List.mem_append_right _ hp, h⟩

theorem settlements_singleton (h : p.settle = .ok s) :
    settlements name [p] = {c | s.get? name = some c} := by
  ext c
  constructor
  · rintro ⟨q, hq, s', hs', hc⟩
    rw [List.mem_singleton.mp hq, h] at hs'
    cases hs'
    exact hc
  · exact fun hc => ⟨p, List.mem_cons_self, s, h, hc⟩

theorem settlements_perm (h : left.Perm right) : settlements name left = settlements name right := by
  ext c
  simp only [settlements, h.mem_iff, Set.mem_ofPred_eq]

end Parameter

namespace Policy

open Parameter

section Gather

variable {policy : Policy} {r : Parameter} {t u : Bracketing Parameter} {values : List Parameter}

theorem settles_of_gather (hpolicy : policy ≠ .intersect) (h : policy.gather t = .ok r) :
    ∀ p ∈ t.parts, ∃ s, p.settle = .ok s := by
  induction t generalizing r with
  | leaf p => exact fun q hq => ⟨r, List.mem_singleton.mp hq ▸ h⟩
  | node left right ihleft ihright =>
      obtain ⟨d, e, hd, he, _⟩ := (gather_node hpolicy).mp h
      exact List.forall_mem_append.mpr ⟨ihleft hd, ihright he⟩

/-- However records are bracketed, maximum and minimum select from all of them. -/
theorem selects_of_gather (hpolicy : policy.Ranks) (h : policy.gather t = .ok r) (name : String) :
    policy.Selects (settlements name t.parts) (r.get? name) := by
  induction t generalizing r with
  | leaf p =>
      rw [Bracketing.parts, settlements_singleton h]
      exact selects_self policy _
  | node left right ihleft ihright =>
      obtain ⟨d, e, hd, he, hmerge⟩ := (gather_node hpolicy.ne_intersect).mp h
      rw [Bracketing.parts, settlements_append]
      exact (ihleft hd).union hpolicy (isConcrete_iff.mp (isConcrete_of_gather hd) name)
        (isConcrete_iff.mp (isConcrete_of_gather he) name) (ihright he) (joins_of_merge hmerge name)

theorem exists_gather_eq_ok (hpolicy : policy.Ranks) (h : ∀ p ∈ t.parts, ∃ s, p.settle = .ok s)
    (huniform : ∀ name, Value.Uniform (settlements name t.parts)) :
    ∃ r, policy.gather t = .ok r := by
  induction t with
  | leaf p => exact h p List.mem_cons_self
  | node left right ihleft ihright =>
      obtain ⟨hleft, hright⟩ := List.forall_mem_append.mp h
      simp only [Bracketing.parts, settlements_append] at huniform
      obtain ⟨d, hd⟩ := ihleft hleft fun name => (huniform name).subset Set.subset_union_left
      obtain ⟨e, he⟩ := ihright hright fun name => (huniform name).subset Set.subset_union_right
      obtain ⟨r, hr⟩ : ∃ r, policy.merge d e = .ok r := exists_merge_eq_ok fun name =>
        exists_joins_of_uniform hpolicy (isConcrete_iff.mp (isConcrete_of_gather hd) name)
          (isConcrete_iff.mp (isConcrete_of_gather he) name) (selects_of_gather hpolicy hd name)
          (selects_of_gather hpolicy he name) (huniform name)
      exact ⟨r, (gather_node hpolicy.ne_intersect).mpr ⟨d, e, hd, he, hr⟩⟩

theorem gather_eq_ok_iff (hpolicy : policy.Ranks) : policy.gather t = .ok r ↔
    (∀ p ∈ t.parts, ∃ s, p.settle = .ok s) ∧
      ∀ name, policy.Selects (settlements name t.parts) (r.get? name) := by
  constructor
  · exact fun h => ⟨settles_of_gather hpolicy.ne_intersect h, selects_of_gather hpolicy h⟩
  · rintro ⟨hsettles, hselects⟩
    obtain ⟨found, hfound⟩ := exists_gather_eq_ok hpolicy hsettles fun name => (hselects name).uniform
    have hsame : found = r := Fields.ext_get? fun name =>
      (selects_of_gather hpolicy hfound name).unique (hselects name)
    rw [hfound, hsame]

theorem merge_mustEqual_eq_ok_iff {d e : Parameter} :
    mustEqual.merge d e = .ok r ↔ d.settle = .ok r ∧ e.settle = .ok r := by
  constructor
  · intro h
    obtain ⟨d', hd, h⟩ := exists_of_bind_eq_ok h
    obtain ⟨e', he, h⟩ := exists_of_bind_eq_ok h
    split at h
    · rename_i heq
      cases h
      exact ⟨hd, heq ▸ he⟩
    · cases h
  · rintro ⟨hd, he⟩
    rw [merge, hd, he]
    exact if_pos rfl

/-- However records are bracketed, must-equal wants all of them to settle to the same. -/
theorem gather_mustEqual_eq_ok_iff :
    mustEqual.gather t = .ok r ↔ ∀ p ∈ t.parts, p.settle = .ok r := by
  induction t generalizing r with
  | leaf p =>
      rw [Bracketing.parts, List.forall_mem_singleton]
      rfl
  | node left right ihleft ihright =>
      rw [gather_node (by decide), Bracketing.parts, List.forall_mem_append, ← ihleft, ← ihright]
      have hself : ∀ {t : Bracketing Parameter} {d : Parameter}, mustEqual.gather t = .ok d →
          d.settle = .ok d := fun h => settle_of_isConcrete (isConcrete_of_gather h)
      constructor
      · rintro ⟨d, e, hd, he, hmerge⟩
        obtain ⟨hsettle, hsettle'⟩ := merge_mustEqual_eq_ok_iff.mp hmerge
        rw [hself hd] at hsettle
        rw [hself he] at hsettle'
        cases hsettle
        cases hsettle'
        exact ⟨hd, he⟩
      · rintro ⟨hd, he⟩
        exact ⟨r, r, hd, he, merge_mustEqual_eq_ok_iff.mpr ⟨hself hd, hself hd⟩⟩

/-- Neither the order nor the bracketing matters to what is gathered. -/
theorem gather_perm (hpolicy : policy ≠ .intersect) (h : t.parts.Perm u.parts) :
    policy.gather t = .ok r ↔ policy.gather u = .ok r := by
  have hranks : policy.Ranks → (policy.gather t = .ok r ↔ policy.gather u = .ok r) := by
    intro hranks
    simp only [gather_eq_ok_iff hranks, settlements_perm h, h.mem_iff]
  cases policy with
  | intersect => exact absurd rfl hpolicy
  | maximum => exact hranks (Or.inl rfl)
  | minimum => exact hranks (Or.inr rfl)
  | mustEqual => simp only [gather_mustEqual_eq_ok_iff, h.mem_iff]

theorem merge_settle_left (hpolicy : policy ≠ .intersect) {down up : Parameter} :
    policy.merge down up = .ok r ↔ ∃ d, down.settle = .ok d ∧ policy.merge d up = .ok r := by
  have hself : ∀ {d : Parameter}, down.settle = .ok d → d.settle = .ok d :=
    fun hd => settle_of_isConcrete (keeps_of_settle hd).1
  constructor
  · intro h
    obtain ⟨d, u, hd, hu, hmerge⟩ := (merge_settle_iff hpolicy).mp h
    exact ⟨d, hd, (merge_settle_iff hpolicy).mpr ⟨d, u, hself hd, hu, hmerge⟩⟩
  · rintro ⟨d, hd, h⟩
    obtain ⟨d', u, hd', hu, hmerge⟩ := (merge_settle_iff hpolicy).mp h
    rw [hself hd] at hd'
    cases hd'
    exact (merge_settle_iff hpolicy).mpr ⟨d, u, hd, hu, hmerge⟩

/-- A reduction gathers one record after the other. -/
theorem reduce_cons_eq_ok_iff (hpolicy : policy ≠ .intersect) {first : Parameter}
    {rest : List Parameter} : policy.reduce (first :: rest) = .ok r ↔
      policy.gather (.comb (.leaf first) rest) = .ok r := by
  have hcomb : (Bracketing.comb (.leaf first) rest).eval policy.merge =
      rest.foldlM policy.merge first := Bracketing.eval_comb policy.merge (.leaf first) rest
  rw [reduce, gather, hcomb]
  cases rest with
  | nil =>
      change (first.settle >>= fun s => .ok s) = .ok r ↔ first.settle = .ok r
      simp only [bind_eq_ok_iff, Except.ok.injEq, exists_eq_right]
  | cons next rest =>
      simp only [List.foldlM_cons, bind_eq_ok_iff]
      constructor
      · rintro ⟨s, hs, m, hm, hrest⟩
        have hconcrete := (keeps_of_foldlM (isConcrete_of_merge hm) hrest).1
        exact ⟨r, ⟨m, (merge_settle_left hpolicy).mpr ⟨s, hs, hm⟩, hrest⟩,
          settle_of_isConcrete hconcrete⟩
      · rintro ⟨whole, ⟨m, hm, hrest⟩, hsettle⟩
        rw [settle_of_isConcrete (keeps_of_foldlM (isConcrete_of_merge hm) hrest).1] at hsettle
        cases hsettle
        obtain ⟨s, hs, hm⟩ := (merge_settle_left hpolicy).mp hm
        exact ⟨s, hs, m, hm, hrest⟩

/-- What is reduced is gathered by any bracketing of the same records, in any order. -/
theorem reduce_eq_bracketing (hpolicy : policy ≠ .intersect) (h : t.parts.Perm values) :
    policy.reduce values = .ok r ↔ policy.gather t = .ok r := by
  cases values with
  | nil => exact absurd h.eq_nil t.parts_ne_nil
  | cons first rest =>
      rw [reduce_cons_eq_ok_iff hpolicy]
      refine gather_perm hpolicy ?_
      rw [Bracketing.parts_comb]
      exact h.symm

theorem exists_bracketing (h : values ≠ []) : ∃ t : Bracketing Parameter, t.parts = values := by
  cases values with
  | nil => exact absurd rfl h
  | cons first rest => exact ⟨.comb (.leaf first) rest, Bracketing.parts_comb _ _⟩

theorem reduce_perm (hpolicy : policy ≠ .intersect) {others : List Parameter}
    (h : values.Perm others) : policy.reduce values = .ok r ↔ policy.reduce others = .ok r := by
  by_cases hne : values = []
  · subst hne
    rw [h.nil_eq]
  · obtain ⟨t, rfl⟩ := exists_bracketing hne
    rw [reduce_eq_bracketing hpolicy (List.Perm.refl _), reduce_eq_bracketing hpolicy h]

theorem reduce_mustEqual_eq_ok_iff :
    mustEqual.reduce values = .ok r ↔ values ≠ [] ∧ ∀ p ∈ values, p.settle = .ok r := by
  by_cases hne : values = []
  · subst hne
    exact ⟨nofun, fun h => absurd rfl h.1⟩
  · obtain ⟨t, rfl⟩ := exists_bracketing hne
    rw [reduce_eq_bracketing (by decide) (List.Perm.refl _), gather_mustEqual_eq_ok_iff,
      and_iff_right hne]

theorem reduce_eq_ok_iff (hpolicy : policy.Ranks) : policy.reduce values = .ok r ↔
    values ≠ [] ∧ (∀ p ∈ values, ∃ s, p.settle = .ok s) ∧
      ∀ name, policy.Selects (settlements name values) (r.get? name) := by
  by_cases hne : values = []
  · subst hne
    exact ⟨nofun, fun h => absurd rfl h.1⟩
  · obtain ⟨t, rfl⟩ := exists_bracketing hne
    rw [reduce_eq_bracketing hpolicy.ne_intersect (List.Perm.refl _), gather_eq_ok_iff hpolicy,
      and_iff_right hne]

theorem exists_reduce_iff (hpolicy : policy.Ranks) : (∃ r, policy.reduce values = .ok r) ↔
    values ≠ [] ∧ (∀ p ∈ values, ∃ s, p.settle = .ok s) ∧
      ∀ name, Value.Uniform (settlements name values) := by
  constructor
  · rintro ⟨r, h⟩
    obtain ⟨hne, hsettles, hselects⟩ := (reduce_eq_ok_iff hpolicy).mp h
    exact ⟨hne, hsettles, fun name => (hselects name).uniform⟩
  · rintro ⟨hne, hsettles, huniform⟩
    obtain ⟨t, rfl⟩ := exists_bracketing hne
    obtain ⟨r, hr⟩ := exists_gather_eq_ok hpolicy hsettles huniform
    exact ⟨r, (reduce_eq_bracketing hpolicy.ne_intersect (List.Perm.refl _)).mpr hr⟩

/-- What many records are reduced to, other than by intersection.  Under must-equal all of them
settle to it.  Under maximum and minimum there is something if all of them settle and what each field
settles to are numbers or all the same, and it has of each field the extreme of these numbers or that
value, and no field that none of them has.  The order of the records does not matter, nor does any
bracketing of the merges. -/
theorem reduced_to_selection (values : List Parameter) :
    (∀ r, mustEqual.reduce values = .ok r ↔ values ≠ [] ∧ ∀ p ∈ values, p.settle = .ok r) ∧
    (∀ policy : Policy, policy = .maximum ∨ policy = .minimum →
      ((∃ r, policy.reduce values = .ok r) ↔ values ≠ [] ∧
        (∀ p ∈ values, ∃ s, p.settle = .ok s) ∧ ∀ name, Value.Uniform (settlements name values)) ∧
      ∀ r, policy.reduce values = .ok r →
        ∀ name, policy.Selects (settlements name values) (r.get? name)) ∧
    ∀ policy : Policy, policy ≠ .intersect →
      (∀ others, values.Perm others →
        ∀ r, policy.reduce values = .ok r ↔ policy.reduce others = .ok r) ∧
      ∀ t : Bracketing Parameter, t.parts.Perm values →
        ∀ r, policy.reduce values = .ok r ↔ policy.gather t = .ok r :=
  ⟨fun _ => reduce_mustEqual_eq_ok_iff,
    fun _ hpolicy => ⟨exists_reduce_iff hpolicy,
      fun _ h => ((reduce_eq_ok_iff hpolicy).mp h).2.2⟩,
    fun _ hpolicy => ⟨fun _ hperm _ => reduce_perm hpolicy hperm,
      fun _ hparts _ => reduce_eq_bracketing hpolicy hparts⟩⟩

/-- A record of settled values, one of a width alone that is still open, and one that opens another
field. -/
def unevenWidths : List Parameter :=
  [.ofList [("mode", .sym "burst"), ("width", .num 8)],
    .ofList [("width", .oneOf (.ofList [4, 16]))],
    .ofList [("lanes", .span 1 2), ("mode", .sym "burst"), ("width", .span 6 12)]]

theorem unevenWidths_reduced :
    maximum.reduce unevenWidths =
        .ok (.ofList [("lanes", .num 2), ("mode", .sym "burst"), ("width", .num 16)]) ∧
      maximum.reduce unevenWidths.reverse = maximum.reduce unevenWidths ∧
      maximum.Selects (settlements "width" unevenWidths) (some (.num 16)) ∧
      (∀ t : Bracketing Parameter, t.parts = unevenWidths.reverse → minimum.gather t =
        .ok (.ofList [("lanes", .num 2), ("mode", .sym "burst"), ("width", .num 8)])) ∧
      ∀ r, mustEqual.reduce unevenWidths ≠ .ok r := by
  have hlargest : maximum.reduce unevenWidths =
      .ok (.ofList [("lanes", .num 2), ("mode", .sym "burst"), ("width", .num 16)]) := rfl
  have hsmallest : minimum.reduce unevenWidths =
      .ok (.ofList [("lanes", .num 2), ("mode", .sym "burst"), ("width", .num 8)]) := rfl
  have hreverse := List.reverse_perm unevenWidths
  obtain ⟨hequal, hranks, hany⟩ := reduced_to_selection unevenWidths
  have hselects := (hranks maximum (Or.inl rfl)).2 _ hlargest "width"
  refine ⟨hlargest, ?_, hselects, fun t ht => ?_, fun r hr => ?_⟩
  · exact (((hany maximum (by decide)).1 _ hreverse.symm _).mp hlargest).trans hlargest.symm
  · exact ((hany minimum (by decide)).2 t (ht ▸ hreverse) _).mp hsmallest
  · obtain ⟨_, hsame⟩ := (hequal r).mp hr
    have hfirst := hsame (.ofList [("mode", .sym "burst"), ("width", .num 8)]) List.mem_cons_self
    have hsecond := hsame (.ofList [("width", .oneOf (.ofList [4, 16]))]) (by simp [unevenWidths])
    exact absurd (hfirst.trans hsecond.symm) (by decide)

end Gather

end Policy

end Negotiation
