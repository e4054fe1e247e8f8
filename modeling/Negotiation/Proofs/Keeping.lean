import Negotiation.Proofs.Merging

/-!
What a policy keeps.

`Policy.Keeps` compares what was agreed with what is asked for: under `maximum` no number that is
asked for is larger, under `minimum` none is smaller, under `intersect` every address that was agreed
is among those asked for.  What is merged keeps both of its sides (`Policy.keeps_of_merge`), also
under another policy, unless one of the two pulls numbers up and the other pulls them down
(`Policy.keeps_of_merge_of_opposes`).  And a settled parameter comes out of a merge as it went in if
and only if it keeps the other side (`Policy.merge_eq_iff_keeps`).
-/

namespace Negotiation

namespace Value

variable {a b c : Value}

theorem kind_of_admits {n : UInt64} (h : a.admits n = true) : a.kind = .number := by
  cases a with
  | num m => rfl
  | oneOf set => rfl
  | span lo hi => rfl
  | _ => cases h

theorem kind_of_restrict? {set : NumberSet} (h : restrict? set a = some c) :
    a.kind = .number ∧ c.kind = .number := by
  simp only [restrict?] at h
  split at h
  · cases h
  · rename_i hkept
    cases h
    constructor
    · obtain ⟨n, hn⟩ := List.exists_mem_of_ne_nil _ fun hnil => hkept (List.isEmpty_iff.mpr hnil)
      exact kind_of_admits (NumberSet.mem_filter.mp hn).2
    · rw [ofSet]
      split <;> rfl

/-- What satisfies two values: a number, if both are about numbers; the symbol or flag that both
are; or the addresses of both. -/
theorem intersect?_eq_some (h : a.intersect? b = some c) :
    (a.kind = .number ∧ b.kind = .number ∧ c.kind = .number) ∨
      (a = b ∧ c = a ∧ a.kind ≠ .address) ∨
        ∃ s t, a = .addr s ∧ b = .addr t ∧ c = .addr (s.intersect t) := by
  rw [intersect?.eq_def] at h
  split at h
  · split at h
    · rename_i hadmits
      cases h
      exact Or.inl ⟨rfl, kind_of_admits hadmits, rfl⟩
    · cases h
  · split at h
    · rename_i hadmits
      cases h
      exact Or.inl ⟨kind_of_admits hadmits, rfl, rfl⟩
    · cases h
  · obtain ⟨hkind, hkind'⟩ := kind_of_restrict? h
    exact Or.inl ⟨rfl, hkind, hkind'⟩
  · obtain ⟨hkind, hkind'⟩ := kind_of_restrict? h
    exact Or.inl ⟨hkind, rfl, hkind'⟩
  · split at h
    · cases h
      refine Or.inl ⟨rfl, rfl, ?_⟩
      rw [between]
      split <;> rfl
    · cases h
  · split at h
    · rename_i heq
      cases h
      exact Or.inr (Or.inl ⟨congrArg _ heq, rfl, nofun⟩)
    · cases h
  · split at h
    · rename_i heq
      cases h
      exact Or.inr (Or.inl ⟨congrArg _ heq, rfl, nofun⟩)
    · cases h
  · split at h
    · cases h
    · cases h
      exact Or.inr (Or.inr ⟨_, _, rfl, rfl, rfl⟩)
  · cases h

theorem intersect?_num {n : UInt64} (h : (num n).intersect? b = some c) : c = num n := by
  rw [intersect?] at h
  split at h
  · exact (Option.some.inj h).symm
  · cases h

theorem intersect?_num_right {n : UInt64} (h : a.intersect? (num n) = some c) : c = num n := by
  have hadmits : (if a.admits n then some (num n) else none) = some c → c = num n := by
    intro hsome
    split at hsome
    · exact (Option.some.inj hsome).symm
    · cases hsome
  cases a with
  | num m =>
      obtain rfl := intersect?_num h
      rw [intersect?] at h
      split at h
      · rename_i hadmits
        rw [eq_of_beq hadmits]
      · cases h
  | _ => exact hadmits h

/-- A settled value that is no address set is what satisfies it and another value. -/
theorem intersect?_of_isConcrete (ha : a.isConcrete = true) (hkind : a.kind ≠ .address)
    (h : a.intersect? b = some c ∨ b.intersect? a = some c) : c = a := by
  cases a with
  | num n => exact h.elim intersect?_num intersect?_num_right
  | oneOf set => cases ha
  | span lo hi => cases ha
  | addr set => exact absurd rfl hkind
  | _ =>
      rcases h with h | h
      · rcases intersect?_eq_some h with ⟨hnumber, _⟩ | ⟨_, rfl, _⟩ | ⟨_, _, haddr, _⟩
        · cases hnumber
        · rfl
        · cases haddr
      · rcases intersect?_eq_some h with ⟨_, hnumber, _⟩ | ⟨rfl, rfl, _⟩ | ⟨_, _, _, haddr, _⟩
        · cases hnumber
        · rfl
        · cases haddr

theorem toNumber?_of_settle? (h : a.settle? = some c) : c.toNumber? = a.toNumber? := by
  rw [toNumber?, toNumber?, h, settle?_of_isConcrete (isConcrete_of_settle? h)]

theorem toNumber?_eq_some {n : UInt64} : a.toNumber? = some n ↔ a.settle? = some (.num n) := by
  rw [toNumber?]
  split
  · rename_i m hsettle
    rw [hsettle, Option.some.injEq, Option.some.injEq, num.injEq]
  · rename_i hnot
    exact ⟨nofun, fun hsettle => absurd hsettle (hnot n)⟩

end Value

namespace Policy

/-- What is asked for does not go beyond what was agreed: no number is larger, or smaller, where the
policy takes the larger, or smaller, one, and every address that was agreed is asked for. -/
def KeepsValue (policy : Policy) (agreed asked : Value) : Prop :=
  match policy with
  | .maximum => ∀ m, asked.toNumber? = some m → ∃ n, agreed.toNumber? = some n ∧ m ≤ n
  | .minimum => ∀ m, asked.toNumber? = some m → ∃ n, agreed.toNumber? = some n ∧ n ≤ m
  | .intersect => ∀ s, asked = .addr s → ∃ t, agreed = .addr t ∧
      ∀ address, t.contains address = true → s.contains address = true
  | .mustEqual => True

/-- No field that is asked for goes beyond what was agreed. -/
def Keeps (policy : Policy) (agreed asked : Parameter) : Prop :=
  ∀ name b, asked.get? name = some b → ∃ a, agreed.get? name = some a ∧ policy.KeepsValue a b

/-- One policy pulls numbers up and the other pulls them down. -/
def opposes : Policy → Policy → Bool
  | .maximum, .minimum | .minimum, .maximum => true
  | _, _ => false

section Value

variable {policy other : Policy} {a b c : Value}

theorem KeepsValue.trans (h : policy.KeepsValue a b) (h' : policy.KeepsValue b c) :
    policy.KeepsValue a c := by
  cases policy with
  | intersect =>
      intro s hs
      obtain ⟨t, ht, hsub⟩ := h' s hs
      obtain ⟨r, hr, hsub'⟩ := h t ht
      exact ⟨r, hr, fun address hin => hsub address (hsub' address hin)⟩
  | maximum =>
      intro m hm
      obtain ⟨n, hn, hle⟩ := h' m hm
      obtain ⟨k, hk, hle'⟩ := h n hn
      exact ⟨k, hk, UInt64.le_trans hle hle'⟩
  | minimum =>
      intro m hm
      obtain ⟨n, hn, hle⟩ := h' m hm
      obtain ⟨k, hk, hle'⟩ := h n hn
      exact ⟨k, hk, UInt64.le_trans hle' hle⟩
  | mustEqual => trivial

theorem keepsValue_of_settle? (policy : Policy) (h : a.settle? = some c) : policy.KeepsValue c a := by
  cases policy with
  | intersect =>
      rintro s rfl
      exact ⟨s, (Option.some.inj h).symm, fun _ hin => hin⟩
  | maximum => exact fun m hm => ⟨m, (Value.toNumber?_of_settle? h).trans hm, UInt64.le_refl m⟩
  | minimum => exact fun m hm => ⟨m, (Value.toNumber?_of_settle? h).trans hm, UInt64.le_refl m⟩
  | mustEqual => trivial

theorem keepsValue_of_pick (h : policy.pick a b = .ok c) : policy.KeepsValue c a := by
  obtain ⟨s, t, hs, _, ⟨rfl, rfl⟩ | ⟨m, n, rfl, rfl, ⟨rfl, rfl⟩ | ⟨rfl, rfl⟩⟩⟩ :=
    exists_of_pick_eq_ok h
  · exact keepsValue_of_settle? policy hs
  · have hleft : Policy.maximum.KeepsValue (.num (max m n)) (.num m) :=
      fun k hk => ⟨max m n, rfl, by cases hk; exact Std.left_le_max⟩
    exact hleft.trans (keepsValue_of_settle? .maximum hs)
  · have hleft : Policy.minimum.KeepsValue (.num (min m n)) (.num m) :=
      fun k hk => ⟨min m n, rfl, by cases hk; exact Std.min_le_left⟩
    exact hleft.trans (keepsValue_of_settle? .minimum hs)

theorem keepsValue_of_intersect? (h : a.intersect? b = some c ∨ b.intersect? a = some c) :
    Policy.intersect.KeepsValue c a := by
  rintro s rfl
  rcases h with h | h
  · rcases Value.intersect?_eq_some h with ⟨hkind, _⟩ | ⟨_, _, hkind⟩ | ⟨r, t, hr, _, rfl⟩
    · cases hkind
    · exact absurd rfl hkind
    · cases hr
      exact ⟨_, rfl, fun address hin => (WindowSet.contains_of_intersect hin).1⟩
  · rcases Value.intersect?_eq_some h with ⟨_, hkind, _⟩ | ⟨heq, _, hkind⟩ | ⟨t, r, _, hr, rfl⟩
    · cases hkind
    · rw [heq] at hkind
      exact absurd rfl hkind
    · cases hr
      exact ⟨_, rfl, fun address hin => (WindowSet.contains_of_intersect hin).2⟩

theorem keepsValue_of_meets (h : policy.Meets a b c ∨ policy.Meets b a c) :
    policy.KeepsValue c a := by
  cases policy with
  | intersect =>
      rcases h with ⟨both, hboth, hsettle⟩ | ⟨both, hboth, hsettle⟩
      · exact (keepsValue_of_settle? .intersect hsettle).trans
          (keepsValue_of_intersect? (Or.inl hboth))
      · exact (keepsValue_of_settle? .intersect hsettle).trans
          (keepsValue_of_intersect? (Or.inr hboth))
  | maximum => exact keepsValue_of_pick (h.elim id pick_comm)
  | minimum => exact keepsValue_of_pick (h.elim id pick_comm)
  | mustEqual => trivial

theorem keepsValue_intersect_of_pick (h : policy.pick a b = .ok c) :
    Policy.intersect.KeepsValue c a := by
  obtain ⟨s, t, hs, _, ⟨rfl, rfl⟩ | ⟨m, n, rfl, rfl, _⟩⟩ := exists_of_pick_eq_ok h
  · exact keepsValue_of_settle? .intersect hs
  · rintro r rfl
    cases hs

theorem keepsValue_of_kind_address (hkind : a.kind = .address) (hown : Policy.intersect.KeepsValue c a)
    (policy : Policy) : policy.KeepsValue c a := by
  have hnone : a.toNumber? = none := by
    cases a with
    | addr s => rfl
    | _ => cases hkind
  cases policy with
  | intersect => exact hown
  | maximum => exact fun m hm => by rw [hnone] at hm; cases hm
  | minimum => exact fun m hm => by rw [hnone] at hm; cases hm
  | mustEqual => trivial

theorem settle?_of_meets_intersect (ha : a.isConcrete = true) (hkind : a.kind ≠ .address)
    (h : Policy.intersect.Meets a b c ∨ Policy.intersect.Meets b a c) : a.settle? = some c := by
  rcases h with ⟨both, hboth, hsettle⟩ | ⟨both, hboth, hsettle⟩
  · rw [← Value.intersect?_of_isConcrete ha hkind (Or.inl hboth), hsettle]
  · rw [← Value.intersect?_of_isConcrete ha hkind (Or.inr hboth), hsettle]

/-- What two values become under one policy keeps a settled one of them under another policy, unless
the policies oppose one another. -/
theorem keepsValue_of_meets_of_opposes (hopposes : policy.opposes other = false)
    (ha : a.isConcrete = true) (h : policy.Meets a b c ∨ policy.Meets b a c) :
    other.KeepsValue c a := by
  have hown := keepsValue_of_meets h
  have haddr : policy.pick a b = .ok c ∨ policy.pick b a = .ok c →
      Policy.intersect.KeepsValue c a := fun hpick =>
    keepsValue_intersect_of_pick (hpick.elim id pick_comm)
  cases policy with
  | intersect =>
      by_cases hkind : a.kind = .address
      · exact keepsValue_of_kind_address hkind hown other
      · exact keepsValue_of_settle? other (settle?_of_meets_intersect ha hkind h)
  | mustEqual =>
      exact keepsValue_of_settle? other (pick_mustEqual_eq_ok_iff.mp (h.elim id pick_comm)).1
  | maximum =>
      cases other with
      | intersect => exact haddr h
      | maximum => exact hown
      | minimum => cases hopposes
      | mustEqual => trivial
  | minimum =>
      cases other with
      | intersect => exact haddr h
      | maximum => cases hopposes
      | minimum => exact hown
      | mustEqual => trivial

theorem eq_of_pick_of_keepsValue (ha : a.isConcrete = true) (h : policy.pick a b = .ok c)
    (hkeeps : policy.KeepsValue a b) : c = a := by
  have hself := Value.settle?_of_isConcrete ha
  obtain ⟨s, t, hs, ht, ⟨_, rfl⟩ | ⟨m, n, rfl, rfl, ⟨rfl, rfl⟩ | ⟨rfl, rfl⟩⟩⟩ :=
    exists_of_pick_eq_ok h
  · exact Option.some.inj (hs.symm.trans hself)
  · obtain rfl : a = .num m := Option.some.inj (hself.symm.trans hs)
    obtain ⟨k, hk, hle⟩ := hkeeps n (Value.toNumber?_eq_some.mpr ht)
    cases hk
    exact congrArg Value.num
      (Std.le_antisymm (Std.max_le_iff.mpr ⟨UInt64.le_refl m, hle⟩) Std.left_le_max)
  · obtain rfl : a = .num m := Option.some.inj (hself.symm.trans hs)
    obtain ⟨k, hk, hle⟩ := hkeeps n (Value.toNumber?_eq_some.mpr ht)
    cases hk
    exact congrArg Value.num
      (Std.le_antisymm Std.min_le_left (Std.le_min_iff.mpr ⟨UInt64.le_refl m, hle⟩))

theorem eq_of_intersect?_of_keepsValue {s : WindowSet} (hs : s.Regular)
    (hb : ∀ t, b = .addr t → t.Separated) (hkeeps : Policy.intersect.KeepsValue (.addr s) b)
    (h : Value.intersect? (.addr s) b = some c ∨ b.intersect? (.addr s) = some c) :
    c = .addr s := by
  have hsame : ∀ t, b = .addr t → s.intersect t = s ∧ t.intersect s = s := by
    intro t ht
    obtain ⟨r, hr, hsub⟩ := hkeeps t ht
    cases hr
    exact hs.intersect_eq (hb t ht) hsub
  rcases h with h | h
  · rcases Value.intersect?_eq_some h with ⟨hkind, _⟩ | ⟨_, _, hkind⟩ | ⟨r, t, hr, ht, rfl⟩
    · cases hkind
    · exact absurd rfl hkind
    · cases hr
      rw [(hsame t ht).1]
  · rcases Value.intersect?_eq_some h with ⟨_, hkind, _⟩ | ⟨heq, _, hkind⟩ | ⟨t, r, ht, hr, rfl⟩
    · cases hkind
    · rw [heq] at hkind
      exact absurd rfl hkind
    · cases hr
      rw [(hsame t ht).2]

/-- A settled value that keeps the other one comes out of their meeting as it went in. -/
theorem eq_of_meets_of_keepsValue (ha : a.isConcrete = true)
    (hregular : policy = .intersect →
      (∀ s, a = .addr s → s.Regular) ∧ ∀ t, b = .addr t → t.Separated)
    (h : policy.Meets a b c ∨ policy.Meets b a c) (hkeeps : policy.KeepsValue a b) : c = a := by
  cases policy with
  | intersect =>
      obtain ⟨hs, ht⟩ := hregular rfl
      by_cases hkind : a.kind = .address
      · cases a with
        | addr s =>
            rcases h with ⟨both, hboth, hsettle⟩ | ⟨both, hboth, hsettle⟩
            · rw [eq_of_intersect?_of_keepsValue (hs s rfl) ht hkeeps (Or.inl hboth)] at hsettle
              exact (Option.some.inj hsettle).symm
            · rw [eq_of_intersect?_of_keepsValue (hs s rfl) ht hkeeps (Or.inr hboth)] at hsettle
              exact (Option.some.inj hsettle).symm
        | _ => cases hkind
      · have hsettle := settle?_of_meets_intersect ha hkind h
        exact Option.some.inj (hsettle.symm.trans (Value.settle?_of_isConcrete ha))
  | maximum => exact eq_of_pick_of_keepsValue ha (h.elim id pick_comm) hkeeps
  | minimum => exact eq_of_pick_of_keepsValue ha (h.elim id pick_comm) hkeeps
  | mustEqual => exact eq_of_pick_of_keepsValue ha (h.elim id pick_comm) hkeeps

end Value

end Policy

namespace Parameter

/-- Every address set of the parameter is regular. -/
def Regular (p : Parameter) : Prop :=
  ∀ name s, p.get? name = some (.addr s) → s.Regular

theorem isConcrete_iff {p : Parameter} :
    p.isConcrete = true ↔ ∀ name a, p.get? name = some a → a.isConcrete = true := by
  simp only [isConcrete, Fields.values, List.all_eq_true, List.mem_map, Prod.exists,
    exists_eq_right, Fields.get?_eq_some_iff]
  exact ⟨fun h name a hmem => h a ⟨name, hmem⟩, fun h a ⟨name, hmem⟩ => h name a hmem⟩

theorem keeps_of_settle {p settled : Parameter} (h : p.settle = .ok settled) :
    settled.isConcrete = true ∧ ∀ policy : Policy, policy.Keeps settled p := by
  constructor
  · refine isConcrete_iff.mpr fun name c hc => ?_
    have hrel := get?_of_settle h name
    rw [hc] at hrel
    generalize p.get? name = x at hrel
    cases hrel with
    | some hsettle => exact Value.isConcrete_of_settle? hsettle
  · intro policy name a ha
    have hrel := get?_of_settle h name
    rw [ha] at hrel
    generalize settled.get? name = z at hrel
    cases hrel with
    | some hsettle => exact ⟨_, rfl, Policy.keepsValue_of_settle? policy hsettle⟩

end Parameter

namespace Policy

section Merge

variable {policy other : Policy} {p q merged : Parameter} {b : Value} {x z : Option Value}

theorem Keeps.trans {r : Parameter} (h : policy.Keeps p q) (h' : policy.Keeps q r) :
    policy.Keeps p r := by
  intro name c hc
  obtain ⟨b, hb, hkeeps⟩ := h' name c hc
  obtain ⟨a, ha, hkeeps'⟩ := h name b hb
  exact ⟨a, ha, hkeeps'.trans hkeeps⟩

theorem isConcrete_of_merge (h : policy.merge p q = .ok merged) : merged.isConcrete = true := by
  refine Parameter.isConcrete_iff.mpr fun name c hc => ?_
  have hjoins := joins_of_merge h name
  rw [hc] at hjoins
  exact hjoins.isConcrete

/-- What becomes of a field of one side of a merge. -/
theorem exists_of_merge (h : policy.merge p q = .ok merged ∨ policy.merge q p = .ok merged)
    {name : String} {a : Value} (ha : p.get? name = some a) :
    ∃ c, merged.get? name = some c ∧ (a.settle? = some c ∨
      ∃ b, q.get? name = some b ∧ (policy.Meets a b c ∨ policy.Meets b a c)) := by
  rcases h with h | h
  · have hjoins := joins_of_merge h name
    rw [ha] at hjoins
    generalize q.get? name = y at hjoins ⊢
    generalize merged.get? name = z at hjoins ⊢
    cases hjoins with
    | ours _ hsettle => exact ⟨_, rfl, Or.inl hsettle⟩
    | both hmeets => exact ⟨_, rfl, Or.inr ⟨_, rfl, Or.inl hmeets⟩⟩
  · have hjoins := joins_of_merge h name
    rw [ha] at hjoins
    generalize q.get? name = y at hjoins ⊢
    generalize merged.get? name = z at hjoins ⊢
    cases hjoins with
    | theirs _ hsettle => exact ⟨_, rfl, Or.inl hsettle⟩
    | both hmeets => exact ⟨_, rfl, Or.inr ⟨_, rfl, Or.inr hmeets⟩⟩

theorem get?_eq_none_of_merge (h : policy.merge p q = .ok merged ∨ policy.merge q p = .ok merged)
    {name : String} (hp : p.get? name = none) (hq : q.get? name = none) :
    merged.get? name = none := by
  rcases h with h | h
  · have hjoins := joins_of_merge h name
    rw [hp, hq] at hjoins
    generalize merged.get? name = z at hjoins ⊢
    cases hjoins
    rfl
  · have hjoins := joins_of_merge h name
    rw [hp, hq] at hjoins
    generalize merged.get? name = z at hjoins ⊢
    cases hjoins
    rfl

/-- What is merged keeps both sides. -/
theorem keeps_of_merge (h : policy.merge p q = .ok merged ∨ policy.merge q p = .ok merged) :
    policy.Keeps merged p := by
  intro name a ha
  obtain ⟨c, hc, hsettle | ⟨b, _, hmeets⟩⟩ := exists_of_merge h ha
  · exact ⟨c, hc, keepsValue_of_settle? policy hsettle⟩
  · exact ⟨c, hc, keepsValue_of_meets hmeets⟩

/-- What is merged keeps a settled side under another policy, unless the policies oppose one
another. -/
theorem keeps_of_merge_of_opposes (hopposes : policy.opposes other = false)
    (hp : p.isConcrete = true) (h : policy.merge p q = .ok merged ∨ policy.merge q p = .ok merged) :
    other.Keeps merged p := by
  intro name a ha
  have hconcrete := Parameter.isConcrete_iff.mp hp name a ha
  obtain ⟨c, hc, hsettle | ⟨b, _, hmeets⟩⟩ := exists_of_merge h ha
  · exact ⟨c, hc, keepsValue_of_settle? other hsettle⟩
  · exact ⟨c, hc, keepsValue_of_meets_of_opposes hopposes hconcrete hmeets⟩

/-- A settled parameter comes out of a merge as it went in if and only if it keeps the other
side. -/
theorem merge_eq_iff_keeps (hp : p.isConcrete = true)
    (hregular : policy = .intersect → p.Regular ∧ q.Regular)
    (h : policy.merge p q = .ok merged ∨ policy.merge q p = .ok merged) :
    merged = p ↔ policy.Keeps p q := by
  constructor
  · rintro rfl
    exact keeps_of_merge h.symm
  · intro hkeeps
    refine Fields.ext_get? fun name => ?_
    cases ha : p.get? name with
    | none =>
        refine get?_eq_none_of_merge h ha ?_
        cases hb : q.get? name with
        | none => rfl
        | some b =>
            obtain ⟨a, ha', _⟩ := hkeeps name b hb
            rw [ha] at ha'
            cases ha'
    | some a =>
        have hconcrete := Parameter.isConcrete_iff.mp hp name a ha
        obtain ⟨c, hc, hsettle | ⟨b, hb, hmeets⟩⟩ := exists_of_merge h ha
        · rw [hc, ← hsettle, Value.settle?_of_isConcrete hconcrete]
        · obtain ⟨a', ha', hkeeps'⟩ := hkeeps name b hb
          obtain rfl : a = a' := Option.some.inj (ha.symm.trans ha')
          rw [hc, eq_of_meets_of_keepsValue hconcrete (fun hpolicy => ?_) hmeets hkeeps']
          obtain ⟨hleft, hright⟩ := hregular hpolicy
          exact ⟨fun s hs => hleft name s (hs ▸ ha), fun t ht => (hright name t (ht ▸ hb)).1⟩

end Merge

section Reduce

variable {policy : Policy} {reduced : Parameter}

theorem keeps_of_foldlM {first : Parameter} {rest : List Parameter}
    (hfirst : first.isConcrete = true) (h : rest.foldlM policy.merge first = .ok reduced) :
    reduced.isConcrete = true ∧ policy.Keeps reduced first ∧
      ∀ value ∈ rest, policy.Keeps reduced value := by
  induction rest generalizing first with
  | nil =>
      cases h
      refine ⟨hfirst, fun name a ha => ⟨a, ha, ?_⟩, fun value hvalue => by cases hvalue⟩
      exact keepsValue_of_settle? policy
        (Value.settle?_of_isConcrete (Parameter.isConcrete_iff.mp hfirst name a ha))
  | cons next rest ih =>
      rw [List.foldlM_cons] at h
      obtain ⟨merged, hmerged, hrest⟩ := exists_of_bind_eq_ok h
      obtain ⟨hconcrete, hkeeps, hall⟩ := ih (isConcrete_of_merge hmerged) hrest
      refine ⟨hconcrete, hkeeps.trans (keeps_of_merge (Or.inl hmerged)), fun value hvalue => ?_⟩
      rcases List.mem_cons.mp hvalue with rfl | hmem
      · exact hkeeps.trans (keeps_of_merge (Or.inr hmerged))
      · exact hall value hmem

/-- What is reduced is settled and keeps every member. -/
theorem keeps_of_reduce {values : List Parameter} (h : policy.reduce values = .ok reduced) :
    reduced.isConcrete = true ∧ ∀ value ∈ values, policy.Keeps reduced value := by
  cases values with
  | nil => cases h
  | cons first rest =>
      obtain ⟨settled, hsettled, hrest⟩ := exists_of_bind_eq_ok h
      obtain ⟨hconcrete, hkeeps⟩ := Parameter.keeps_of_settle hsettled
      obtain ⟨hreduced, hkeeps', hall⟩ := keeps_of_foldlM hconcrete hrest
      refine ⟨hreduced, fun value hvalue => ?_⟩
      rcases List.mem_cons.mp hvalue with rfl | hmem
      · exact hkeeps'.trans (hkeeps policy)
      · exact hall value hmem

end Reduce

end Policy

end Negotiation
