import Negotiation.Proofs.Meet

/-!
What many records have in common.

Records are met field by field: of a field that several of them have there is what its values have
in common (`Parameter.IsMeet`), which depends neither on the order of the records nor on which two
of them are met first (`Parameter.eval_intersect_perm`).  They can be met if and only if they are
compatible, that is if each field that several of them have can be one and the same in all
(`Parameter.exists_eval_intersect_iff`).
-/

namespace Negotiation

namespace Value

variable {a b c : Value}

/-- What the values of a field have in common.  Where there is no value the field stays open to any;
nothing comes of values that have nothing in common. -/
def common? : List Value → Option (Option Value)
  | [] => some none
  | a :: rest => (rest.foldlM intersect? a).map some

theorem common?_toList (x : Option Value) : common? x.toList = some x := by
  cases x with
  | none => rfl
  | some a => rfl

theorem common?_pair (a b : Value) : common? [a, b] = (a.intersect? b).map some := by
  rw [common?, List.foldlM_cons]
  cases a.intersect? b with
  | none => rfl
  | some c => rfl

theorem foldlM_intersect?_cons (a b : Value) (rest : List Value) :
    (b :: rest).foldlM intersect? a = (a.intersect? b).bind (rest.foldlM intersect? ·) :=
  List.foldlM_cons

theorem separated_of_foldlM {rest : List Value} (ha : a.Separated)
    (hrest : ∀ v ∈ rest, v.Separated) (h : rest.foldlM intersect? a = some c) : c.Separated := by
  induction rest generalizing a with
  | nil =>
      cases h
      exact ha
  | cons b rest ih =>
      obtain ⟨hb, hrest⟩ := List.forall_mem_cons.mp hrest
      rw [foldlM_intersect?_cons] at h
      obtain ⟨e, he, h⟩ := Option.bind_eq_some_iff.mp h
      exact ih (ha.intersect? hb he) hrest h

/-- A value that is met before all of the others may be met after them. -/
theorem bind_foldlM_intersect? {rest : List Value} (ha : a.Separated) (hb : b.Separated)
    (hrest : ∀ v ∈ rest, v.Separated) :
    (a.intersect? b).bind (rest.foldlM intersect? ·) =
      (rest.foldlM intersect? b).bind a.intersect? := by
  induction rest generalizing b with
  | nil => exact Option.bind_fun_some _
  | cons c rest ih =>
      obtain ⟨hc, hrest⟩ := List.forall_mem_cons.mp hrest
      simp only [foldlM_intersect?_cons]
      rw [← Option.bind_assoc, intersect?_assoc ha hb hc]
      cases hboth : b.intersect? c with
      | none => rfl
      | some both => exact ih (hb.intersect? hc hboth) hrest

/-- What two groups of values have in common is common to what either has in common. -/
theorem common?_append {left right : List Value} (hleft : ∀ v ∈ left, v.Separated)
    (hright : ∀ v ∈ right, v.Separated) : common? (left ++ right) =
      (common? left).bind fun x => (common? right).bind fun y =>
        common? (x.toList ++ y.toList) := by
  cases left with
  | nil =>
      change common? right = (common? right).bind fun y => common? y.toList
      simp only [common?_toList, Option.bind_fun_some]
  | cons a left =>
      cases right with
      | nil =>
          rw [List.append_nil]
          change _ = (common? (a :: left)).bind fun x => common? (x.toList ++ [])
          simp only [List.append_nil, common?_toList, Option.bind_fun_some]
      | cons b right =>
          obtain ⟨ha, hleft⟩ := List.forall_mem_cons.mp hleft
          obtain ⟨hb, hright⟩ := List.forall_mem_cons.mp hright
          rw [List.cons_append, common?, common?, common?, List.foldlM_append]
          cases hfold : left.foldlM intersect? a with
          | none => rfl
          | some c =>
              have hc := separated_of_foldlM ha hleft hfold
              change ((b :: right).foldlM intersect? c).map some = _
              rw [foldlM_intersect?_cons, bind_foldlM_intersect? hc hb hright]
              cases right.foldlM intersect? b with
              | none => rfl
              | some e => exact (common?_pair c e).symm

/-- What values have in common does not depend on their order. -/
theorem common?_perm {left right : List Value} (h : left.Perm right)
    (hleft : ∀ v ∈ left, v.Separated) : common? left = common? right := by
  induction h with
  | nil => rfl
  | @cons a left right h ih =>
      obtain ⟨ha, hleft⟩ := List.forall_mem_cons.mp hleft
      have hright : ∀ v ∈ right, v.Separated := fun v hv => hleft v (h.mem_iff.mpr hv)
      have hone : ∀ v ∈ [a], v.Separated := fun v hv => List.mem_singleton.mp hv ▸ ha
      have hsplit := common?_append hone hleft
      rw [ih hleft] at hsplit
      exact hsplit.trans (common?_append hone hright).symm
  | swap a b rest =>
      obtain ⟨hb, ha, _⟩ : b.Separated ∧ a.Separated ∧ ∀ v ∈ rest, v.Separated := by
        simpa only [List.forall_mem_cons] using hleft
      rw [common?, common?, foldlM_intersect?_cons, foldlM_intersect?_cons, intersect?_comm ha hb]
  | trans h h' ih ih' => rw [ih hleft, ih' fun v hv => hleft v (h.mem_iff.mpr hv)]

theorem exists_foldlM_intersect?_iff {rest : List Value} (ha : a.Separated)
    (hrest : ∀ v ∈ rest, v.Separated) : (∃ c, rest.foldlM intersect? a = some c) ↔
      rest = [] ∨ ∃ d, a.Allows d ∧ ∀ v ∈ rest, v.Allows d := by
  induction rest generalizing a with
  | nil => exact ⟨fun _ => Or.inl rfl, fun _ => ⟨a, rfl⟩⟩
  | cons b rest ih =>
      obtain ⟨hb, hrest⟩ := List.forall_mem_cons.mp hrest
      have hpair := exists_intersect?_iff ha hb
      simp only [reduceCtorEq, false_or, List.forall_mem_cons, foldlM_intersect?_cons]
      cases hboth : a.intersect? b with
      | none =>
          rw [hboth] at hpair
          constructor
          · rintro ⟨c, hc⟩
            cases hc
          · rintro ⟨d, hd, hd', _⟩
            obtain ⟨c, hc⟩ := hpair.mpr ⟨d, hd, hd'⟩
            cases hc
      | some both =>
          rw [Option.bind_some, ih (ha.intersect? hb hboth) hrest]
          simp only [allows_of_intersect? ha hb hboth, and_assoc, or_iff_right_iff_imp]
          rintro rfl
          obtain ⟨d, hd, hd'⟩ := hpair.mp ⟨both, hboth⟩
          exact ⟨d, hd, hd', nofun⟩

/-- Values have something in common if and only if they all allow something; fewer than two need not
allow anything. -/
theorem exists_common?_iff {l : List Value} (hl : ∀ v ∈ l, v.Separated) :
    (∃ x, common? l = some x) ↔ (2 ≤ l.length → ∃ d, ∀ v ∈ l, v.Allows d) := by
  cases l with
  | nil => exact ⟨fun _ hlong => absurd hlong (by decide), fun _ => ⟨none, rfl⟩⟩
  | cons a rest =>
      obtain ⟨ha, hrest⟩ := List.forall_mem_cons.mp hl
      have hfold := exists_foldlM_intersect?_iff ha hrest
      simp only [List.forall_mem_cons]
      have hmap : (∃ x, common? (a :: rest) = some x) ↔ ∃ c, rest.foldlM intersect? a = some c := by
        rw [common?]
        cases rest.foldlM intersect? a with
        | none => simp
        | some c => simp
      rw [hmap, hfold]
      cases rest with
      | nil => exact ⟨fun _ hlong => absurd hlong (Nat.not_succ_le_self 1), fun _ => Or.inl rfl⟩
      | cons b rest =>
          simp only [reduceCtorEq, false_or, List.length_cons, Nat.le_add_left, true_implies]

end Value

namespace Parameter

/-- The values of a field in the records that have it. -/
def held (name : String) (records : List Parameter) : List Value :=
  records.filterMap (·.get? name)

/-- A field that several records have can have one and the same content in all of them. -/
def Compatible (records : List Parameter) : Prop :=
  ∀ name, 2 ≤ (held name records).length → ∃ d, ∀ v ∈ held name records, v.Allows d

/-- The record has of each field what the records that have it have in common. -/
def IsMeet (records : List Parameter) (r : Parameter) : Prop :=
  ∀ name, Value.common? (held name records) = some (r.get? name)

section Meet

variable {p q r x y : Parameter} {records left right : List Parameter} {name : String}

theorem held_cons (p : Parameter) (records : List Parameter) :
    held name (p :: records) = (p.get? name).toList ++ held name records := by
  rw [held, List.filterMap_cons]
  cases p.get? name with
  | none => rfl
  | some a => rfl

theorem held_append : held name (left ++ right) = held name left ++ held name right :=
  List.filterMap_append

theorem held_pair : held name [p, q] = (p.get? name).toList ++ (q.get? name).toList := by
  rw [held_cons, held_cons]
  exact congrArg _ (List.append_nil _)

theorem separated_of_mem_held (h : ∀ p ∈ records, p.Separated) :
    ∀ v ∈ held name records, v.Separated := by
  intro v hv
  obtain ⟨p, hp, hget⟩ := List.mem_filterMap.mp hv
  exact h p hp name v hget

theorem isMeet_singleton (p : Parameter) : IsMeet [p] p := by
  intro name
  rw [held_cons]
  exact (congrArg Value.common? (List.append_nil _)).trans (Value.common?_toList (p.get? name))

theorem IsMeet.unique (hx : IsMeet records x) (hy : IsMeet records y) : x = y :=
  Fields.ext_get? fun name => Option.some.inj ((hx name).symm.trans (hy name))

theorem IsMeet.perm (h : IsMeet left r) (hperm : left.Perm right)
    (hleft : ∀ p ∈ left, p.Separated) : IsMeet right r := by
  intro name
  have hheld : (held name left).Perm (held name right) := hperm.filterMap _
  rw [← Value.common?_perm hheld (separated_of_mem_held hleft)]
  exact h name

theorem isMeet_of_intersect (h : p.intersect q = .ok r) : IsMeet [p, q] r := by
  intro name
  obtain ⟨hnone, hsome⟩ := Fields.get?_of_absorb h name
  rw [held_pair]
  cases hq : q.get? name with
  | none => rw [hnone hq, Option.toList_none, List.append_nil, Value.common?_toList]
  | some b =>
      obtain ⟨c, hmeet, hget⟩ := hsome b hq
      rw [hget]
      rcases meetField_eq_ok_iff.mp hmeet with ⟨hp, rfl⟩ | ⟨a, hp, hboth⟩
      · rw [hp]
        rfl
      · rw [hp]
        exact (Value.common?_pair a b).trans (congrArg (Option.map some) hboth)

theorem exists_intersect_eq_ok
    (h : ∀ name, ∃ x, Value.common? (held name [p, q]) = some x) : ∃ r, p.intersect q = .ok r := by
  refine Fields.exists_absorb_eq_ok fun name b hb => ?_
  obtain ⟨x, hx⟩ := h name
  rw [held_pair, hb] at hx
  cases ha : p.get? name with
  | none => exact ⟨b, meetField_eq_ok_iff.mpr (Or.inl ⟨ha, rfl⟩)⟩
  | some a =>
      rw [ha] at hx
      obtain ⟨c, hc, _⟩ := Option.map_eq_some_iff.mp ((Value.common?_pair a b).symm.trans hx)
      exact ⟨c, meetField_eq_ok_iff.mpr (Or.inr ⟨a, ha, hc⟩)⟩

/-- What satisfies two records is what they have in common, field by field. -/
theorem intersect_eq_ok_iff : p.intersect q = .ok r ↔ IsMeet [p, q] r := by
  refine ⟨isMeet_of_intersect, fun h => ?_⟩
  obtain ⟨found, hfound⟩ := exists_intersect_eq_ok fun name => ⟨_, h name⟩
  rw [hfound, (isMeet_of_intersect hfound).unique h]

/-- What two groups of records have in common satisfies what either has in common. -/
theorem IsMeet.append (hx : IsMeet left x) (hy : IsMeet right y)
    (hleft : ∀ p ∈ left, p.Separated) (hright : ∀ p ∈ right, p.Separated) :
    IsMeet (left ++ right) r ↔ x.intersect y = .ok r := by
  rw [intersect_eq_ok_iff]
  refine forall_congr' fun name => ?_
  rw [held_append, held_pair, Value.common?_append (separated_of_mem_held hleft)
    (separated_of_mem_held hright), hx name, hy name]
  rfl

theorem Compatible.sublist (h : Compatible records) (hsub : left.Sublist records) :
    Compatible left := by
  intro name hlong
  have hheld : (held name left).Sublist (held name records) := hsub.filterMap _
  obtain ⟨d, hd⟩ := h name (Nat.le_trans hlong hheld.length_le)
  exact ⟨d, fun v hv => hd v (hheld.subset hv)⟩

theorem exists_isMeet (h : ∀ name, ∃ x, Value.common? (held name records) = some x) :
    ∃ r, IsMeet records r := by
  obtain ⟨field, hfield⟩ := Classical.axiomOfChoice h
  obtain ⟨r, hr⟩ := Fields.exists_get?_eq field (records.flatMap (·.keys))
  refine ⟨r, fun name => ?_⟩
  rw [hr]
  split
  · exact hfield name
  · rename_i hmissing
    have hheld : held name records = [] := by
      refine List.filterMap_eq_nil_iff.mpr fun p hp => ?_
      refine Option.not_isSome_iff_eq_none.mp fun hin => hmissing ?_
      exact List.mem_flatMap.mpr ⟨p, hp, Fields.contains_iff_mem_keys.mp hin⟩
    rw [hheld]
    rfl

/-- Records have something in common if and only if they are compatible. -/
theorem exists_isMeet_iff (h : ∀ p ∈ records, p.Separated) :
    (∃ r, IsMeet records r) ↔ Compatible records := by
  have hfield : ∀ name, (∃ x, Value.common? (held name records) = some x) ↔
      (2 ≤ (held name records).length → ∃ d, ∀ v ∈ held name records, v.Allows d) :=
    fun name => Value.exists_common?_iff (separated_of_mem_held h)
  constructor
  · rintro ⟨r, hr⟩ name
    exact (hfield name).mp ⟨_, hr name⟩
  · exact fun hcompatible => exists_isMeet fun name => (hfield name).mpr (hcompatible name)

theorem exists_of_isMeet_append (h : IsMeet (left ++ right) r) (hleft : ∀ p ∈ left, p.Separated)
    (hright : ∀ p ∈ right, p.Separated) : (∃ x, IsMeet left x) ∧ ∃ y, IsMeet right y := by
  have hcompatible := (exists_isMeet_iff (List.forall_mem_append.mpr ⟨hleft, hright⟩)).mp ⟨r, h⟩
  exact ⟨(exists_isMeet_iff hleft).mpr (hcompatible.sublist (List.sublist_append_left _ _)),
    (exists_isMeet_iff hright).mpr (hcompatible.sublist (List.sublist_append_right _ _))⟩

end Meet

end Parameter

/-- A way of putting many together two at a time. -/
inductive Bracketing (α : Type) where
  | leaf (a : α)
  | node (left right : Bracketing α)

namespace Bracketing

variable {α ε : Type}

/-- What is put together, from left to right. -/
def parts : Bracketing α → List α
  | leaf a => [a]
  | node left right => left.parts ++ right.parts

theorem parts_ne_nil (t : Bracketing α) : t.parts ≠ [] := by
  induction t with
  | leaf a => exact List.cons_ne_nil a []
  | node left right ihleft ihright => exact List.append_ne_nil_of_left_ne_nil ihleft _

/-- Put the parts together, where that may be refused. -/
def eval (f : α → α → Except ε α) : Bracketing α → Except ε α
  | leaf a => .ok a
  | node left right => do f (← left.eval f) (← right.eval f)

/-- One after the other is put to what has been put together before. -/
def comb (first : Bracketing α) (rest : List α) : Bracketing α :=
  rest.foldl (fun t a => node t (leaf a)) first

theorem parts_comb (first : Bracketing α) (rest : List α) :
    (comb first rest).parts = first.parts ++ rest := by
  rw [comb]
  induction rest generalizing first with
  | nil => exact (List.append_nil _).symm
  | cons a rest ih =>
      rw [List.foldl_cons, ih, parts, parts, List.append_assoc]
      rfl

theorem eval_comb (f : α → α → Except ε α) (first : Bracketing α) (rest : List α) :
    (comb first rest).eval f = first.eval f >>= fun a => rest.foldlM f a := by
  rw [comb]
  induction rest generalizing first with
  | nil =>
      rw [List.foldl_nil]
      cases first.eval f with
      | error e => rfl
      | ok a => rfl
  | cons b rest ih =>
      rw [List.foldl_cons, ih, eval, eval]
      cases first.eval f with
      | error e => rfl
      | ok a => rfl

end Bracketing

namespace Parameter

variable {r : Parameter}

/-- However records are bracketed, what satisfies all of them is what they have in common. -/
theorem eval_intersect_eq_ok_iff {t : Bracketing Parameter} (h : ∀ p ∈ t.parts, p.Separated) :
    t.eval intersect = .ok r ↔ IsMeet t.parts r := by
  induction t generalizing r with
  | leaf p =>
      constructor
      · intro heval
        cases heval
        exact isMeet_singleton p
      · exact fun hmeet => congrArg _ ((isMeet_singleton p).unique hmeet)
  | node left right ihleft ihright =>
      obtain ⟨hleft, hright⟩ := List.forall_mem_append.mp h
      rw [Bracketing.eval, Bracketing.parts]
      simp only [bind_eq_ok_iff, ihleft hleft, ihright hright]
      constructor
      · rintro ⟨x, hx, y, hy, heval⟩
        exact (hx.append hy hleft hright).mpr heval
      · intro hmeet
        obtain ⟨⟨x, hx⟩, y, hy⟩ := exists_of_isMeet_append hmeet hleft hright
        exact ⟨x, hx, y, hy, (hx.append hy hleft hright).mp hmeet⟩

theorem exists_eval_intersect_iff {t : Bracketing Parameter} (h : ∀ p ∈ t.parts, p.Separated) :
    (∃ r, t.eval intersect = .ok r) ↔ Compatible t.parts := by
  simp only [eval_intersect_eq_ok_iff h, exists_isMeet_iff h]

/-- Neither the order nor the bracketing of records matters to what satisfies all of them. -/
theorem eval_intersect_perm {t u : Bracketing Parameter} (h : ∀ p ∈ t.parts, p.Separated)
    (hperm : t.parts.Perm u.parts) : t.eval intersect = .ok r ↔ u.eval intersect = .ok r := by
  have hu : ∀ p ∈ u.parts, p.Separated := fun p hp => h p (hperm.mem_iff.mpr hp)
  rw [eval_intersect_eq_ok_iff h, eval_intersect_eq_ok_iff hu]
  exact ⟨fun hmeet => hmeet.perm hperm h, fun hmeet => hmeet.perm hperm.symm hu⟩

end Parameter

open Parameter in
/-- Intersection is the meet of constraints.  Two constraints on numbers have one if and only if
some number is admitted by both, and it admits exactly the numbers that both admit.  Neither the
order nor the bracketing of values matters, nor that of records, which can be met if and only if
every field that two or more of them have can have the same content in all that have it.  The
windows of an address set need only be separated, as those of a set built from windows are. -/
theorem intersection_is_meet {a b c : Value} {p q r : Parameter} (ha : a.Separated)
    (hb : b.Separated) (hc : c.Separated) (hp : p.Separated) (hq : q.Separated)
    (hr : r.Separated) :
    (a.kind = .number → b.kind = .number →
      ((∃ both, a.intersect? b = some both) ↔ ∃ n, a.admits n = true ∧ b.admits n = true) ∧
      ∀ both, a.intersect? b = some both →
        ∀ n, both.admits n = true ↔ a.admits n = true ∧ b.admits n = true) ∧
    a.intersect? b = b.intersect? a ∧
    (a.intersect? b).bind (·.intersect? c) = (b.intersect? c).bind a.intersect? ∧
    (∀ s, p.intersect q = .ok s ↔ q.intersect p = .ok s) ∧
    (∀ s, (p.intersect q >>= fun x => x.intersect r) = .ok s ↔
      (q.intersect r >>= fun y => p.intersect y) = .ok s) ∧
    ((∃ s, p.intersect q = .ok s) ↔ Compatible [p, q]) ∧
    ((∃ s, (p.intersect q >>= fun x => x.intersect r) = .ok s) ↔ Compatible [p, q, r]) := by
  have hpair : ∀ v ∈ [p, q], v.Separated := by simp [hp, hq]
  have hall : ∀ v ∈ [p, q, r], v.Separated := by simp [hp, hq, hr]
  -- The records as they are bracketed: two, the other way round, and three in both ways.
  let two := Bracketing.node (.leaf p) (.leaf q)
  let swapped := Bracketing.node (.leaf q) (.leaf p)
  let left := Bracketing.node two (.leaf r)
  let right := Bracketing.node (.leaf p) (.node (.leaf q) (.leaf r))
  have hcomm : ∀ s, two.eval Parameter.intersect = .ok s ↔ swapped.eval Parameter.intersect = .ok s :=
    fun s => eval_intersect_perm hpair (List.Perm.swap q p [])
  have hassoc : ∀ s, left.eval Parameter.intersect = .ok s ↔ right.eval Parameter.intersect = .ok s :=
    fun s => eval_intersect_perm hall (List.Perm.refl _)
  refine ⟨fun hkinda hkindb => ⟨⟨?_, ?_⟩, fun both hboth n => Value.admits_intersect? hboth⟩,
    Value.intersect?_comm ha hb, Value.intersect?_assoc ha hb hc, hcomm, hassoc,
    exists_eval_intersect_iff (t := two) hpair, exists_eval_intersect_iff (t := left) hall⟩
  · rintro ⟨both, hboth⟩
    exact Value.exists_admits_of_intersect? hkinda hboth
  · rintro ⟨n, hn, hn'⟩
    exact Value.exists_intersect?_of_admits hn hn'

/-- A width that is one of two numbers, beside a window of addresses. -/
def narrow : Parameter :=
  .ofList [("peers", .addr (.ofList [⟨0, 8⟩])), ("width", .oneOf (.ofList [8, 16]))]

/-- A width between two numbers, beside a window that overlaps the other one. -/
def broad : Parameter :=
  .ofList [("peers", .addr (.ofList [⟨4, 8⟩])), ("width", .span 4 12)]

/-- A settled width and a depth. -/
def deep : Parameter :=
  .ofList [("depth", .num 2), ("width", .num 8)]

theorem narrow_meets_broad :
    Value.intersect? (.oneOf (.ofList [8, 16])) (.span 4 12) = some (.num 8) ∧
      (∃ n, Value.admits (.oneOf (.ofList [8, 16])) n = true ∧ Value.admits (.span 4 12) n = true) ∧
      (broad.intersect deep >>= fun y => narrow.intersect y) = .ok (.ofList [("depth", .num 2),
        ("peers", .addr (.ofList [⟨4, 4⟩])), ("width", .num 8)]) ∧
      (narrow.intersect broad >>= fun x => x.intersect deep) = .ok (.ofList [("depth", .num 2),
        ("peers", .addr (.ofList [⟨4, 4⟩])), ("width", .num 8)]) ∧
      Parameter.Compatible [narrow, broad, deep] := by
  have hright : (broad.intersect deep >>= fun y => narrow.intersect y) = .ok (.ofList [("depth",
      .num 2), ("peers", .addr (.ofList [⟨4, 4⟩])), ("width", .num 8)]) := by
    simp (disch := decide) only [narrow, broad, WindowSet.ofList_singleton]
    rfl
  have hset : (Value.oneOf (.ofList [8, 16])).Separated := Value.separated_of_number rfl
  have hspan : (Value.span 4 12).Separated := Value.separated_of_number rfl
  have hnum : ∀ n, (Value.num n).Separated := fun n => Value.separated_of_number rfl
  have hnarrow : narrow.Separated :=
    Parameter.separated_ofList (by simp [Value.separated_addr_ofList, hset])
  have hbroad : broad.Separated :=
    Parameter.separated_ofList (by simp [Value.separated_addr_ofList, hspan])
  have hdeep : deep.Separated := Parameter.separated_ofList (by simp [hnum])
  obtain ⟨hnumber, _, _, _, hassoc, _, hcompatible⟩ :=
    intersection_is_meet hset hspan (hnum 8) hnarrow hbroad hdeep
  have hleft := (hassoc _).mpr hright
  have hmeet : Value.intersect? (.oneOf (.ofList [8, 16])) (.span 4 12) = some (.num 8) := rfl
  exact ⟨hmeet, (hnumber rfl rfl).1.mp ⟨_, hmeet⟩, hright, hleft, hcompatible.mp ⟨_, hleft⟩⟩

end Negotiation
