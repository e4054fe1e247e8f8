import Negotiation.Proofs.AddressSpace
import Negotiation.Proofs.CommonValue

/-!
Exchanging the sides of a merge, and merging a record with itself.

Whichever side comes first, a merge comes to the same record or is refused (`Policy.merge_either_way`).
Merged with itself, a record comes to what it settles to (`Policy.merge_with_itself`): a constraint on
numbers has in common with itself what it admits, and so settles to the same number
(`Policy.meets_self_of_number`).  The exception is an address set without addresses, which has nothing
in common with itself.
-/

namespace Negotiation

namespace Fields

universe u v

variable {α : Type u} {β : Type v}

theorem get?_map (f : String → α → β) (p : Fields α) (name : String) :
    (p.map f).get? name = (p.get? name).map (f name) := by
  obtain ⟨entries, hascending⟩ := p
  simp only [get?, map]
  clear hascending
  induction entries with
  | nil => rfl
  | cons entry rest ih =>
      rw [List.map_cons, lookupEntry, lookupEntry]
      split
      · rename_i heq
        rw [heq, Option.map_some]
      · exact ih

theorem mem_values_iff {p : Fields α} {a : α} : a ∈ p.values ↔ ∃ name, p.get? name = some a := by
  simp only [values, List.mem_map, Prod.exists, exists_eq_right, get?_eq_some_iff]

theorem notMem_values_iff {p : Fields α} {a : α} :
    a ∉ p.values ↔ ∀ name, p.get? name ≠ some a := by
  rw [mem_values_iff, not_exists]

end Fields

namespace Value

/-- A set of addresses has all of them in common with itself, if there are any. -/
theorem addr_intersect?_self {s : WindowSet} (hs : s.Regular) :
    (addr s).intersect? (addr s) = if s = .empty then none else some (addr s) := by
  have hsame : s.intersect s = s := (hs.intersect_eq hs.1 fun _ hin => hin).1
  have hempty : s.isEmpty = true ↔ s = .empty := by
    rw [WindowSet.isEmpty, List.isEmpty_iff]
    exact ⟨fun hnil => congrArg WindowSet.mk hnil, fun heq => congrArg WindowSet.windows heq⟩
  rw [addr_intersect?, hsame]
  simp only [hempty]

theorem settle?_zero (kind : Kind) : (zero kind).settle? = some (zero kind) := by
  cases kind <;> rfl

theorem zero_eq_addr_iff {kind : Kind} {s : WindowSet} :
    zero kind = addr s ↔ kind = .address ∧ s = .empty := by
  cases kind with
  | address =>
      rw [zero, addr.injEq, and_iff_right rfl]
      exact eq_comm
  | _ => exact ⟨nofun, fun h => nomatch h.1⟩

end Value

namespace Policy

section Fields

variable {policy : Policy} {a c : Value} {x z : Option Value}

theorem pick_self_eq_ok_iff : policy.pick a a = .ok c ↔ a.settle? = some c := by
  constructor
  · intro h
    obtain ⟨s, -, hs, -, -⟩ := exists_of_pick_eq_ok h
    have hself : policy.pick a a = .ok s := pick_of_settle? hs hs
    rw [h] at hself
    rw [hs, Except.ok.inj hself]
  · intro h
    exact pick_of_settle? h h

/-- What a constraint on numbers settles to, it has in common with itself. -/
theorem meets_self_of_settle? {n : UInt64} (h : a.settle? = some (.num n)) :
    Policy.intersect.Meets a a (.num n) := by
  have hadmits : ∀ v ∈ [a], v.admits n = true := by
    intro v hv
    rw [List.mem_singleton.mp hv]
    exact Value.admits_of_settle? h
  obtain ⟨both, hfold, hboth⟩ := Value.exists_foldlM_of_settle? h hadmits
  rw [Value.foldlM_intersect?_cons] at hfold
  obtain ⟨both', hcommon, hsame⟩ := Option.bind_eq_some_iff.mp hfold
  cases hsame
  exact ⟨both, hcommon, hboth⟩

/-- A constraint on numbers and itself have in common what it settles to, and nothing else. -/
theorem meets_self_of_number (hkind : a.kind = .number) :
    Policy.intersect.Meets a a c ↔ a.settle? = some c := by
  constructor
  · intro h
    obtain ⟨both, hcommon, hboth⟩ := h
    have hkindBoth := (Value.kind_of_intersect? hcommon).1
    obtain ⟨m, rfl⟩ := Value.exists_num_of_settle? (hkindBoth.trans hkind) hboth
    have hadmits := ((Value.admits_intersect? hcommon).mp (Value.admits_of_settle? hboth)).1
    obtain ⟨n, hn⟩ := Value.exists_settle?_of_admits hadmits
    have hself : Policy.intersect.Meets a a (.num m) := ⟨both, hcommon, hboth⟩
    rw [hn, hself.unique (meets_self_of_settle? hn)]
  · intro h
    obtain ⟨n, rfl⟩ := Value.exists_num_of_settle? hkind h
    exact meets_self_of_settle? h

theorem meets_self_of_exact (hkind : a.kind = .symbol ∨ a.kind = .flag) :
    Policy.intersect.Meets a a c ↔ a.settle? = some c := by
  rw [Meets, Value.intersect?_of_exact hkind, if_pos rfl]
  simp only [Option.some.injEq, exists_eq_left']

theorem meets_self_of_addr {s : WindowSet} (hs : s.Regular) :
    Policy.intersect.Meets (.addr s) (.addr s) c ↔
      (Value.addr s).settle? = some c ∧ s ≠ .empty := by
  rw [Meets, Value.addr_intersect?_self hs]
  by_cases hempty : s = .empty
  · simp [hempty]
  · simp [hempty]

/-- A value has something in common with itself if it settles, unless it is a set without
addresses. -/
theorem meets_self_intersect_iff (hregular : ∀ s, a = .addr s → s.Regular) :
    Policy.intersect.Meets a a c ↔ a.settle? = some c ∧ a ≠ .addr .empty := by
  have hne : a.kind ≠ .address → a ≠ .addr .empty := by
    rintro hkind rfl
    exact hkind rfl
  cases hkind : a.kind with
  | number => rw [meets_self_of_number hkind, and_iff_left (hne (hkind ▸ nofun))]
  | symbol => rw [meets_self_of_exact (Or.inl hkind), and_iff_left (hne (hkind ▸ nofun))]
  | flag => rw [meets_self_of_exact (Or.inr hkind), and_iff_left (hne (hkind ▸ nofun))]
  | address =>
      obtain ⟨s, rfl⟩ := Value.exists_addr hkind
      rw [meets_self_of_addr (hregular s rfl), Ne, Ne, Value.addr.injEq]

theorem meets_self_iff (hregular : policy = .intersect → ∀ s, a = .addr s → s.Regular) :
    policy.Meets a a c ↔
      a.settle? = some c ∧ (policy = .intersect → a ≠ .addr .empty) := by
  by_cases hpolicy : policy = .intersect
  · subst hpolicy
    rw [meets_self_intersect_iff (hregular rfl), forall_prop_of_true rfl]
  · rw [meets_iff_pick hpolicy, pick_self_eq_ok_iff]
    exact (and_iff_left fun h => absurd h hpolicy).symm

theorem joins_self_iff (hregular : policy = .intersect → ∀ s, x = some (.addr s) → s.Regular) :
    policy.Joins x x z ↔ Option.Rel (fun a b => a.settle? = some b) x z ∧
      (policy = .intersect → x ≠ some (.addr .empty)) := by
  cases x with
  | none =>
      constructor
      · intro h
        cases h
        exact ⟨.none, fun _ => nofun⟩
      · rintro ⟨hrel, -⟩
        cases hrel
        exact .neither
  | some a =>
      have hmeets : ∀ {c}, policy.Meets a a c ↔
          a.settle? = some c ∧ (policy = .intersect → a ≠ .addr .empty) :=
        meets_self_iff fun hpolicy s hs => hregular hpolicy s (congrArg some hs)
      constructor
      · intro h
        cases h with
        | both hself =>
            obtain ⟨hsettle, hne⟩ := hmeets.mp hself
            exact ⟨.some hsettle, fun hpolicy heq => hne hpolicy (Option.some.inj heq)⟩
      · rintro ⟨hrel, hne⟩
        cases hrel with
        | some hsettle =>
            refine .both (hmeets.mpr ⟨hsettle, fun hpolicy heq => ?_⟩)
            exact hne hpolicy (congrArg some heq)

end Fields

end Policy

namespace Parameter

/-- No address set of the parameter is without addresses. -/
def Populated (p : Parameter) : Prop :=
  ∀ name, p.get? name ≠ some (.addr .empty)

theorem get?_zeroed (schema : Schema) (name : String) :
    (zeroed schema).get? name = (schema.get? name).map Value.zero :=
  Fields.get?_map _ schema name

/-- Zero values are settled. -/
theorem settle_zeroed (schema : Schema) : (zeroed schema).settle = .ok (zeroed schema) := by
  refine settle_eq_ok_iff.mpr fun name => ?_
  rw [get?_zeroed]
  cases schema.get? name with
  | none => exact .none
  | some kind => exact .some (Value.settle?_zero kind)

theorem regular_zeroed (schema : Schema) : (zeroed schema).Regular := by
  intro name s hs
  rw [get?_zeroed] at hs
  obtain ⟨kind, _, hzero⟩ := Option.map_eq_some_iff.mp hs
  obtain ⟨_, rfl⟩ := Value.zero_eq_addr_iff.mp hzero
  exact ⟨.nil, nofun⟩

/-- The zero value of an address field is a set without addresses. -/
theorem populated_zeroed_iff {schema : Schema} :
    (zeroed schema).Populated ↔ ∀ name, schema.get? name ≠ some .address := by
  refine forall_congr' fun name => not_congr ?_
  rw [get?_zeroed, Option.map_eq_some_iff]
  simp only [Value.zero_eq_addr_iff, and_true, exists_eq_right]

end Parameter

namespace Policy

variable {policy : Policy} {p q : Parameter}

/-- A record that is merged with itself settles. -/
theorem merge_self_eq_ok_iff (hregular : policy = .intersect → p.Regular) :
    policy.merge p p = .ok q ↔ p.settle = .ok q ∧ (policy = .intersect → p.Populated) := by
  have hfield : ∀ name, policy.Joins (p.get? name) (p.get? name) (q.get? name) ↔
      Option.Rel (fun a b => a.settle? = some b) (p.get? name) (q.get? name) ∧
        (policy = .intersect → p.get? name ≠ some (.addr .empty)) :=
    fun name => joins_self_iff fun hpolicy => hregular hpolicy name
  rw [merge_eq_ok_iff, Parameter.settle_eq_ok_iff]
  simp only [hfield, forall_and]
  exact and_congr_right fun _ => forall_comm

/-- Merged with itself, a record comes to what it settles to, under every policy; only an intersection
also refuses an address set without addresses.  So zero values merge with themselves, except under
intersection where the schema declares an address field.  The address sets of an intersection are in
normal form, and there is an address after each of their windows. -/
theorem merge_with_itself (policy : Policy) (p : Parameter) (schema : Schema)
    (haddress : policy = .intersect → ∀ name s, p.get? name = some (.addr s) →
      s.Normal ∧ ∀ w ∈ s.windows, w.Bounded) :
    (∀ q, policy.merge p p = .ok q ↔
      p.settle = .ok q ∧ (policy = .intersect → p.Populated)) ∧
    ∀ q, policy.merge (.zeroed schema) (.zeroed schema) = .ok q ↔
      q = .zeroed schema ∧ (policy = .intersect → ∀ name, schema.get? name ≠ some .address) := by
  have hregular : policy = .intersect → p.Regular := fun hpolicy name s hs =>
    WindowSet.regular_iff.mpr (haddress hpolicy name s hs)
  refine ⟨fun _ => merge_self_eq_ok_iff hregular, fun q => ?_⟩
  rw [merge_self_eq_ok_iff fun _ => Parameter.regular_zeroed schema,
    Parameter.settle_zeroed schema, Parameter.populated_zeroed_iff, Except.ok.injEq]
  exact and_congr_left fun _ => eq_comm

/-- A window of addresses, and a width that is one of two numbers. -/
theorem narrow_with_itself :
    Policy.intersect.merge narrow narrow =
        .ok (.ofList [("peers", .addr ⟨[⟨0, 8⟩]⟩), ("width", .num 16)]) ∧
      Policy.intersect.merge (.zeroed (.ofList [("valid", .flag), ("width", .number)]))
          (.zeroed (.ofList [("valid", .flag), ("width", .number)])) =
        .ok (.zeroed (.ofList [("valid", .flag), ("width", .number)])) := by
  have hvalues : narrow.values = [.addr ⟨[⟨0, 8⟩]⟩, .oneOf (.ofList [8, 16])] := by
    simp (disch := decide) only [narrow, WindowSet.ofList_singleton]
    rfl
  have hsettle : narrow.settle =
      .ok (.ofList [("peers", .addr ⟨[⟨0, 8⟩]⟩), ("width", .num 16)]) := by
    simp (disch := decide) only [narrow, WindowSet.ofList_singleton]
    rfl
  have haddress : ∀ name s, narrow.get? name = some (.addr s) →
      s.Normal ∧ ∀ w ∈ s.windows, w.Bounded := by
    intro name s hs
    have hmem := Fields.mem_values_iff.mpr ⟨name, hs⟩
    rw [hvalues, List.mem_pair] at hmem
    obtain heq | heq := hmem
    · cases heq
      exact ⟨⟨List.pairwise_singleton _ _, by decide⟩, by decide⟩
    · cases heq
  have hpopulated : narrow.Populated := by
    apply Fields.notMem_values_iff.mp
    rw [hvalues]
    decide
  have hschema : ∀ name, (Fields.ofList [("valid", Kind.flag), ("width", Kind.number)]).get? name ≠
      some .address := Fields.notMem_values_iff.mp (by decide)
  obtain ⟨hself, hzeroed⟩ := merge_with_itself .intersect narrow
    (.ofList [("valid", .flag), ("width", .number)]) fun _ => haddress
  exact ⟨(hself _).mpr ⟨hsettle, fun _ => hpopulated⟩, (hzeroed _).mpr ⟨rfl, fun _ => hschema⟩⟩

/-- The zero value of a schema with an address field. -/
def vacant : Parameter :=
  .zeroed (.ofList [("window", .address)])

/-- A set without addresses is in normal form and settles to itself, and has nothing in common with
itself. -/
theorem vacant_refused :
    WindowSet.empty.Normal ∧ vacant = .ofList [("window", .addr .empty)] ∧
      vacant.settle = .ok vacant ∧ Policy.intersect.merge vacant vacant =
        .error (.inField "window" (.nothingInCommon (.addr .empty) (.addr .empty))) :=
  ⟨⟨.nil, nofun⟩, rfl, rfl, rfl⟩

/-- The sides of a merge may be exchanged: both ways come to the same record, or both are refused.  Of
the address sets that are met it is enough that their windows stop before the next one begins. -/
theorem merge_either_way (policy : Policy) {down up : Parameter}
    (hseparated : policy = .intersect → down.Separated ∧ up.Separated) :
    (∃ agreed, policy.merge down up = .ok agreed ∧ policy.merge up down = .ok agreed) ∨
      ∃ reason reason', policy.merge down up = .error reason ∧
        policy.merge up down = .error reason' := by
  cases hdown : policy.merge down up with
  | ok agreed => exact Or.inl ⟨agreed, rfl, merge_comm hseparated hdown⟩
  | error reason =>
      cases hup : policy.merge up down with
      | ok agreed =>
          have hswapped : policy = .intersect → up.Separated ∧ down.Separated :=
            fun hpolicy => (hseparated hpolicy).symm
          rw [merge_comm hswapped hup] at hdown
          cases hdown
      | error reason' => exact Or.inr ⟨reason, reason', rfl, rfl⟩

theorem narrow_either_way :
    narrow.Separated ∧ broad.Separated ∧ ∃ agreed,
      Policy.intersect.merge narrow broad = .ok agreed ∧
        Policy.intersect.merge broad narrow = .ok agreed := by
  have hset : (Value.oneOf (.ofList [8, 16])).Separated := Value.separated_of_number rfl
  have hspan : (Value.span 4 12).Separated := Value.separated_of_number rfl
  have hnarrow : narrow.Separated :=
    Parameter.separated_ofList (by simp [Value.separated_addr_ofList, hset])
  have hbroad : broad.Separated :=
    Parameter.separated_ofList (by simp [Value.separated_addr_ofList, hspan])
  have hmerge : Policy.intersect.merge narrow broad =
      .ok (.ofList [("peers", .addr ⟨[⟨4, 4⟩]⟩), ("width", .num 8)]) := by
    simp (disch := decide) only [narrow, broad, WindowSet.ofList_singleton]
    rfl
  refine ⟨hnarrow, hbroad, ?_⟩
  obtain hboth | ⟨reason, reason', hrefused, _⟩ :=
    merge_either_way .intersect fun _ => ⟨hnarrow, hbroad⟩
  · exact hboth
  · rw [hmerge] at hrefused
    cases hrefused

end Policy

end Negotiation
