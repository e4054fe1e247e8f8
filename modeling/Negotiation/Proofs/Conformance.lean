import Negotiation.Proofs.Absorption

/-!
Parameters that fit a schema.

A parameter fits a schema if the two have the same fields and every value is satisfiable and of its
declared kind (`Schema.admits_iff`).  What parameters of one schema are merged or reduced into fits
that schema again; what parameters of two schemas are merged into fits the one if and only if it
declares every field of the other (`Schema.admits_merge_iff`).
-/

namespace Negotiation

namespace Schema

variable {schema other : Schema} {p q merged reduced : Parameter} {policy : Policy}

/-- The value is satisfiable and of the kind. -/
def Takes (kind : Kind) (value : Value) : Prop :=
  value.kind = kind ∧ value.isUnsatisfiable = false

theorem takes_of_isConcrete {value : Value} (h : value.isConcrete = true) :
    Takes value.kind value := by
  refine ⟨rfl, ?_⟩
  cases value with
  | oneOf set => cases h
  | span lo hi => cases h
  | _ => rfl

theorem fieldFault_eq_none_iff {name : String} {kind : Kind} :
    fieldFault p name kind = none ↔ ∃ value, p.get? name = some value ∧ Takes kind value := by
  rw [fieldFault]
  cases p.get? name with
  | none => simp
  | some value =>
      by_cases hkind : value.kind = kind
      · cases hempty : value.isUnsatisfiable <;> simp [Takes, hkind, hempty]
      · simp [Takes, hkind]

/-- A parameter fits a schema if and only if it has a fitting value for each declared field, and no
other field. -/
theorem admits_iff :
    schema.admits p = true ↔ ∀ name, Option.Rel Takes (schema.get? name) (p.get? name) := by
  rw [admits, fault, Option.isNone_iff_eq_none, Option.or_eq_none_iff, List.findSome?_eq_none_iff,
    Option.map_eq_none_iff, List.find?_eq_none]
  constructor
  · rintro ⟨hdeclared, hnone⟩ name
    cases hkind : schema.get? name with
    | some kind =>
        obtain ⟨value, hvalue, htakes⟩ :=
          fieldFault_eq_none_iff.mp (hdeclared (name, kind) (Fields.get?_eq_some_iff.mp hkind))
        rw [hvalue]
        exact .some htakes
    | none =>
        cases hvalue : p.get? name with
        | none => exact .none
        | some value =>
            have hmem : p.contains name = true := by
              rw [Fields.contains, hvalue]
              rfl
            refine absurd ?_ (hnone name (Fields.contains_iff_mem_keys.mp hmem))
            rw [Fields.contains, hkind]
            rfl
  · intro h
    refine ⟨fun entry hentry => fieldFault_eq_none_iff.mpr ?_, fun name hmem => ?_⟩
    · have hrel := h entry.1
      rw [Fields.get?_eq_some_iff.mpr hentry] at hrel
      generalize p.get? entry.1 = y at hrel ⊢
      cases hrel with
      | some htakes => exact ⟨_, rfl, htakes⟩
    · obtain ⟨value, hvalue⟩ := Option.isSome_iff_exists.mp (Fields.contains_iff_mem_keys.mpr hmem)
      have hrel := h name
      rw [hvalue] at hrel
      rw [Fields.contains]
      generalize schema.get? name = x at hrel ⊢
      cases hrel with
      | some _ => simp

theorem check_eq_ok_iff : schema.check p = .ok () ↔ schema.admits p = true := by
  rw [check, admits]
  cases schema.fault p <;> simp

/-- A parameter that fits a schema has the declared fields, each of the declared kind. -/
theorem map_kind (h : schema.admits p = true) (name : String) :
    (p.get? name).map Value.kind = schema.get? name := by
  have hrel := admits_iff.mp h name
  generalize schema.get? name = x at hrel ⊢
  generalize p.get? name = y at hrel ⊢
  cases hrel with
  | none => rfl
  | some htakes => exact congrArg some htakes.1

theorem isSome_get? (h : schema.admits p = true) (name : String) :
    (p.get? name).isSome = schema.contains name := by
  rw [Fields.contains, ← map_kind h, Option.isSome_map]

theorem addressless_of_admits (haddress : ∀ name, schema.get? name ≠ some .address)
    (h : schema.admits p = true) : p.Addressless := by
  intro name a ha hkind
  refine haddress name ?_
  rw [← map_kind h, ha, Option.map_some, hkind]

/-- What is settled fits a schema if it has the declared fields, each of the declared kind. -/
theorem admits_of_isConcrete (hconcrete : p.isConcrete = true)
    (hkind : ∀ name, (p.get? name).map Value.kind = schema.get? name) : schema.admits p = true := by
  refine admits_iff.mpr fun name => ?_
  rw [← hkind name]
  cases hvalue : p.get? name with
  | none => exact .none
  | some value =>
      have hvalueConcrete := Parameter.isConcrete_iff.mp hconcrete name value hvalue
      exact .some (takes_of_isConcrete hvalueConcrete)

theorem admits_of_settle (hp : schema.admits p = true) (h : p.settle = .ok q) :
    schema.admits q = true := by
  refine admits_of_isConcrete (Parameter.keeps_of_settle h).1 fun name => ?_
  rw [← map_kind hp]
  have hrel := Parameter.get?_of_settle h name
  generalize p.get? name = x at hrel ⊢
  generalize q.get? name = y at hrel ⊢
  cases hrel with
  | none => rfl
  | some hsettle => exact congrArg some (Value.kind_of_settle? hsettle)

/-- What a merge makes of a field has the kind that each side has of it, if it has it. -/
theorem kind_of_joins {x y z : Option Value} (h : policy.Joins x y z) :
    z.map Value.kind = (x.map Value.kind).or (y.map Value.kind) := by
  cases h with
  | neither => rfl
  | ours _ hsettle => exact congrArg some (Value.kind_of_settle? hsettle)
  | theirs _ hsettle => exact congrArg some (Value.kind_of_settle? hsettle)
  | both hmeets => exact congrArg some hmeets.kind.1

theorem map_kind_of_merge (hp : schema.admits p = true) (hq : other.admits q = true)
    (h : policy.merge p q = .ok merged) (name : String) :
    (merged.get? name).map Value.kind = (schema.get? name).or (other.get? name) := by
  rw [kind_of_joins (Policy.joins_of_merge h name), map_kind hp, map_kind hq]

/-- What two parameters, each of its own schema, are merged into fits the one schema if and only if
it declares every field of the other. -/
theorem admits_merge_iff (hp : schema.admits p = true) (hq : other.admits q = true)
    (h : policy.merge p q = .ok merged) :
    schema.admits merged = true ↔
      ∀ name, other.contains name = true → schema.contains name = true := by
  have hkind := map_kind_of_merge hp hq h
  constructor
  · intro hmerged name hdeclared
    have hfield := hkind name
    rw [map_kind hmerged] at hfield
    rw [Fields.contains] at hdeclared ⊢
    cases hschema : schema.get? name with
    | some kind => rfl
    | none =>
        rw [hschema, Option.none_or] at hfield
        rw [← hfield] at hdeclared
        cases hdeclared
  · intro hcovers
    refine admits_of_isConcrete (Policy.isConcrete_of_merge h) fun name => ?_
    rw [hkind]
    have hname := hcovers name
    rw [Fields.contains, Fields.contains] at hname
    cases hschema : schema.get? name with
    | some kind => rfl
    | none =>
        rw [hschema] at hname
        cases hother : other.get? name with
        | none => rfl
        | some kind =>
            rw [hother] at hname
            cases hname rfl

theorem admits_of_merge (hp : schema.admits p = true) (hq : schema.admits q = true)
    (h : policy.merge p q = .ok merged) : schema.admits merged = true :=
  (admits_merge_iff hp hq h).mpr fun _ => id

theorem admits_of_foldlM {first : Parameter} {rest : List Parameter}
    (hall : ∀ v ∈ first :: rest, schema.admits v = true)
    (h : rest.foldlM policy.merge first = .ok reduced) : schema.admits reduced = true := by
  induction rest generalizing first with
  | nil =>
      obtain rfl : first = reduced := Except.ok.inj h
      exact hall first List.mem_cons_self
  | cons next rest ih =>
      rw [List.foldlM_cons] at h
      obtain ⟨merged, hmerged, hrest⟩ := exists_of_bind_eq_ok h
      obtain ⟨hfirst, hothers⟩ := List.forall_mem_cons.mp hall
      obtain ⟨hnext, hrestAll⟩ := List.forall_mem_cons.mp hothers
      exact ih (List.forall_mem_cons.mpr ⟨admits_of_merge hfirst hnext hmerged, hrestAll⟩) hrest

/-- What parameters of one schema are reduced into fits the schema. -/
theorem admits_of_reduce {values : List Parameter} (hall : ∀ v ∈ values, schema.admits v = true)
    (h : policy.reduce values = .ok reduced) : schema.admits reduced = true := by
  cases values with
  | nil => cases h
  | cons value rest =>
      obtain ⟨settled, hsettled, hrest⟩ := exists_of_bind_eq_ok h
      obtain ⟨hvalue, hothers⟩ := List.forall_mem_cons.mp hall
      have hfits : ∀ v ∈ settled :: rest, schema.admits v = true :=
        List.forall_mem_cons.mpr ⟨admits_of_settle hvalue hsettled, hothers⟩
      exact admits_of_foldlM hfits hrest

end Schema

end Negotiation
