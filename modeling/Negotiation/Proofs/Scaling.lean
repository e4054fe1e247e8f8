import Negotiation.Adapter
import Negotiation.Proofs.CommonValue

/-!
Scaling a field.

A field is scaled by way of the largest number that it admits.  What comes out is exact: times the
divisor it is that number times the factor, counted without a bound (`Transform.Scales`).  Where there
is no such number the parameter is refused, for a reason that says what stands in the way
(`Transform.scaleField_eq_error_iff`).  An exact ratio can be undone, so scaling by the inverse ratio
leads back to the number from which scaling set out (`Transform.scaling_exact`).
-/

namespace Negotiation

namespace Value

variable {v : Value} {n : UInt64}

/-- A value settles to the largest number that it admits, if it admits any. -/
theorem toNumber?_eq_some_iff_isGreatest : v.toNumber? = some n ↔ IsGreatest v.numbers n := by
  constructor
  · intro h
    exact isGreatest_of_settle? (toNumber?_eq_some.mp h)
  · intro h
    obtain ⟨m, hm⟩ := exists_settle?_of_admits h.1
    obtain ⟨hadmits, hle⟩ := isGreatest_of_settle? hm
    have hsame : m = n := UInt64.le_antisymm (h.2 hadmits) (hle h.1)
    rw [toNumber?_eq_some, hm, hsame]

theorem toNumber?_eq_none_iff (hkind : v.kind = .number) :
    v.toNumber? = none ↔ v.isUnsatisfiable = true := by
  rw [← settle?_eq_none_iff]
  constructor
  · intro hnone
    cases hsettle : v.settle? with
    | none => rfl
    | some settled =>
        obtain ⟨n, rfl⟩ := exists_num_of_settle? hkind hsettle
        rw [toNumber?_eq_some.mpr hsettle] at hnone
        cases hnone
  · intro hnone
    rw [toNumber?, hnone]

end Value

namespace Parameter

/-- The field is there, and this is the largest number that it admits. -/
def LargestAt (p : Parameter) (name : String) (n : UInt64) : Prop :=
  ∃ value, p.get? name = some value ∧ IsGreatest value.numbers n

/-- The parameter with one field settled, if the field is there and admits something. -/
def settleField? (p : Parameter) (name : String) : Option Parameter := do
  let value ← p.get? name
  let settled ← value.settle?
  return p.insert name settled

variable {p : Parameter} {name : String} {n : UInt64}

theorem LargestAt.unique {m : UInt64} (h : p.LargestAt name n) (h' : p.LargestAt name m) :
    n = m := by
  obtain ⟨value, hget, hn⟩ := h
  obtain ⟨value', hget', hm⟩ := h'
  rw [hget] at hget'
  cases hget'
  exact UInt64.le_antisymm (hm.2 hn.1) (hn.2 hm.1)

theorem LargestAt.settleField?_eq (h : p.LargestAt name n) :
    p.settleField? name = some (p.insert name (.num n)) := by
  obtain ⟨value, hget, hgreatest⟩ := h
  have hsettle : value.settle? = some (.num n) :=
    Value.toNumber?_eq_some.mp (Value.toNumber?_eq_some_iff_isGreatest.mpr hgreatest)
  rw [settleField?, hget, Option.bind_eq_bind, Option.bind_some, hsettle]
  rfl

/-- A field that was set to a number admits that number alone. -/
theorem largestAt_insert (p : Parameter) (name : String) (n : UInt64) :
    LargestAt (p.insert name (.num n)) name n := by
  refine ⟨.num n, ?_, Value.isGreatest_of_settle? rfl⟩
  rw [Fields.get?_insert, if_pos rfl]

end Parameter

namespace Transform

variable {p scaled : Parameter} {name : String} {num den n q : UInt64}

/-- `q` is exactly `n` times `num` divided by `den`, and the product fits into 64 bits. -/
structure Scales (num den n q : UInt64) : Prop where
  divisor : den ≠ 0
  fits : n.toNat * num.toNat < UInt64.size
  exact : q.toNat * den.toNat = n.toNat * num.toNat

namespace Scales

theorem toNat_ne_zero (h : den ≠ 0) : den.toNat ≠ 0 := by
  intro hzero
  apply h
  exact UInt64.toNat.inj hzero

theorem unique {q' : UInt64} (h : Scales num den n q) (h' : Scales num den n q') : q = q' := by
  apply UInt64.toNat.inj
  apply Nat.eq_of_mul_eq_mul_right (Nat.pos_of_ne_zero (toNat_ne_zero h.divisor))
  exact h.exact.trans h'.exact.symm

/-- What was scaled by a ratio can be scaled by the inverse ratio: the product is the same. -/
theorem inverse (h : Scales num den n q) (hnum : num ≠ 0) : Scales den num q n where
  divisor := hnum
  fits := h.exact ▸ h.fits
  exact := h.exact.symm

/-- The quotient is a number of 64 bits if the product is one. -/
theorem exists_iff : (∃ q, Scales num den n q) ↔
    den ≠ 0 ∧ n.toNat * num.toNat < UInt64.size ∧ den.toNat ∣ n.toNat * num.toNat := by
  constructor
  · rintro ⟨q, h⟩
    exact ⟨h.divisor, h.fits, q.toNat, h.exact.symm.trans (Nat.mul_comm _ _)⟩
  · rintro ⟨hden, hfits, hdvd⟩
    refine ⟨.ofNat (n.toNat * num.toNat / den.toNat), hden, hfits, ?_⟩
    have hlt : n.toNat * num.toNat / den.toNat < UInt64.size :=
      Nat.lt_of_le_of_lt (Nat.div_le_self _ _) hfits
    rw [UInt64.toNat_ofNat_of_lt' hlt]
    exact Nat.div_mul_cancel hdvd

end Scales

/-- Why a field is not scaled. -/
inductive Hinders (p : Parameter) (name : String) (num den : UInt64) : Reason → Prop
  | missing (h : p.get? name = none) : Hinders p name num den (.missingField name)
  | other {value : Value} (h : p.get? name = some value) (hkind : value.kind ≠ .number) :
      Hinders p name num den (.notNumeric name)
  | empty {value : Value} (h : p.get? name = some value) (hkind : value.kind = .number)
      (hnone : value.isUnsatisfiable = true) : Hinders p name num den (.emptyField name value)
  | inexact {n : UInt64} (h : p.LargestAt name n) (hnone : ∀ q, ¬ Scales num den n q) :
      Hinders p name num den (.unscalable name n num den)

/-- A field that admits a number is scaled by way of the largest. -/
theorem scaleField_of_largestAt (h : p.LargestAt name n) :
    (∃ q, Scales num den n q ∧ scaleField name num den p = .ok (p.insert name (.num q))) ∨
      (∀ q, ¬ Scales num den n q) ∧
        scaleField name num den p = .error (.unscalable name n num den) := by
  obtain ⟨value, hget, hgreatest⟩ := h
  have hkind : value.kind = .number := Value.kind_of_admits hgreatest.1
  have hnumber : value.toNumber? = some n := Value.toNumber?_eq_some_iff_isGreatest.mpr hgreatest
  simp only [scaleField, hget, hkind, hnumber, ne_eq, not_true_eq_false, ↓reduceIte]
  by_cases hscales : ∃ q, Scales num den n q
  · obtain ⟨hden, hfits, hdvd⟩ := Scales.exists_iff.mp hscales
    obtain ⟨q, hq⟩ := hscales
    have hquotient : UInt64.ofNat (n.toNat * num.toNat / den.toNat) = q := by
      rw [← hq.exact, Nat.mul_div_cancel _ (Nat.pos_of_ne_zero (Scales.toNat_ne_zero hden)),
        UInt64.ofNat_toNat]
    rw [if_pos ⟨hfits, hden, Nat.mod_eq_zero_of_dvd hdvd⟩, hquotient]
    exact Or.inl ⟨q, hq, rfl⟩
  · refine Or.inr ⟨not_exists.mp hscales, if_neg ?_⟩
    rintro ⟨hfits, hden, hmod⟩
    exact hscales (Scales.exists_iff.mpr ⟨hden, hfits, Nat.dvd_of_mod_eq_zero hmod⟩)

/-- Either the field admits a number, or the parameter is refused whatever the ratio. -/
theorem largestAt_or_hinders (p : Parameter) (name : String) (num den : UInt64) :
    (∃ n, p.LargestAt name n) ∨
      ∃ reason, Hinders p name num den reason ∧ scaleField name num den p = .error reason := by
  cases hget : p.get? name with
  | none =>
      refine Or.inr ⟨_, .missing hget, ?_⟩
      simp only [scaleField, hget]
  | some value =>
      by_cases hkind : value.kind = .number
      · cases hnumber : value.toNumber? with
        | none =>
            refine Or.inr ⟨_, .empty hget hkind ((Value.toNumber?_eq_none_iff hkind).mp hnumber), ?_⟩
            simp only [scaleField, hget, hkind, hnumber, ne_eq, not_true_eq_false, ↓reduceIte]
        | some n =>
            have hgreatest := Value.toNumber?_eq_some_iff_isGreatest.mp hnumber
            exact Or.inl ⟨n, value, hget, hgreatest⟩
      · refine Or.inr ⟨_, .other hget hkind, ?_⟩
        simp only [scaleField, hget, ne_eq, hkind, not_false_eq_true, ↓reduceIte]

/-- What is scaled, and to what. -/
theorem scaleField_eq_ok_iff : scaleField name num den p = .ok scaled ↔
    ∃ n q, p.LargestAt name n ∧ Scales num den n q ∧ scaled = p.insert name (.num q) := by
  constructor
  · intro h
    rcases largestAt_or_hinders p name num den with ⟨n, hn⟩ | ⟨reason, -, hreason⟩
    · rcases scaleField_of_largestAt hn with ⟨q, hq, hok⟩ | ⟨-, hreason⟩
      · exact ⟨n, q, hn, hq, Except.ok.inj (h.symm.trans hok)⟩
      · rw [h] at hreason
        cases hreason
    · rw [h] at hreason
      cases hreason
  · rintro ⟨n, q, hn, hq, rfl⟩
    rcases scaleField_of_largestAt hn with ⟨q', hq', hok⟩ | ⟨hnone, -⟩
    · rw [hok, hq.unique hq']
    · exact absurd hq (hnone q)

/-- What is refused, and why. -/
theorem scaleField_eq_error_iff {reason : Reason} :
    scaleField name num den p = .error reason ↔ Hinders p name num den reason := by
  constructor
  · intro h
    rcases largestAt_or_hinders p name num den with ⟨n, hn⟩ | ⟨found, hhinders, hfound⟩
    · rcases scaleField_of_largestAt hn with ⟨q, -, hok⟩ | ⟨hnone, hfound⟩
      · rw [h] at hok
        cases hok
      · rw [Except.error.inj (h.symm.trans hfound)]
        exact .inexact hn hnone
    · rw [Except.error.inj (h.symm.trans hfound)]
      exact hhinders
  · intro h
    cases h with
    | missing hget => simp only [scaleField, hget]
    | other hget hkind =>
        simp only [scaleField, hget, ne_eq, hkind, not_false_eq_true, ↓reduceIte]
    | empty hget hkind hnone =>
        have hnumber := (Value.toNumber?_eq_none_iff hkind).mpr hnone
        simp only [scaleField, hget, hkind, hnumber, ne_eq, not_true_eq_false, ↓reduceIte]
    | inexact hn hnone =>
        rcases scaleField_of_largestAt hn with ⟨q, hq, -⟩ | ⟨-, hreason⟩
        · exact absurd hq (hnone q)
        · exact hreason

/-- Scaling back: the inverse ratio leads to the number from which scaling set out. -/
theorem scaleField_inverse (h : scaleField name num den p = .ok scaled) (hnum : num ≠ 0) :
    ∃ settled, p.settleField? name = some settled ∧
      scaleField name den num scaled = .ok settled := by
  obtain ⟨n, q, hn, hq, rfl⟩ := scaleField_eq_ok_iff.mp h
  refine ⟨p.insert name (.num n), hn.settleField?_eq, ?_⟩
  apply scaleField_eq_ok_iff.mpr
  refine ⟨q, n, Parameter.largestAt_insert p name q, hq.inverse hnum, ?_⟩
  apply Fields.ext_get?
  intro key
  rw [Fields.get?_insert, Fields.get?_insert, Fields.get?_insert]
  split <;> rfl

/-- Whether anything hinders scaling, without its wording. -/
theorem exists_hinders_iff : (∃ reason, Hinders p name num den reason) ↔
    p.get? name = none ∨
      (∃ value, p.get? name = some value ∧
        (value.kind ≠ .number ∨ value.isUnsatisfiable = true)) ∨
      den = 0 ∨
      ∃ n, p.LargestAt name n ∧
        (UInt64.size ≤ n.toNat * num.toNat ∨ ¬ den.toNat ∣ n.toNat * num.toNat) := by
  constructor
  · rintro ⟨reason, h⟩
    cases h with
    | missing hget => exact Or.inl hget
    | other hget hkind => exact Or.inr (Or.inl ⟨_, hget, Or.inl hkind⟩)
    | empty hget hkind hnone => exact Or.inr (Or.inl ⟨_, hget, Or.inr hnone⟩)
    | @inexact n hn hnone =>
        by_cases hden : den = 0
        · exact Or.inr (Or.inr (Or.inl hden))
        · refine Or.inr (Or.inr (Or.inr ⟨n, hn, ?_⟩))
          by_contra hboth
          obtain ⟨hfits, hdvd⟩ := not_or.mp hboth
          obtain ⟨q, hq⟩ := Scales.exists_iff.mpr ⟨hden, Nat.lt_of_not_le hfits, not_not.mp hdvd⟩
          exact hnone q hq
  · intro h
    rcases largestAt_or_hinders p name num den with ⟨n, hn⟩ | ⟨reason, hreason, -⟩
    · refine ⟨_, .inexact hn fun q hq => ?_⟩
      obtain ⟨hden, hfits, hdvd⟩ := Scales.exists_iff.mp ⟨q, hq⟩
      obtain ⟨value, hget, hgreatest⟩ := id hn
      rcases h with hmissing | ⟨other, hother, hno⟩ | hzero | ⟨m, hm, hbad⟩
      · rw [hmissing] at hget
        cases hget
      · rw [hget] at hother
        cases hother
        rcases hno with hkind | hnone
        · exact hkind (Value.kind_of_admits hgreatest.1)
        · rw [Value.isUnsatisfiable_of_admits hgreatest.1] at hnone
          cases hnone
      · exact hden hzero
      · rw [hm.unique hn] at hbad
        rcases hbad with hsize | hrest
        · exact Nat.not_le_of_lt hfits hsize
        · exact hrest hdvd
    · exact ⟨reason, hreason⟩

end Transform

/-- An adapter that scales a field by a ratio on the way down, and by the inverse ratio on the way
up. -/
def Adapter.converter (name : String) (num den : UInt64) : Adapter :=
  ⟨some (.scaleField name num den), some (.scaleField name den num)⟩

/-- Scaling by a ratio.  The parameter is refused if and only if the field is missing, is no number,
admits none, or the largest that it admits cannot be scaled exactly within 64 bits.  Otherwise the
field becomes the exact quotient and nothing else changes, and unless the factor was zero the inverse
ratio leads to the parameter with that field settled: the two ways through a converter undo each
other. -/
theorem Transform.scaling_exact (p : Parameter) (name : String) (num den : UInt64) :
    ((∃ reason, scaleField name num den p = .error reason) ↔
      p.get? name = none ∨
      (∃ value, p.get? name = some value ∧
        (value.kind ≠ .number ∨ value.isUnsatisfiable = true)) ∨
      den = 0 ∨
      ∃ n, p.LargestAt name n ∧
        (UInt64.size ≤ n.toNat * num.toNat ∨ ¬ den.toNat ∣ n.toNat * num.toNat)) ∧
    ∀ scaled, scaleField name num den p = .ok scaled →
      (∃ n q, p.LargestAt name n ∧ q.toNat * den.toNat = n.toNat * num.toNat ∧
        ∀ key, scaled.get? key = if key = name then some (.num q) else p.get? key) ∧
      (0 < num → ∃ settled, p.settleField? name = some settled ∧
        scaleField name den num scaled = .ok settled ∧
        (Adapter.converter name num den).apply .up scaled = .ok settled ∧
        (Adapter.converter name den num).apply .down scaled = .ok settled) := by
  refine ⟨?_, fun scaled h => ⟨?_, fun hnum => ?_⟩⟩
  · simp only [scaleField_eq_error_iff]
    exact exists_hinders_iff
  · obtain ⟨n, q, hn, hq, rfl⟩ := scaleField_eq_ok_iff.mp h
    exact ⟨n, q, hn, hq.exact, fun key => Fields.get?_insert p name (.num q) key⟩
  · have hne : num ≠ 0 := fun hzero => UInt64.lt_irrefl 0 (hzero ▸ hnum)
    obtain ⟨settled, hsettled, hback⟩ := scaleField_inverse h hne
    exact ⟨settled, hsettled, hback, hback, hback⟩

/-- A width that is still open, beside a mode. -/
def Transform.burst : Parameter :=
  .ofList [("mode", .sym "burst"), ("width", .span 1 12)]

/-- Twelve settles and becomes sixteen, and sixteen becomes twelve again. -/
theorem Transform.burst_scaled :
    scaleField "width" 4 3 burst = .ok (burst.insert "width" (.num 16)) ∧ (0 : UInt64) < 4 ∧
      ∃ settled, burst.settleField? "width" = some settled ∧
        settled = burst.insert "width" (.num 12) ∧
        (Adapter.converter "width" 4 3).apply .up (burst.insert "width" (.num 16)) = .ok settled := by
  have hdown : scaleField "width" 4 3 burst = .ok (burst.insert "width" (.num 16)) := by
    decide +kernel
  obtain ⟨-, hback⟩ := (scaling_exact burst "width" 4 3).2 _ hdown
  obtain ⟨settled, hsettled, -, hup, -⟩ := hback (by decide)
  have htwelve : burst.settleField? "width" = some (burst.insert "width" (.num 12)) := by
    decide +kernel
  refine ⟨hdown, by decide, settled, hsettled, ?_, hup⟩
  exact Option.some.inj (hsettled.symm.trans htwelve)

end Negotiation
