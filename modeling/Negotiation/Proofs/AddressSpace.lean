import Negotiation.Proofs.Coalescing

/-!
Windows as runs of numbers.

A window that has a base and a size covers the addresses from the base on, as many as its size says,
counted in numbers without a bound (`Window.Covers`).  The test for membership, which compares with a
stop that is an address itself, finds all of these but one: the last address is in no window
(`Window.contains_iff_covers`), and so in no set.  A set in normal form is regular if and only if there
is an address right after each of its windows (`WindowSet.regular_iff`).
-/

namespace Negotiation

namespace Window

variable {w : Window} {address : UInt64}

/-- The address is one of those that the window has from its base on. -/
def Covers (w : Window) (address : UInt64) : Prop :=
  w.base.toNat ≤ address.toNat ∧ address.toNat < w.base.toNat + w.size.toNat

instance (w : Window) (address : UInt64) : Decidable (w.Covers address) :=
  inferInstanceAs (Decidable (_ ∧ _))

/-- There is an address right after the window. -/
def Bounded (w : Window) : Prop :=
  w.base.toNat + w.size.toNat < UInt64.size

instance (w : Window) : Decidable w.Bounded :=
  inferInstanceAs (Decidable (_ < _))

theorem ne_limit_iff : address ≠ limit ↔ address.toNat < lastAddress := by
  rw [Ne, ← UInt64.toNat_inj, limit_toNat]
  have hle := toNat_le_lastAddress address
  omega

/-- A window has the addresses that it covers, except the last. -/
theorem contains_iff_covers : w.contains address = true ↔ address ≠ limit ∧ w.Covers address := by
  rw [contains_iff, UInt64.le_iff_toNat_le, UInt64.lt_iff_toNat_lt, stop_toNat, Nat.lt_min,
    ne_limit_iff, Covers]
  constructor
  · rintro ⟨hbase, hstop, hlast⟩
    exact ⟨hlast, hbase, hstop⟩
  · rintro ⟨hlast, hbase, hstop⟩
    exact ⟨hbase, hstop, hlast⟩

/-- A window covers the last address if there is none after the window. -/
theorem covers_limit_iff : w.Covers limit ↔ ¬ w.Bounded := by
  have hbase := toNat_le_lastAddress w.base
  have hlast := lastAddress_add_one
  rw [Covers, Bounded, limit_toNat]
  omega

/-- The size of a window says where it stops if there is an address after it. -/
theorem eq_upTo_iff : w = upTo w.base w.stop ↔ w.Bounded := by
  have hlast := lastAddress_add_one
  have hsize := UInt64.toNat_sub_of_le _ _ w.base_le_stop
  rw [stop_toNat] at hsize
  rw [Bounded]
  constructor
  · intro h
    have hsame : w.size = w.stop - w.base := congrArg size h
    have hle := UInt64.le_iff_toNat_le.mp w.base_le_stop
    rw [← hsame] at hsize
    rw [stop_toNat] at hle
    omega
  · intro hbounded
    have hsame : w.size = w.stop - w.base := UInt64.toNat.inj (by omega)
    exact congrArg (Window.mk w.base) hsame

theorem proper_iff : w.Proper ↔ 0 < w.size ∧ w.Bounded := by
  constructor
  · intro h
    exact ⟨h.size_pos, eq_upTo_iff.mp h.2⟩
  · rintro ⟨hsize, hbounded⟩
    refine ⟨base_lt_stop hsize (base_lt_limit fun hbase => ?_), eq_upTo_iff.mpr hbounded⟩
    have hpos : 0 < w.size.toNat := hsize
    have hlast := lastAddress_add_one
    rw [Bounded, hbase, limit_toNat] at hbounded
    omega

end Window

namespace WindowSet

variable {ws : List Window} {address : UInt64}

theorem contains_ofList_iff_covers : (ofList ws).contains address = true ↔
    address ≠ Window.limit ∧ ∃ w ∈ ws, w.Covers address := by
  rw [contains_ofList]
  constructor
  · rintro ⟨w, hw, hin⟩
    obtain ⟨hlimit, hcovers⟩ := Window.contains_iff_covers.mp hin
    exact ⟨hlimit, w, hw, hcovers⟩
  · rintro ⟨hlimit, w, hw, hcovers⟩
    exact ⟨w, hw, Window.contains_iff_covers.mpr ⟨hlimit, hcovers⟩⟩

/-- A set has all addresses that its windows cover if and only if there is one after each window. -/
theorem contains_ofList_eq_covers_iff :
    (∀ address, (ofList ws).contains address = true ↔ ∃ w ∈ ws, w.Covers address) ↔
      ∀ w ∈ ws, w.Bounded := by
  constructor
  · intro hsame w hw
    refine Decidable.byContradiction fun hend => ?_
    have hin := (hsame Window.limit).mpr ⟨w, hw, Window.covers_limit_iff.mpr hend⟩
    exact (contains_ofList_iff_covers.mp hin).1 rfl
  · intro hbounded address
    rw [contains_ofList_iff_covers]
    apply and_iff_right_of_imp
    rintro ⟨w, hw, hcovers⟩ rfl
    exact Window.covers_limit_iff.mp hcovers (hbounded w hw)

theorem regular_iff {s : WindowSet} :
    s.Regular ↔ s.Normal ∧ ∀ w ∈ s.windows, w.Bounded := by
  constructor
  · intro h
    exact ⟨h.normal, fun w hw => (Window.proper_iff.mp (h.2 w hw)).2⟩
  · rintro ⟨hnormal, hbounded⟩
    refine ⟨hnormal.separated, fun w hw => ?_⟩
    exact Window.proper_iff.mpr ⟨hnormal.sized w hw, hbounded w hw⟩

/-- Address sets by what their windows cover, without a bound on the numbers.  A set has what one of
its windows covers, the last address excepted, so that it has all of that if and only if there is an
address after each window.  Two sets have a common part if and only if a window of each covers an
address other than the last. -/
theorem addresses_below_limit (ws vs : List Window) :
    (∀ address, (ofList ws).contains address = true ↔
      address ≠ Window.limit ∧ ∃ w ∈ ws, w.Covers address) ∧
    ((∀ address, (ofList ws).contains address = true ↔ ∃ w ∈ ws, w.Covers address) ↔
      ∀ w ∈ ws, w.Bounded) ∧
    ((∃ both, (Value.addr (ofList ws)).intersect? (.addr (ofList vs)) = some both) ↔
      ∃ address, address ≠ Window.limit ∧
        (∃ w ∈ ws, w.Covers address) ∧ ∃ v ∈ vs, v.Covers address) := by
  refine ⟨fun _ => contains_ofList_iff_covers, contains_ofList_eq_covers_iff, ?_⟩
  rw [Value.addr_intersect?_eq_some_iff (separated_ofList ws) (separated_ofList vs)]
  apply exists_congr
  intro address
  rw [contains_ofList_iff_covers, contains_ofList_iff_covers, ← and_and_left]

/-- A window of the last address, and one of the last two.  Both cover the last address, which neither
the set of the first nor the common part of both has. -/
theorem last_address_missed :
    Window.limit.toNat + 1 = UInt64.size ∧ (Window.limit - 1).toNat + 2 = UInt64.size ∧
      (⟨Window.limit, 1⟩ : Window).Covers Window.limit ∧
      (⟨Window.limit - 1, 2⟩ : Window).Covers Window.limit ∧
      (ofList [⟨Window.limit, 1⟩]).contains Window.limit = false ∧
      (Value.addr (ofList [⟨Window.limit, 1⟩])).intersect?
        (.addr (ofList [⟨Window.limit - 1, 2⟩])) = none := by
  simp (disch := decide) only [ofList_singleton]
  decide

end WindowSet

end Negotiation
