import Mathlib.Data.UInt
import Negotiation.Window

/-!
The addresses of window sets.

In a set in normal form every window stops before the next one begins.  Common addresses of two
such sets are found by walking along both, because the window that stops first has nothing in common
with what follows in the other set.  A set of which, besides, every window says by its size where it
stops is determined by its addresses (`WindowSet.Regular.ext_contains`).
-/

namespace Negotiation

instance lawfulOrderSup_uint64 : Std.LawfulOrderSup UInt64 where
  max_le_iff a b c := by
    simp only [UInt64.le_iff_toNat_le, UInt64.toNat_max]
    omega

instance lawfulOrderInf_uint64 : Std.LawfulOrderInf UInt64 where
  le_min_iff a b c := by
    simp only [UInt64.le_iff_toNat_le, UInt64.toNat_min]
    omega

theorem max_comm (a b : UInt64) : max a b = max b a :=
  Std.le_antisymm (Std.max_le_iff.mpr ⟨Std.right_le_max, Std.left_le_max⟩)
    (Std.max_le_iff.mpr ⟨Std.right_le_max, Std.left_le_max⟩)

theorem min_comm (a b : UInt64) : min a b = min b a :=
  Std.le_antisymm (Std.le_min_iff.mpr ⟨Std.min_le_right, Std.min_le_left⟩)
    (Std.le_min_iff.mpr ⟨Std.min_le_right, Std.min_le_left⟩)

namespace Window

/-- The first window stops before the second begins. -/
def Before (v w : Window) : Prop :=
  v.stop < w.base

/-- The window is not empty, and its size says where it stops. -/
def Proper (w : Window) : Prop :=
  w.base < w.stop ∧ w = upTo w.base w.stop

theorem contains_iff {w : Window} {address : UInt64} :
    w.contains address = true ↔ w.base ≤ address ∧ address < w.stop := by
  rw [contains, Bool.and_eq_true, decide_eq_true_iff, decide_eq_true_iff]

theorem Proper.eq {v w : Window} (hv : v.Proper) (hw : w.Proper) (hbase : v.base = w.base)
    (hstop : v.stop = w.stop) : v = w := by
  rw [hv.2, hw.2, hbase, hstop]

theorem Proper.contains_base {w : Window} (h : w.Proper) : w.contains w.base = true :=
  contains_iff.mpr ⟨UInt64.le_refl _, h.1⟩

section Common

variable {v w x : Window}

theorem common?_eq_some (h : v.common? w = some x) :
    x.base = max v.base w.base ∧ x.stop = min v.stop w.stop ∧ x.Proper := by
  rw [common?] at h
  split at h
  · rename_i hlt
    cases h
    have hstop := upTo_stop (Std.le_of_lt hlt)
    exact ⟨rfl, hstop, by rw [hstop]; exact hlt, by rw [hstop]; rfl⟩
  · cases h

theorem base_le_of_common? (h : v.common? w = some x) : v.base ≤ x.base ∧ w.base ≤ x.base := by
  rw [(common?_eq_some h).1]
  exact ⟨Std.left_le_max, Std.right_le_max⟩

theorem stop_le_of_common? (h : v.common? w = some x) : x.stop ≤ v.stop ∧ x.stop ≤ w.stop := by
  rw [(common?_eq_some h).2.1]
  exact ⟨Std.min_le_left, Std.min_le_right⟩

/-- The addresses of the common part are the common addresses. -/
theorem exists_common?_iff {address : UInt64} :
    (∃ x, v.common? w = some x ∧ x.contains address = true) ↔
      v.contains address = true ∧ w.contains address = true := by
  have hlimits : max v.base w.base ≤ address ∧ address < min v.stop w.stop ↔
      v.contains address = true ∧ w.contains address = true := by
    simp only [contains_iff, UInt64.le_iff_toNat_le, UInt64.lt_iff_toNat_lt, UInt64.toNat_max,
      UInt64.toNat_min]
    omega
  constructor
  · rintro ⟨x, hx, hcontains⟩
    obtain ⟨hbase, hstop, _⟩ := common?_eq_some hx
    rw [contains_iff, hbase, hstop] at hcontains
    exact hlimits.mp hcontains
  · intro hboth
    have hin := hlimits.mpr hboth
    have hlt : max v.base w.base < min v.stop w.stop := Std.lt_of_le_of_lt hin.1 hin.2
    refine ⟨_, if_pos hlt, contains_iff.mpr ?_⟩
    rw [upTo_stop (Std.le_of_lt hlt)]
    exact hin

end Common

end Window

section Walk

/-! One walk along two lists of windows finds their common addresses. -/

theorem commonWindows_cons_cons (w v : Window) (ws vs : List Window) :
    commonWindows (w :: ws) (v :: vs) = (w.common? v).toList ++
      if w.stop ≤ v.stop then commonWindows ws (v :: vs) else commonWindows (w :: ws) vs :=
  rfl

/-- What is found is common to a window of each list. -/
theorem exists_of_mem_commonWindows {ws vs : List Window} {x : Window}
    (h : x ∈ commonWindows ws vs) : ∃ w ∈ ws, ∃ v ∈ vs, w.common? v = some x := by
  induction ws generalizing vs with
  | nil => cases h
  | cons w ws ihw =>
      induction vs with
      | nil => cases h
      | cons v vs ihv =>
          rw [commonWindows_cons_cons, List.mem_append] at h
          rcases h with hhere | hlater
          · exact ⟨w, List.mem_cons_self, v, List.mem_cons_self, Option.mem_toList.mp hhere⟩
          · split at hlater
            · obtain ⟨w', hw', hrest⟩ := ihw hlater
              exact ⟨w', List.mem_cons_of_mem _ hw', hrest⟩
            · obtain ⟨w', hw', v', hv', hx⟩ := ihv hlater
              exact ⟨w', hw', v', List.mem_cons_of_mem _ hv', hx⟩

theorem contains_of_mem_commonWindows {ws vs : List Window} {x : Window} {address : UInt64}
    (h : x ∈ commonWindows ws vs) (hx : x.contains address = true) :
    (∃ w ∈ ws, w.contains address = true) ∧ ∃ v ∈ vs, v.contains address = true := by
  obtain ⟨w, hw, v, hv, hcommon⟩ := exists_of_mem_commonWindows h
  obtain ⟨hleft, hright⟩ := Window.exists_common?_iff.mp ⟨x, hcommon, hx⟩
  exact ⟨⟨w, hw, hleft⟩, v, hv, hright⟩

/-- Nothing common is missed. -/
theorem exists_mem_commonWindows {ws vs : List Window} (hws : ws.Pairwise Window.Before)
    (hvs : vs.Pairwise Window.Before) {w v : Window} {address : UInt64} (hw : w ∈ ws) (hv : v ∈ vs)
    (hleft : w.contains address = true) (hright : v.contains address = true) :
    ∃ x ∈ commonWindows ws vs, x.contains address = true := by
  induction ws generalizing vs with
  | nil => cases hw
  | cons first ws ihw =>
      induction vs with
      | nil => cases hv
      | cons other vs ihv =>
          obtain ⟨hfirst, hws'⟩ := List.pairwise_cons.mp hws
          obtain ⟨hother, hvs'⟩ := List.pairwise_cons.mp hvs
          have hin := Window.contains_iff.mp hleft
          have hin' := Window.contains_iff.mp hright
          rw [commonWindows_cons_cons]
          have hlater : (∃ x ∈ if first.stop ≤ other.stop then commonWindows ws (other :: vs)
              else commonWindows (first :: ws) vs, x.contains address = true) →
              ∃ x ∈ (first.common? other).toList ++ if first.stop ≤ other.stop
                then commonWindows ws (other :: vs) else commonWindows (first :: ws) vs,
                x.contains address = true := by
            rintro ⟨x, hx, hcontains⟩
            exact ⟨x, List.mem_append_right _ hx, hcontains⟩
          rcases List.mem_cons.mp hw with rfl | hwmem
          · rcases List.mem_cons.mp hv with rfl | hvmem
            · obtain ⟨x, hx, hcontains⟩ := Window.exists_common?_iff.mpr ⟨hleft, hright⟩
              exact ⟨x, List.mem_append_left _ (Option.mem_toList.mpr hx), hcontains⟩
            · refine hlater ?_
              have hstop : ¬ w.stop ≤ other.stop := by
                have hgap : other.stop < v.base := hother v hvmem
                simp only [UInt64.le_iff_toNat_le, UInt64.lt_iff_toNat_lt] at *
                omega
              rw [if_neg hstop]
              exact ihv hvs' hvmem
          · refine hlater ?_
            split
            · exact ihw hws' hvs hwmem hv
            · rename_i hstop
              rcases List.mem_cons.mp hv with rfl | hvmem
              · have hgap : first.stop < w.base := hfirst w hwmem
                simp only [UInt64.le_iff_toNat_le, UInt64.lt_iff_toNat_lt] at *
                omega
              · exact ihv hvs' hvmem

/-- What is found is in order. -/
theorem commonWindows_pairwise {ws vs : List Window} (hws : ws.Pairwise Window.Before)
    (hvs : vs.Pairwise Window.Before) : (commonWindows ws vs).Pairwise Window.Before := by
  induction ws generalizing vs with
  | nil => exact List.Pairwise.nil
  | cons w ws ihw =>
      induction vs with
      | nil => exact List.Pairwise.nil
      | cons v vs ihv =>
          obtain ⟨hw, hws'⟩ := List.pairwise_cons.mp hws
          obtain ⟨hv, hvs'⟩ := List.pairwise_cons.mp hvs
          rw [commonWindows_cons_cons, List.pairwise_append]
          refine ⟨?_, ?_, fun x hx y hy => ?_⟩
          · cases w.common? v with
            | none => exact List.Pairwise.nil
            | some x => exact List.pairwise_singleton _ _
          · split
            · exact ihw hws' hvs
            · exact ihv hvs'
          · have hbefore := Window.stop_le_of_common? (Option.mem_toList.mp hx)
            rw [Window.Before]
            split at hy
            · obtain ⟨w', hw', v', _, hcommon⟩ := exists_of_mem_commonWindows hy
              have hgap : w.stop < w'.base := hw w' hw'
              exact Std.lt_of_le_of_lt hbefore.1
                (Std.lt_of_lt_of_le hgap (Window.base_le_of_common? hcommon).1)
            · obtain ⟨w', _, v', hv', hcommon⟩ := exists_of_mem_commonWindows hy
              have hgap : v.stop < v'.base := hv v' hv'
              exact Std.lt_of_le_of_lt hbefore.2
                (Std.lt_of_lt_of_le hgap (Window.base_le_of_common? hcommon).2)

end Walk

section Order

variable {w v : Window} {ws vs : List Window}

theorem base_le_of_contains (hws : (w :: ws).Pairwise Window.Before) {x : Window}
    {address : UInt64} (hx : x ∈ w :: ws) (hcontains : x.contains address = true) :
    w.base ≤ address := by
  have hin := (Window.contains_iff.mp hcontains).1
  rcases List.mem_cons.mp hx with rfl | hmem
  · exact hin
  · have hgap : w.stop < x.base := (List.pairwise_cons.mp hws).1 x hmem
    exact Std.le_trans w.base_le_stop (Std.le_trans (Std.le_of_lt hgap) hin)

theorem stop_lt_of_contains (hws : (w :: ws).Pairwise Window.Before) {x : Window}
    {address : UInt64} (hx : x ∈ ws) (hcontains : x.contains address = true) :
    w.stop < address := by
  have hgap : w.stop < x.base := (List.pairwise_cons.mp hws).1 x hx
  exact Std.lt_of_lt_of_le hgap (Window.contains_iff.mp hcontains).1

/-- A window that begins with the first of a list, and has no address that the list has not, stops
no later. -/
theorem stop_le_of_forall_contains (hws : (w :: ws).Pairwise Window.Before) (hw : w.Proper)
    (hbase : v.base = w.base) (h : ∀ address, v.contains address = true →
      ∃ x ∈ w :: ws, x.contains address = true) : v.stop ≤ w.stop := by
  refine UInt64.not_lt.mp fun hlt => ?_
  have hin : v.contains w.stop = true :=
    Window.contains_iff.mpr ⟨hbase ▸ Std.le_of_lt hw.1, hlt⟩
  obtain ⟨x, hx, hcontains⟩ := h _ hin
  rcases List.mem_cons.mp hx with rfl | hmem
  · exact UInt64.lt_irrefl _ (Window.contains_iff.mp hcontains).2
  · exact UInt64.lt_irrefl _ (stop_lt_of_contains hws hmem hcontains)

theorem exists_contains_tail (hws : (w :: ws).Pairwise Window.Before) {address : UInt64}
    (hin : ∃ x ∈ ws, x.contains address = true)
    (h : ∃ y ∈ w :: vs, y.contains address = true) : ∃ y ∈ vs, y.contains address = true := by
  obtain ⟨x, hx, hcontains⟩ := hin
  obtain ⟨y, hy, hcontains'⟩ := h
  rcases List.mem_cons.mp hy with rfl | hmem
  · have hbefore := (Window.contains_iff.mp hcontains').2
    exact absurd (Std.lt_trans hbefore (stop_lt_of_contains hws hx hcontains))
      (UInt64.lt_irrefl _)
  · exact ⟨y, hmem, hcontains'⟩

/-- Proper windows in order are determined by their addresses. -/
theorem eq_of_contains_iff {ws vs : List Window} (hws : ws.Pairwise Window.Before)
    (hvs : vs.Pairwise Window.Before) (hws' : ∀ w ∈ ws, w.Proper) (hvs' : ∀ v ∈ vs, v.Proper)
    (h : ∀ address, (∃ w ∈ ws, w.contains address = true) ↔ ∃ v ∈ vs, v.contains address = true) :
    ws = vs := by
  induction ws generalizing vs with
  | nil =>
      cases vs with
      | nil => rfl
      | cons v vs =>
          obtain ⟨w, hw, _⟩ := (h v.base).mpr
            ⟨v, List.mem_cons_self, (hvs' v List.mem_cons_self).contains_base⟩
          cases hw
  | cons w ws ih =>
      have hw := hws' w List.mem_cons_self
      cases vs with
      | nil =>
          obtain ⟨v, hv, _⟩ := (h w.base).mp ⟨w, List.mem_cons_self, hw.contains_base⟩
          cases hv
      | cons v vs =>
          have hv := hvs' v List.mem_cons_self
          have hbase : w.base = v.base := by
            obtain ⟨y, hy, hcontains⟩ := (h w.base).mp ⟨w, List.mem_cons_self, hw.contains_base⟩
            obtain ⟨x, hx, hcontains'⟩ := (h v.base).mpr ⟨v, List.mem_cons_self, hv.contains_base⟩
            exact Std.le_antisymm (base_le_of_contains hws hx hcontains')
              (base_le_of_contains hvs hy hcontains)
          have hstop : w.stop = v.stop := Std.le_antisymm
            (stop_le_of_forall_contains hvs hv hbase fun address hin =>
              (h address).mp ⟨w, List.mem_cons_self, hin⟩)
            (stop_le_of_forall_contains hws hw hbase.symm fun address hin =>
              (h address).mpr ⟨v, List.mem_cons_self, hin⟩)
          obtain rfl := hw.eq hv hbase hstop
          rw [ih (List.pairwise_cons.mp hws).2 (List.pairwise_cons.mp hvs).2
            (fun x hx => hws' x (List.mem_cons_of_mem _ hx))
            (fun y hy => hvs' y (List.mem_cons_of_mem _ hy)) fun address => ?_]
          constructor
          · rintro ⟨x, hx, hcontains⟩
            exact exists_contains_tail hws ⟨x, hx, hcontains⟩
              ((h address).mp ⟨x, List.mem_cons_of_mem _ hx, hcontains⟩)
          · rintro ⟨y, hy, hcontains⟩
            exact exists_contains_tail hvs ⟨y, hy, hcontains⟩
              ((h address).mpr ⟨y, List.mem_cons_of_mem _ hy, hcontains⟩)

end Order

section Normal

/-! What is put into order and joined is separated. -/

theorem Window.precedes_iff {v w : Window} :
    v.precedes w = true ↔ v.base < w.base ∨ v.base = w.base ∧ v.size ≤ w.size := by
  rw [precedes, Bool.or_eq_true, Bool.and_eq_true, decide_eq_true_iff, beq_iff_eq,
    decide_eq_true_iff]

theorem Window.base_le_of_precedes {v w : Window} (h : v.precedes w = true) : v.base ≤ w.base := by
  rcases precedes_iff.mp h with hlt | ⟨heq, _⟩
  · exact Std.le_of_lt hlt
  · exact heq ▸ UInt64.le_refl _

theorem Window.precedes_trans {v w x : Window} (h : v.precedes w = true)
    (h' : w.precedes x = true) : v.precedes x = true := by
  rw [precedes_iff] at *
  simp only [UInt64.lt_iff_toNat_lt, UInt64.le_iff_toNat_le, ← UInt64.toNat_inj] at *
  omega

theorem Window.precedes_total (v w : Window) : (v.precedes w || w.precedes v) = true := by
  rw [Bool.or_eq_true, precedes_iff, precedes_iff]
  simp only [UInt64.lt_iff_toNat_lt, UInt64.le_iff_toNat_le, ← UInt64.toNat_inj]
  omega

theorem pairwise_orderWindows (ws : List Window) :
    (orderWindows ws).Pairwise fun v w => v.precedes w = true := by
  apply List.pairwise_mergeSort
  · exact fun _ _ _ => Window.precedes_trans
  · exact Window.precedes_total

theorem pairwise_base_orderWindows (ws : List Window) :
    (orderWindows ws).Pairwise fun v w => v.base ≤ w.base :=
  (pairwise_orderWindows ws).imp Window.base_le_of_precedes

theorem joinFrom_spec {last : Window} {ws : List Window} (hlast : ∀ w ∈ ws, last.base ≤ w.base)
    (h : ws.Pairwise fun v x => v.base ≤ x.base) :
    (joinFrom last ws).Pairwise Window.Before ∧ ∀ x ∈ joinFrom last ws, last.base ≤ x.base := by
  induction ws generalizing last with
  | nil =>
      refine ⟨List.pairwise_singleton _ _, fun x hx => ?_⟩
      rw [List.mem_singleton.mp hx]
      exact UInt64.le_refl _
  | cons w rest ih =>
      obtain ⟨hfirst, hrest⟩ := List.pairwise_cons.mp h
      rw [joinFrom]
      split
      · exact ih (fun v hv => hlast v (List.mem_cons_of_mem _ hv)) hrest
      · rename_i hgap
        obtain ⟨hbefore, hbase⟩ := ih hfirst hrest
        have hstop : ∀ x ∈ joinFrom w rest, last.stop < x.base := fun x hx =>
          Std.lt_of_lt_of_le (UInt64.not_le.mp hgap) (hbase x hx)
        refine ⟨List.pairwise_cons.mpr ⟨hstop, hbefore⟩, fun x hx => ?_⟩
        rcases List.mem_cons.mp hx with rfl | hmem
        · exact UInt64.le_refl _
        · exact UInt64.le_trans (hlast w List.mem_cons_self) (hbase x hmem)

end Normal

namespace WindowSet

variable {s t : WindowSet}

/-- Every window stops before the next one begins. -/
def Separated (s : WindowSet) : Prop :=
  s.windows.Pairwise Window.Before

/-- What windows are put into order and joined into is separated. -/
theorem separated_ofList (ws : List Window) : (ofList ws).Separated := by
  rw [Separated, ofList]
  cases hsorted : orderWindows ws with
  | nil => exact .nil
  | cons w rest =>
      have hordered := pairwise_base_orderWindows ws
      rw [hsorted, List.pairwise_cons] at hordered
      exact (joinFrom_spec hordered.1 hordered.2).1

theorem ofList_singleton {w : Window} (h : 0 < w.size) : ofList [w] = ⟨[w]⟩ := by
  have hfilter : [w].filter (fun v => 0 < v.size) = [w] :=
    List.filter_cons_of_pos (decide_eq_true h)
  rw [ofList, orderWindows, hfilter, List.mergeSort_singleton]
  rfl

/-- Every window stops before the next one begins, is not empty, and says by its size where it
stops. -/
def Regular (s : WindowSet) : Prop :=
  s.Separated ∧ ∀ w ∈ s.windows, w.Proper

theorem contains_iff {address : UInt64} :
    s.contains address = true ↔ ∃ w ∈ s.windows, w.contains address = true :=
  List.any_eq_true

theorem contains_of_intersect {address : UInt64} (h : (s.intersect t).contains address = true) :
    s.contains address = true ∧ t.contains address = true := by
  obtain ⟨x, hx, hcontains⟩ := contains_iff.mp h
  rw [contains_iff, contains_iff]
  exact contains_of_mem_commonWindows hx hcontains

/-- The intersection has the common addresses. -/
theorem contains_intersect (hs : s.Separated) (ht : t.Separated) {address : UInt64} :
    (s.intersect t).contains address = true ↔
      s.contains address = true ∧ t.contains address = true := by
  refine ⟨contains_of_intersect, fun ⟨hleft, hright⟩ => ?_⟩
  obtain ⟨w, hw, hw'⟩ := contains_iff.mp hleft
  obtain ⟨v, hv, hv'⟩ := contains_iff.mp hright
  exact contains_iff.mpr (exists_mem_commonWindows hs ht hw hv hw' hv')

theorem regular_intersect (hs : s.Separated) (ht : t.Separated) : (s.intersect t).Regular := by
  refine ⟨commonWindows_pairwise hs ht, fun x hx => ?_⟩
  obtain ⟨_, _, _, _, hcommon⟩ := exists_of_mem_commonWindows hx
  exact (Window.common?_eq_some hcommon).2.2

/-- Two regular sets with the same addresses are equal. -/
theorem Regular.ext_contains (hs : s.Regular) (ht : t.Regular)
    (h : ∀ address, s.contains address = t.contains address) : s = t := by
  have hwindows : s.windows = t.windows :=
    eq_of_contains_iff hs.1 ht.1 hs.2 ht.2 fun address => by
      rw [← contains_iff, ← contains_iff, h]
  cases s
  cases t
  exact congrArg WindowSet.mk hwindows

/-- A set is its intersection with any set that has all its addresses, on either side. -/
theorem Regular.intersect_eq (hs : s.Regular) (ht : t.Separated)
    (h : ∀ address, s.contains address = true → t.contains address = true) :
    s.intersect t = s ∧ t.intersect s = s := by
  constructor
  · refine (regular_intersect hs.1 ht).ext_contains hs fun address => ?_
    rw [Bool.eq_iff_iff, contains_intersect hs.1 ht]
    exact and_iff_left_of_imp (h address)
  · refine (regular_intersect ht hs.1).ext_contains hs fun address => ?_
    rw [Bool.eq_iff_iff, contains_intersect ht hs.1]
    exact and_iff_right_of_imp (h address)

end WindowSet

end Negotiation
