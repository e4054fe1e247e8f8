import Negotiation.Proofs.Meet

/-!
How windows become a set.

A set that is made of windows has their addresses and no others (`WindowSet.contains_ofList`), in
whatever order they come (`WindowSet.ofList_eq_of_perm`), and there is a gap between each of its
windows and the next.  No window is empty, with one exception: windows that begin at the last address
stop there as well, and where several of them meet they are joined to one that has no size
(`WindowSet.normal_ofList_iff`).  Every difference that is taken on the way is taken from the larger
number (`WindowSet.ofList?_eq`, `WindowSet.intersect?_eq`).
-/

namespace Negotiation

namespace Window

variable {v w : Window}

/-- The last address, at which every window has stopped. -/
def limit : UInt64 :=
  UInt64.ofNat lastAddress

/-- The window that begins at the last address and has no size. -/
def bare : Window := ⟨limit, 0⟩

/-- The window begins at the last address and is not empty. -/
def AtLimit (w : Window) : Prop :=
  0 < w.size ∧ w.base = limit

instance (w : Window) : Decidable w.AtLimit :=
  inferInstanceAs (Decidable (_ ∧ _))

/-- The window from where the first begins up to where the last of the two stops. -/
def joined (v w : Window) : Window :=
  upTo v.base (max v.stop w.stop)

theorem limit_toNat : limit.toNat = lastAddress := rfl

theorem lastAddress_add_one : lastAddress + 1 = UInt64.size := rfl

theorem toNat_le_lastAddress (address : UInt64) : address.toNat ≤ lastAddress :=
  Nat.le_sub_one_of_lt address.toNat_lt

theorem le_limit (address : UInt64) : address ≤ limit :=
  UInt64.le_iff_toNat_le.mpr (toNat_le_lastAddress address)

theorem base_lt_limit (h : w.base ≠ limit) : w.base < limit :=
  Std.lt_of_le_of_ne (le_limit w.base) h

theorem stop_of_base_eq_limit (h : w.base = limit) : w.stop = limit :=
  Std.le_antisymm (le_limit w.stop) (h ▸ w.base_le_stop)

theorem base_lt_stop (hsize : 0 < w.size) (hbase : w.base < limit) : w.base < w.stop := by
  rw [UInt64.lt_iff_toNat_lt] at *
  rw [stop_toNat]
  rw [limit_toNat] at hbase
  have hpos : 0 < w.size.toNat := hsize
  omega

theorem stop_of_size_eq_zero (h : w.size = 0) : w.stop = w.base := by
  refine UInt64.toNat.inj ?_
  rw [stop_toNat, h]
  exact Nat.min_eq_left (toNat_le_lastAddress w.base)

theorem size_pos_of_ne_zero (h : w.size ≠ 0) : 0 < w.size :=
  Std.lt_of_le_of_ne UInt64.zero_le (Ne.symm h)

theorem bare_ne (h : 0 < w.size) : bare ≠ w := by
  rintro rfl
  exact UInt64.lt_irrefl _ h

theorem Proper.size_pos (h : w.Proper) : 0 < w.size := by
  refine size_pos_of_ne_zero fun hzero => ?_
  have hlt := h.1
  rw [stop_of_size_eq_zero hzero] at hlt
  exact UInt64.lt_irrefl _ hlt

theorem base_le_joined (v w : Window) : v.base ≤ max v.stop w.stop :=
  Std.le_trans v.base_le_stop Std.left_le_max

theorem joined_stop : (v.joined w).stop = max v.stop w.stop :=
  upTo_stop (base_le_joined v w)

/-- Windows that overlap or touch are joined without a change to their addresses. -/
theorem contains_joined (hbase : v.base ≤ w.base) (htouch : w.base ≤ v.stop) {address : UInt64} :
    (v.joined w).contains address = true ↔
      v.contains address = true ∨ w.contains address = true := by
  rw [contains_iff, contains_iff, contains_iff, joined_stop]
  change v.base ≤ address ∧ _ ↔ _
  simp only [UInt64.le_iff_toNat_le, UInt64.lt_iff_toNat_lt, UInt64.toNat_max] at *
  omega

theorem joined_stop_lt_iff {address : UInt64} :
    (v.joined w).stop < address ↔ v.stop < address ∧ w.stop < address := by
  rw [joined_stop]
  simp only [UInt64.lt_iff_toNat_lt, UInt64.toNat_max]
  omega

theorem joined_of_base_eq_limit (h : v.base = limit) : v.joined w = bare := by
  have hmax : max v.stop w.stop = limit := by
    rw [stop_of_base_eq_limit h]
    exact Std.LawfulOrderLeftLeaningMax.max_eq_left _ _ (le_limit w.stop)
  rw [joined, hmax, h]
  rfl

theorem joined_size_pos (hsize : 0 < v.size) (hbase : v.base < limit) : 0 < (v.joined w).size := by
  have hlt : v.base < max v.stop w.stop :=
    Std.lt_of_lt_of_le (base_lt_stop hsize hbase) Std.left_le_max
  have hproper : (v.joined w).Proper := by
    rw [Proper, joined_stop]
    exact ⟨hlt, rfl⟩
  exact hproper.size_pos

theorem precedes_antisymm (h : v.precedes w = true) (h' : w.precedes v = true) : v = w := by
  rw [precedes_iff] at h h'
  obtain ⟨base, size⟩ := v
  obtain ⟨base', size'⟩ := w
  simp only [UInt64.lt_iff_toNat_lt, UInt64.le_iff_toNat_le, ← UInt64.toNat_inj,
    mk.injEq] at h h' ⊢
  omega

end Window

section Sorting

variable {ws vs : List Window}

theorem orderWindows_perm (ws : List Window) :
    (orderWindows ws).Perm (ws.filter fun w => 0 < w.size) :=
  List.mergeSort_perm _ _

/-- There is one order for given windows. -/
theorem orderWindows_eq (hperm : (ws.filter fun w => 0 < w.size).Perm vs)
    (hvs : vs.Pairwise fun v w => v.precedes w = true) : orderWindows ws = vs := by
  apply List.Perm.eq_of_pairwise (fun _ _ _ _ => Window.precedes_antisymm)
  · exact pairwise_orderWindows ws
  · exact hvs
  · exact (orderWindows_perm ws).trans hperm

theorem orderWindows_eq_of_perm (h : ws.Perm vs) : orderWindows ws = orderWindows vs := by
  apply orderWindows_eq
  · exact (h.filter _).trans (orderWindows_perm vs).symm
  · exact pairwise_orderWindows vs

theorem orderWindows_eq_self (h : ws.Pairwise fun v w => v.precedes w = true)
    (hsizes : ∀ w ∈ ws, 0 < w.size) : orderWindows ws = ws := by
  have hfilter : ws.filter (fun w => 0 < w.size) = ws :=
    List.filter_eq_self.mpr fun w hw => decide_eq_true (hsizes w hw)
  rw [orderWindows, hfilter]
  exact List.mergeSort_of_pairwise h

end Sorting

section Joining

/-! Windows in order of their bases are gone through once. -/

variable {last w : Window} {ws vs : List Window}

theorem joinFrom_cons (last w : Window) (ws : List Window) : joinFrom last (w :: ws) =
    if w.base ≤ last.stop then joinFrom (last.joined w) ws else last :: joinFrom w ws :=
  rfl

/-- Joining neither adds an address nor loses one. -/
theorem exists_mem_joinFrom_iff (hlast : ∀ w ∈ ws, last.base ≤ w.base)
    (h : ws.Pairwise fun v x => v.base ≤ x.base) {address : UInt64} :
    (∃ x ∈ joinFrom last ws, x.contains address = true) ↔
      ∃ x ∈ last :: ws, x.contains address = true := by
  induction ws generalizing last with
  | nil => rfl
  | cons w rest ih =>
      obtain ⟨hfirst, hrest⟩ := List.pairwise_cons.mp h
      obtain ⟨hw, hlater⟩ := List.forall_mem_cons.mp hlast
      rw [joinFrom_cons]
      split
      · rename_i htouch
        have hjoined : ∀ v ∈ rest, (last.joined w).base ≤ v.base := hlater
        rw [ih hjoined hrest]
        simp only [List.mem_cons, exists_eq_or_imp, Window.contains_joined hw htouch, or_assoc]
      · simp only [List.mem_cons, exists_eq_or_imp] at ih ⊢
        rw [ih hfirst hrest]

/-- Windows with gaps between them are left as they are. -/
theorem joinFrom_of_pairwise (h : (last :: ws).Pairwise Window.Before) :
    joinFrom last ws = last :: ws := by
  induction ws generalizing last with
  | nil => rfl
  | cons w rest ih =>
      obtain ⟨hfirst, hrest⟩ := List.pairwise_cons.mp h
      have hgap : last.stop < w.base := hfirst w List.mem_cons_self
      rw [joinFrom_cons, if_neg (UInt64.not_le.mpr hgap), ih hrest]

/-! ### Sizes -/

/-- A window is joined to one that is not empty, except at the last address. -/
theorem size_of_mem_joinFrom (hlast : 0 < last.size ∨ last = Window.bare)
    (hws : ∀ w ∈ ws, 0 < w.size) : ∀ x ∈ joinFrom last ws, 0 < x.size ∨ x = Window.bare := by
  induction ws generalizing last with
  | nil =>
      intro x hx
      rw [List.mem_singleton.mp hx]
      exact hlast
  | cons w rest ih =>
      obtain ⟨hw, hrest⟩ := List.forall_mem_cons.mp hws
      rw [joinFrom_cons]
      split
      · refine ih ?_ hrest
        by_cases hbase : last.base = Window.limit
        · exact Or.inr (Window.joined_of_base_eq_limit hbase)
        · refine Or.inl (Window.joined_size_pos ?_ (Window.base_lt_limit hbase))
          refine hlast.resolve_right fun hbare => hbase ?_
          rw [hbare]
          rfl
      · exact List.forall_mem_cons.mpr ⟨hlast, ih (Or.inl hw) hrest⟩

/-- Several windows that are not empty begin at the last address, and none that begins before it
reaches it. -/
structure Crowded (ws : List Window) : Prop where
  several : 2 ≤ ws.countP fun w => w.AtLimit
  apart : ∀ w ∈ ws, w.base < Window.limit → w.stop < Window.limit

theorem crowded_cons_iff (h : w.base < Window.limit) :
    Crowded (w :: ws) ↔ w.stop < Window.limit ∧ Crowded ws := by
  have hcount : (w :: ws).countP (fun x => x.AtLimit) = ws.countP fun x => x.AtLimit := by
    refine List.countP_cons_of_neg fun hin => ?_
    rw [(of_decide_eq_true hin).2] at h
    exact UInt64.lt_irrefl _ h
  constructor
  · rintro ⟨hseveral, hapart⟩
    obtain ⟨hw, hrest⟩ := List.forall_mem_cons.mp hapart
    exact ⟨hw h, hcount ▸ hseveral, hrest⟩
  · rintro ⟨hw, hseveral, hapart⟩
    exact ⟨hcount ▸ hseveral, List.forall_mem_cons.mpr ⟨fun _ => hw, hapart⟩⟩

theorem joinFrom_bare (hws : ∀ w ∈ ws, w.base = Window.limit) :
    joinFrom Window.bare ws = [Window.bare] := by
  induction ws with
  | nil => rfl
  | cons w rest ih =>
      obtain ⟨hw, hrest⟩ := List.forall_mem_cons.mp hws
      have htouch : w.base ≤ Window.bare.stop := by
        rw [hw]
        exact Window.bare.base_le_stop
      rw [joinFrom_cons, if_pos htouch, Window.joined_of_base_eq_limit rfl, ih hrest]

/-- At the last address all windows are joined. -/
theorem bare_mem_joinFrom_of_base_eq_limit (hbase : last.base = Window.limit)
    (hws : ∀ v ∈ w :: ws, v.base = Window.limit) : Window.bare ∈ joinFrom last (w :: ws) := by
  obtain ⟨hw, hrest⟩ := List.forall_mem_cons.mp hws
  have htouch : w.base ≤ last.stop := by
    rw [hw, Window.stop_of_base_eq_limit hbase]
    exact UInt64.le_refl _
  rw [joinFrom_cons, if_pos htouch, Window.joined_of_base_eq_limit hbase, joinFrom_bare hrest]
  exact List.mem_singleton_self _

theorem crowded_of_base_eq_limit (hsizes : ∀ v ∈ last :: w :: ws, 0 < v.size)
    (hbases : ∀ v ∈ last :: w :: ws, v.base = Window.limit) : Crowded (last :: w :: ws) := by
  constructor
  · have hall : (last :: w :: ws).countP (fun x => x.AtLimit) = (last :: w :: ws).length :=
      List.countP_eq_length.mpr fun x hx => decide_eq_true ⟨hsizes x hx, hbases x hx⟩
    rw [hall]
    exact Nat.le_add_left 2 ws.length
  · intro x hx hlt
    rw [hbases x hx] at hlt
    exact absurd hlt (UInt64.lt_irrefl _)

/-- A window without a size is left if and only if windows crowd at the last address. -/
theorem bare_mem_joinFrom_iff (hlast : 0 < last.size) (hws : ∀ w ∈ ws, 0 < w.size)
    (h : (last :: ws).Pairwise fun v x => v.base ≤ x.base) :
    Window.bare ∈ joinFrom last ws ↔ Crowded (last :: ws) := by
  induction ws generalizing last with
  | nil =>
      constructor
      · exact fun hmem => absurd (List.mem_singleton.mp hmem) (Window.bare_ne hlast)
      · rintro ⟨hseveral, -⟩
        have hfew : [last].countP (fun x => x.AtLimit) ≤ 1 := List.countP_le_length
        omega
  | cons w rest ih =>
      obtain ⟨hfirst, hordered⟩ := List.pairwise_cons.mp h
      obtain ⟨hfirst', hrest⟩ := List.pairwise_cons.mp hordered
      obtain ⟨hw, hsizes⟩ := List.forall_mem_cons.mp hws
      by_cases hbase : last.base = Window.limit
      · -- all windows begin at the last address
        have hbases : ∀ v ∈ w :: rest, v.base = Window.limit := fun v hv =>
          Std.le_antisymm (Window.le_limit v.base) (hbase ▸ hfirst v hv)
        exact iff_of_true (bare_mem_joinFrom_of_base_eq_limit hbase hbases)
          (crowded_of_base_eq_limit (List.forall_mem_cons.mpr ⟨hlast, hws⟩)
            (List.forall_mem_cons.mpr ⟨hbase, hbases⟩))
      · have hlt := Window.base_lt_limit hbase
        rw [joinFrom_cons, crowded_cons_iff hlt]
        split
        · rename_i htouch
          have hjoined : (last.joined w :: rest).Pairwise fun v x => v.base ≤ x.base :=
            List.pairwise_cons.mpr ⟨fun v hv => hfirst v (List.mem_cons_of_mem _ hv), hrest⟩
          have hlt' : (last.joined w).base < Window.limit := hlt
          rw [ih (Window.joined_size_pos hlast hlt) hsizes hjoined, crowded_cons_iff hlt',
            Window.joined_stop_lt_iff]
          by_cases hbase' : w.base = Window.limit
          · -- the first window reaches the last address
            have hreach : ¬ last.stop < Window.limit := UInt64.not_lt.mpr (hbase' ▸ htouch)
            exact iff_of_false (fun hno => hreach hno.1.1) fun hno => hreach hno.1
          · rw [crowded_cons_iff (Window.base_lt_limit hbase'), and_assoc]
        · rename_i hgap
          have hstop : last.stop < Window.limit :=
            Std.lt_of_lt_of_le (UInt64.not_le.mp hgap) (Window.le_limit w.base)
          rw [List.mem_cons, ih hw hsizes hordered, or_iff_right (Window.bare_ne hlast),
            and_iff_right hstop]

theorem Crowded.perm (h : Crowded ws) (hperm : ws.Perm vs) : Crowded vs :=
  ⟨hperm.countP_eq _ ▸ h.several, fun w hw => h.apart w (hperm.mem_iff.mpr hw)⟩

/-- Empty windows do not matter. -/
theorem crowded_filter_iff : Crowded (ws.filter fun w => 0 < w.size) ↔ Crowded ws := by
  have hcount : (ws.filter fun w => 0 < w.size).countP (fun w => w.AtLimit) =
      ws.countP fun w => w.AtLimit := by
    rw [List.countP_filter]
    refine List.countP_congr fun _ _ => ?_
    rw [Bool.and_eq_true, decide_eq_true_iff, decide_eq_true_iff]
    exact and_iff_left_of_imp And.left
  constructor
  · rintro ⟨hseveral, hapart⟩
    refine ⟨hcount ▸ hseveral, fun w hw hlt => ?_⟩
    by_cases hsize : w.size = 0
    · rw [Window.stop_of_size_eq_zero hsize]
      exact hlt
    · exact hapart w
        (List.mem_filter.mpr ⟨hw, decide_eq_true (Window.size_pos_of_ne_zero hsize)⟩) hlt
  · rintro ⟨hseveral, hapart⟩
    exact ⟨hcount ▸ hseveral, fun w hw => hapart w (List.mem_filter.mp hw).1⟩

end Joining

namespace WindowSet

variable {s t : WindowSet} {ws vs : List Window}

/-- The windows ascend, each begins after the one before it has stopped, and none is empty. -/
structure Normal (s : WindowSet) : Prop where
  ascending : s.windows.Pairwise fun v w => v.base < w.base ∧ v.stop < w.base
  sized : ∀ w ∈ s.windows, 0 < w.size

theorem Separated.ascending (h : s.Separated) :
    s.windows.Pairwise fun v w => v.base < w.base ∧ v.stop < w.base :=
  List.Pairwise.imp (fun {v _} hgap => ⟨Std.lt_of_le_of_lt v.base_le_stop hgap, hgap⟩) h

theorem Normal.separated (h : s.Normal) : s.Separated :=
  h.ascending.imp And.right

theorem Regular.normal (h : s.Regular) : s.Normal :=
  ⟨h.1.ascending, fun w hw => (h.2 w hw).size_pos⟩

/-- The order in which windows come does not matter. -/
theorem ofList_eq_of_perm (h : ws.Perm vs) : ofList vs = ofList ws := by
  rw [ofList, ofList, orderWindows_eq_of_perm h]

/-- A set has the addresses of the windows that it is made of. -/
theorem contains_ofList {address : UInt64} :
    (ofList ws).contains address = true ↔ ∃ w ∈ ws, w.contains address = true := by
  have hsorted : (∃ w ∈ orderWindows ws, w.contains address = true) ↔
      ∃ w ∈ ws, w.contains address = true := by
    simp only [mem_orderWindows]
    constructor
    · rintro ⟨w, ⟨hw, -⟩, hin⟩
      exact ⟨w, hw, hin⟩
    · rintro ⟨w, hw, hin⟩
      refine ⟨w, ⟨hw, Window.size_pos_of_ne_zero fun hzero => ?_⟩, hin⟩
      obtain ⟨hbase, hstop⟩ := Window.contains_iff.mp hin
      rw [Window.stop_of_size_eq_zero hzero] at hstop
      exact UInt64.lt_irrefl _ (Std.lt_of_le_of_lt hbase hstop)
  rw [contains_iff, ofList, ← hsorted]
  have hordered := pairwise_base_orderWindows ws
  generalize orderWindows ws = sorted at hordered
  cases sorted with
  | nil => rfl
  | cons w rest =>
      obtain ⟨hfirst, hrest⟩ := List.pairwise_cons.mp hordered
      exact exists_mem_joinFrom_iff hfirst hrest

theorem size_of_mem_ofList : ∀ w ∈ (ofList ws).windows, 0 < w.size ∨ w = Window.bare := by
  have hsizes : ∀ w ∈ orderWindows ws, 0 < w.size :=
    fun w hw => (mem_orderWindows.mp hw).2
  rw [ofList]
  generalize orderWindows ws = sorted at hsizes
  cases sorted with
  | nil => exact fun w hw => absurd hw List.not_mem_nil
  | cons w rest =>
      obtain ⟨hw, hrest⟩ := List.forall_mem_cons.mp hsizes
      exact size_of_mem_joinFrom (Or.inl hw) hrest

theorem bare_mem_ofList_iff : Window.bare ∈ (ofList ws).windows ↔ Crowded ws := by
  have hcrowded : Crowded (orderWindows ws) ↔ Crowded ws := by
    refine Iff.trans ?_ crowded_filter_iff
    exact ⟨fun h => h.perm (orderWindows_perm ws), fun h => h.perm (orderWindows_perm ws).symm⟩
  have hsizes : ∀ w ∈ orderWindows ws, 0 < w.size :=
    fun w hw => (mem_orderWindows.mp hw).2
  have hordered := pairwise_base_orderWindows ws
  rw [ofList, ← hcrowded]
  generalize orderWindows ws = sorted at hsizes hordered
  cases sorted with
  | nil =>
      refine iff_of_false List.not_mem_nil ?_
      rintro ⟨hseveral, -⟩
      exact absurd hseveral (by decide)
  | cons w rest =>
      obtain ⟨hw, hrest⟩ := List.forall_mem_cons.mp hsizes
      exact bare_mem_joinFrom_iff hw hrest hordered

/-- A set is in normal form unless the windows that it is made of crowd at the last address. -/
theorem normal_ofList_iff : (ofList ws).Normal ↔ ¬ Crowded ws := by
  rw [← bare_mem_ofList_iff]
  constructor
  · exact fun h hbare => UInt64.lt_irrefl _ (h.sized _ hbare)
  · intro h
    refine ⟨(separated_ofList ws).ascending, fun w hw => ?_⟩
    refine (size_of_mem_ofList w hw).resolve_right fun hbare => h ?_
    rw [← hbare]
    exact hw

/-- A set in normal form is made of its own windows. -/
theorem Normal.ofList_windows (h : s.Normal) : ofList s.windows = s := by
  obtain ⟨ws⟩ := s
  have hprecedes : ws.Pairwise fun v w => v.precedes w = true :=
    h.ascending.imp fun hlt => Window.precedes_iff.mpr (Or.inl hlt.1)
  rw [ofList, orderWindows_eq_self hprecedes h.sized]
  cases ws with
  | nil => rfl
  | cons w rest => exact congrArg WindowSet.mk (joinFrom_of_pairwise h.separated)

/-! ### Windows at the last address -/

theorem countP_atLimit_le_one (h : ws.Pairwise Window.Before) :
    ws.countP (fun w => w.AtLimit) ≤ 1 := by
  induction ws with
  | nil => exact Nat.zero_le 1
  | cons w rest ih =>
      obtain ⟨hfirst, hrest⟩ := List.pairwise_cons.mp h
      by_cases hw : w.AtLimit
      · have hnone : rest.countP (fun x => x.AtLimit) = 0 := by
          refine List.countP_eq_zero.mpr fun x hx hin => ?_
          have hgap : w.stop < x.base := hfirst x hx
          rw [Window.stop_of_base_eq_limit hw.2, (of_decide_eq_true hin).2] at hgap
          exact UInt64.lt_irrefl _ hgap
        have hone : (w :: rest).countP (fun x => x.AtLimit) = 0 + 1 :=
          hnone ▸ List.countP_cons_of_pos (decide_eq_true hw)
        exact Nat.le_of_eq hone
      · have hrest' : (w :: rest).countP (fun x => x.AtLimit) = rest.countP fun x => x.AtLimit :=
          List.countP_cons_of_neg fun hin => hw (of_decide_eq_true hin)
        rw [hrest']
        exact ih hrest

theorem Separated.not_crowded (h : s.Separated) : ¬ Crowded s.windows := fun hcrowded =>
  Nat.not_lt.mpr (countP_atLimit_le_one h) hcrowded.several

/-- What begins before the last address has stopped before it if another window begins there. -/
theorem Separated.stop_lt_limit (h : s.Separated) {v w : Window} (hw : w ∈ s.windows)
    (hlimit : w.base = Window.limit) (hv : v ∈ s.windows) (hlt : v.base < Window.limit) :
    v.stop < Window.limit := by
  obtain ⟨before, after, hsplit⟩ := List.append_of_mem hw
  rw [Separated, hsplit, List.pairwise_append] at h
  obtain ⟨-, hafter, hbefore⟩ := h
  rw [hsplit, List.mem_append, List.mem_cons] at hv
  rcases hv with hv | rfl | hv
  · have hgap : v.stop < w.base := hbefore v hv w List.mem_cons_self
    rw [← hlimit]
    exact hgap
  · rw [hlimit] at hlt
    exact absurd hlt (UInt64.lt_irrefl _)
  · have hgap : w.stop < v.base := (List.pairwise_cons.mp hafter).1 v hv
    rw [Window.stop_of_base_eq_limit hlimit] at hgap
    exact absurd (Std.lt_trans hgap hlt) (UInt64.lt_irrefl _)

/-- The windows of two sets crowd if both sets have one at the last address. -/
theorem crowded_append_iff (hs : s.Separated) (ht : t.Separated) :
    Crowded (s.windows ++ t.windows) ↔
      (∃ w ∈ s.windows, w.AtLimit) ∧ ∃ w ∈ t.windows, w.AtLimit := by
  have hexists : ∀ {ws : List Window}, (∃ w ∈ ws, w.AtLimit) ↔
      0 < ws.countP fun w => w.AtLimit := by
    intro ws
    simp only [List.countP_pos_iff, decide_eq_true_eq]
  constructor
  · rintro ⟨hseveral, -⟩
    have hleft := countP_atLimit_le_one hs
    have hright := countP_atLimit_le_one ht
    rw [List.countP_append] at hseveral
    rw [hexists, hexists]
    omega
  · rintro ⟨⟨w, hw, hin⟩, v, hv, hin'⟩
    refine ⟨?_, fun x hx hlt => ?_⟩
    · have hleft := hexists.mp ⟨w, hw, hin⟩
      have hright := hexists.mp ⟨v, hv, hin'⟩
      rw [List.countP_append]
      omega
    · rcases List.mem_append.mp hx with hx | hx
      · exact hs.stop_lt_limit hw hin.2 hx hlt
      · exact ht.stop_lt_limit hv hin'.2 hx hlt

/-- A set is made of its own windows if and only if it is in normal form. -/
theorem ofList_windows_eq_iff : ofList s.windows = s ↔ s.Normal := by
  refine ⟨fun h => ?_, Normal.ofList_windows⟩
  have hseparated : s.Separated := by
    rw [← h]
    exact separated_ofList s.windows
  rw [← h, normal_ofList_iff]
  exact hseparated.not_crowded

theorem contains_union {address : UInt64} : (s.union t).contains address = true ↔
    s.contains address = true ∨ t.contains address = true := by
  rw [union, contains_ofList, contains_iff, contains_iff]
  simp only [List.mem_append, or_and_right, exists_or]

theorem isEmpty_intersect_iff (hs : s.Separated) (ht : t.Separated) :
    (s.intersect t).isEmpty = true ↔
      ¬ ∃ address, s.contains address = true ∧ t.contains address = true := by
  rw [(regular_intersect hs ht).isEmpty_iff]
  simp only [← contains_intersect hs ht, not_exists, Bool.not_eq_true]

end WindowSet

section Differences

/-! The size of a window that is joined, or common to two others, is the difference of two addresses.
Here the walks stop where the second of the two would lie before the first. -/

namespace Window

/-- The window from one address up to another, if their difference can be taken. -/
def upTo? (base stop : UInt64) : Option Window :=
  if base ≤ stop then some (upTo base stop) else none

/-- The common part of two windows, if there is one, with a size that can be taken. -/
def shared? (v w : Window) : Option (List Window) :=
  let base := max v.base w.base
  let stop := min v.stop w.stop
  if base < stop then (upTo? base stop).map ([·]) else some []

theorem upTo?_eq {base stop : UInt64} (h : base ≤ stop) : upTo? base stop = some (upTo base stop) :=
  if_pos h

theorem shared?_eq (v w : Window) : v.shared? w = some (v.common? w).toList := by
  rw [shared?, common?]
  split
  · rename_i hlt
    rw [upTo?_eq (Std.le_of_lt hlt)]
    rfl
  · rfl

end Window

/-- `joinFrom`, as long as differences can be taken. -/
def joinFrom? (last : Window) : List Window → Option (List Window)
  | [] => some [last]
  | w :: rest =>
      if w.base ≤ last.stop then do
        let joined ← Window.upTo? last.base (max last.stop w.stop)
        joinFrom? joined rest
      else (joinFrom? w rest).map (last :: ·)

def joinWindows? : List Window → Option (List Window)
  | [] => some []
  | w :: rest => joinFrom? w rest

def commonWith? (w : Window) (rest : List Window → Option (List Window)) :
    List Window → Option (List Window)
  | [] => some []
  | v :: vs =>
      (w.shared? v).bind fun here =>
        (if w.stop ≤ v.stop then rest (v :: vs) else commonWith? w rest vs).map (here ++ ·)

def commonWindows? : List Window → List Window → Option (List Window)
  | [] => fun _ => some []
  | w :: ws => commonWith? w (commonWindows? ws)

theorem joinFrom?_eq (last : Window) (ws : List Window) :
    joinFrom? last ws = some (joinFrom last ws) := by
  induction ws generalizing last with
  | nil => rfl
  | cons w rest ih =>
      rw [joinFrom?, joinFrom_cons]
      split
      · rw [Window.upTo?_eq (Window.base_le_joined last w)]
        exact ih (last.joined w)
      · rw [ih w]
        rfl

theorem joinWindows?_eq (ws : List Window) : joinWindows? ws = some (joinWindows ws) := by
  cases ws with
  | nil => rfl
  | cons w rest => exact joinFrom?_eq w rest

theorem commonWindows?_eq (ws vs : List Window) :
    commonWindows? ws vs = some (commonWindows ws vs) := by
  induction ws generalizing vs with
  | nil => rfl
  | cons w ws ihw =>
      induction vs with
      | nil => rfl
      | cons v vs ihv =>
          have hlater : (if w.stop ≤ v.stop then commonWindows? ws (v :: vs)
              else commonWindows? (w :: ws) vs) =
              some (if w.stop ≤ v.stop then commonWindows ws (v :: vs)
                else commonWindows (w :: ws) vs) := by
            rw [ihw, ihv]
            exact (apply_ite some _ _ _).symm
          rw [commonWindows_cons_cons]
          change ((w.shared? v).bind fun here =>
            (if w.stop ≤ v.stop then commonWindows? ws (v :: vs)
              else commonWindows? (w :: ws) vs).map (here ++ ·)) = _
          rw [Window.shared?_eq, hlater]
          rfl

end Differences

namespace WindowSet

def ofList? (ws : List Window) : Option WindowSet :=
  (joinWindows? (orderWindows ws)).map mk

def union? (s t : WindowSet) : Option WindowSet :=
  ofList? (s.windows ++ t.windows)

def intersect? (s t : WindowSet) : Option WindowSet :=
  (commonWindows? s.windows t.windows).map mk

theorem ofList?_eq (ws : List Window) : ofList? ws = some (ofList ws) := by
  rw [ofList?, joinWindows?_eq]
  rfl

theorem union?_eq (s t : WindowSet) : s.union? t = some (s.union t) :=
  ofList?_eq _

theorem intersect?_eq (s t : WindowSet) : s.intersect? t = some (s.intersect t) := by
  rw [intersect?, commonWindows?_eq]
  rfl

/-- The algebra of address sets, with their own test for membership.  What windows are made into has
ascending windows with a gap before each next one, has the addresses of the windows and depends on no
order of theirs; it is in normal form, and comes out again when its own windows are made into a set, if
and only if the windows do not crowd at the last address.  The same holds of the union of two such sets,
whose windows crowd only if both have one at the last address.  The intersection is always in normal
form, and it is empty only if no address is in both.  No difference that is taken is negative. -/
theorem algebra_of_windows (ws vs xs ys : List Window) :
    ((ofList ws).windows.Pairwise (fun v w => v.base < w.base ∧ v.stop < w.base) ∧
      (∀ w ∈ (ofList ws).windows, 0 < w.size ∨ w = Window.bare) ∧
      ((ofList ws).Normal ↔ ¬ Crowded ws) ∧
      (∀ address, (ofList ws).contains address = true ↔ ∃ w ∈ ws, w.contains address = true) ∧
      (ws.Perm vs → ofList vs = ofList ws) ∧
      (ofList (ofList ws).windows = ofList ws ↔ ¬ Crowded ws) ∧
      ofList? ws = some (ofList ws)) ∧
    (((ofList xs).union (ofList ys)).windows.Pairwise
        (fun v w => v.base < w.base ∧ v.stop < w.base) ∧
      (((ofList xs).union (ofList ys)).Normal ↔
        ¬ ((∃ w ∈ (ofList xs).windows, w.AtLimit) ∧ ∃ w ∈ (ofList ys).windows, w.AtLimit)) ∧
      (∀ address, ((ofList xs).union (ofList ys)).contains address = true ↔
        (ofList xs).contains address = true ∨ (ofList ys).contains address = true) ∧
      (ofList xs).union? (ofList ys) = some ((ofList xs).union (ofList ys))) ∧
    ((ofList xs).intersect (ofList ys)).Normal ∧
      (∀ address, ((ofList xs).intersect (ofList ys)).contains address = true ↔
        (ofList xs).contains address = true ∧ (ofList ys).contains address = true) ∧
      (((ofList xs).intersect (ofList ys)).isEmpty = true ↔ ¬ ∃ address,
        (ofList xs).contains address = true ∧ (ofList ys).contains address = true) ∧
      (ofList xs).intersect? (ofList ys) = some ((ofList xs).intersect (ofList ys)) := by
  have hx := separated_ofList xs
  have hy := separated_ofList ys
  have hunion : ((ofList xs).union (ofList ys)).Normal ↔
      ¬ ((∃ w ∈ (ofList xs).windows, w.AtLimit) ∧ ∃ w ∈ (ofList ys).windows, w.AtLimit) := by
    rw [← crowded_append_iff hx hy]
    exact normal_ofList_iff
  refine ⟨⟨(separated_ofList ws).ascending, size_of_mem_ofList, normal_ofList_iff,
    fun _ => contains_ofList, ofList_eq_of_perm, ?_, ofList?_eq ws⟩, ⟨?_, hunion,
    fun _ => contains_union, union?_eq _ _⟩, (regular_intersect hx hy).normal,
    fun _ => contains_intersect hx hy, isEmpty_intersect_iff hx hy, intersect?_eq _ _⟩
  · rw [ofList_windows_eq_iff, normal_ofList_iff]
  · exact (separated_ofList _).ascending

/-- Windows that overlap, touch, repeat one another and reach the last address, in two orders. -/
theorem scattered_algebra :
    [⟨8, 8⟩, ⟨0, 8⟩, ⟨Window.limit - 2, 5⟩, ⟨4, 2⟩, ⟨9, 0⟩].Perm
        [⟨0, 8⟩, ⟨4, 2⟩, ⟨8, 8⟩, ⟨9, 0⟩, (⟨Window.limit - 2, 5⟩ : Window)] ∧
      ofList [⟨0, 8⟩, ⟨4, 2⟩, ⟨8, 8⟩, ⟨9, 0⟩, ⟨Window.limit - 2, 5⟩] =
        ofList [⟨8, 8⟩, ⟨0, 8⟩, ⟨Window.limit - 2, 5⟩, ⟨4, 2⟩, ⟨9, 0⟩] ∧
      ofList [⟨8, 8⟩, ⟨0, 8⟩, ⟨Window.limit - 2, 5⟩, ⟨4, 2⟩, ⟨9, 0⟩] =
        ⟨[⟨0, 16⟩, ⟨Window.limit - 2, 5⟩]⟩ ∧
      (ofList [⟨8, 8⟩, ⟨0, 8⟩, ⟨Window.limit - 2, 5⟩, ⟨4, 2⟩, ⟨9, 0⟩]).Normal := by
  have hperm : [⟨8, 8⟩, ⟨0, 8⟩, ⟨Window.limit - 2, 5⟩, ⟨4, 2⟩, ⟨9, 0⟩].Perm
      [⟨0, 8⟩, ⟨4, 2⟩, ⟨8, 8⟩, ⟨9, 0⟩, (⟨Window.limit - 2, 5⟩ : Window)] := by decide
  obtain ⟨⟨-, -, hnormal, -, hsame, -⟩, -⟩ := algebra_of_windows
    [⟨8, 8⟩, ⟨0, 8⟩, ⟨Window.limit - 2, 5⟩, ⟨4, 2⟩, ⟨9, 0⟩]
    [⟨0, 8⟩, ⟨4, 2⟩, ⟨8, 8⟩, ⟨9, 0⟩, ⟨Window.limit - 2, 5⟩] [] []
  have horder : orderWindows [⟨8, 8⟩, ⟨0, 8⟩, ⟨Window.limit - 2, 5⟩, ⟨4, 2⟩, ⟨9, 0⟩] =
      [⟨0, 8⟩, ⟨4, 2⟩, ⟨8, 8⟩, ⟨Window.limit - 2, 5⟩] :=
    orderWindows_eq (by decide) (by decide)
  refine ⟨hperm, hsame hperm, ?_, hnormal.mpr fun hcrowded => ?_⟩
  · rw [ofList, horder]
    rfl
  · exact absurd hcrowded.several (by decide)

/-- Two windows at the last address are joined to one without a size, which is lost when the windows
of the set are made into a set once more. -/
theorem pinched_not_normal :
    (ofList [⟨Window.limit, 1⟩, ⟨Window.limit, 1⟩]).windows = [⟨Window.limit, 0⟩] ∧
      ¬ (∀ w ∈ (ofList [⟨Window.limit, 1⟩, ⟨Window.limit, 1⟩]).windows, 0 < w.size) ∧
      ofList (ofList [⟨Window.limit, 1⟩, ⟨Window.limit, 1⟩]).windows ≠
        ofList [⟨Window.limit, 1⟩, ⟨Window.limit, 1⟩] := by
  have horder : orderWindows [⟨Window.limit, 1⟩, ⟨Window.limit, 1⟩] =
      [⟨Window.limit, 1⟩, ⟨Window.limit, 1⟩] := orderWindows_eq_self (by decide) (by decide)
  have hnone : orderWindows [⟨Window.limit, 0⟩] = [] := orderWindows_eq (by decide) .nil
  have hjoined : ofList [⟨Window.limit, 1⟩, ⟨Window.limit, 1⟩] = ⟨[⟨Window.limit, 0⟩]⟩ := by
    rw [ofList, horder]
    rfl
  rw [hjoined]
  refine ⟨rfl, by decide, ?_⟩
  rw [ofList, hnone]
  decide

end WindowSet

end Negotiation
