import Negotiation.Proofs.Absorption

/-!
The meet of constraints.

A value that is still open stands for what it may turn out to be (`Value.Allows`).  What satisfies
two values allows what both allow, and there is such a value only if they allow something in common
(`Value.exists_intersect?_iff`).  How it is written depends on neither the order nor the grouping in
which values are met (`Value.intersect?_comm`, `Value.intersect?_assoc`): a set and a number select
their members by what the others admit, and what is left of an interval is an interval.
-/

namespace Negotiation

namespace NumberSet

def singleton (n : UInt64) : NumberSet :=
  ⟨[n], List.pairwise_singleton _ _⟩

@[simp] theorem mem_singleton {n m : UInt64} : m ∈ (singleton n).members ↔ m = n :=
  List.mem_singleton

theorem filter_filter (s : NumberSet) (keep keep' : UInt64 → Bool) :
    (s.filter keep).filter keep' = s.filter fun n => keep n && keep' n :=
  ext_mem fun n => by simp only [mem_filter, Bool.and_eq_true, and_assoc]

theorem isEmpty_iff {s : NumberSet} : s.isEmpty = true ↔ ∀ n, n ∉ s.members := by
  rw [isEmpty, List.isEmpty_iff, List.eq_nil_iff_forall_not_mem]

end NumberSet

namespace WindowSet

variable {s t r : WindowSet}

theorem Regular.isEmpty_iff (h : s.Regular) :
    s.isEmpty = true ↔ ∀ address, s.contains address = false := by
  rw [isEmpty, List.isEmpty_iff]
  constructor
  · intro hnil address
    rw [contains, hnil]
    rfl
  · intro hnone
    refine List.eq_nil_iff_forall_not_mem.mpr fun w hw => ?_
    have hin : s.contains w.base = true := contains_iff.mpr ⟨w, hw, (h.2 w hw).contains_base⟩
    rw [hnone] at hin
    cases hin

theorem intersect_assoc (hs : s.Separated) (ht : t.Separated) (hr : r.Separated) :
    (s.intersect t).intersect r = s.intersect (t.intersect r) := by
  have hleft := (regular_intersect hs ht).1
  have hright := (regular_intersect ht hr).1
  refine (regular_intersect hleft hr).ext_contains (regular_intersect hs hright) fun address => ?_
  rw [Bool.eq_iff_iff, contains_intersect hleft hr, contains_intersect hs ht,
    contains_intersect hs hright, contains_intersect ht hr, and_assoc]

end WindowSet

/-- What a field may turn out to be: a number, a symbol or a flag, or one of a set of addresses. -/
inductive Datum where
  | number (n : UInt64)
  | symbol (text : String)
  | flag (set : Bool)
  | address (address : UInt64)

def Datum.kind : Datum → Kind
  | number _ => .number
  | symbol _ => .symbol
  | flag _ => .flag
  | address _ => .address

namespace Value

/-- The field may turn out to be this. -/
def Allows : Value → Datum → Prop
  | v, .number n => v.admits n = true
  | sym text, .symbol other => text = other
  | flag set, .flag other => set = other
  | addr set, .address address => set.contains address = true
  | _, _ => False

variable {a b c : Value} {d : Datum} {s : NumberSet} {n : UInt64}

theorem kind_of_allows (h : a.Allows d) : a.kind = d.kind := by
  cases d with
  | number n => exact kind_of_admits h
  | symbol text =>
      cases a with
      | sym text' => rfl
      | _ => cases h
  | flag set =>
      cases a with
      | flag set' => rfl
      | _ => cases h
  | address address =>
      cases a with
      | addr set => rfl
      | _ => cases h

theorem kind_of_intersect? (h : a.intersect? b = some c) : c.kind = a.kind ∧ c.kind = b.kind := by
  rcases intersect?_eq_some h with ⟨ha, hb, hc⟩ | ⟨rfl, rfl, _⟩ | ⟨_, _, rfl, rfl, rfl⟩
  · exact ⟨hc.trans ha.symm, hc.trans hb.symm⟩
  · exact ⟨rfl, rfl⟩
  · exact ⟨rfl, rfl⟩

theorem intersect?_eq_none_of_kind_ne (h : a.kind ≠ b.kind) : a.intersect? b = none := by
  refine Option.eq_none_iff_forall_not_mem.mpr fun c hc => h ?_
  obtain ⟨ha, hb⟩ := kind_of_intersect? hc
  exact ha.symm.trans hb

theorem Separated.intersect? (ha : a.Separated) (hb : b.Separated)
    (h : a.intersect? b = some c) : c.Separated := by
  rcases intersect?_eq_some h with ⟨_, _, hkind⟩ | ⟨_, rfl, hkind⟩ | ⟨s, t, rfl, rfl, rfl⟩
  · exact separated_of_kind (hkind ▸ nofun)
  · exact separated_of_kind hkind
  · rintro r hr
    cases hr
    exact (WindowSet.regular_intersect (ha s rfl) (hb t rfl)).1

theorem separated_of_number (h : a.kind = .number) : a.Separated :=
  separated_of_kind (h ▸ nofun)

/-! ### Symbols and flags -/

/-- A symbol or a flag is met only by the same. -/
theorem intersect?_of_exact (h : a.kind = .symbol ∨ a.kind = .flag) (b : Value) :
    a.intersect? b = if a = b then some a else none := by
  by_cases hkind : a.kind = b.kind
  · cases a with
    | sym text =>
        cases b with
        | sym text' => simp [intersect?]
        | _ => cases hkind
    | flag set =>
        cases b with
        | flag set' => simp [intersect?]
        | _ => cases hkind
    | _ => rcases h with h | h <;> cases h
  · rw [intersect?_eq_none_of_kind_ne hkind, if_neg]
    rintro rfl
    exact hkind rfl

theorem intersect?_assoc_of_exact (ha : a.kind = .symbol ∨ a.kind = .flag)
    (hb : b.kind = .symbol ∨ b.kind = .flag) (c : Value) :
    (a.intersect? b).bind (·.intersect? c) = (b.intersect? c).bind a.intersect? := by
  rw [intersect?_of_exact ha, intersect?_of_exact hb]
  by_cases hab : a = b
  · subst hab
    by_cases hac : a = c
    · subst hac
      simp
    · simp [intersect?_of_exact ha, hac]
  · by_cases hbc : b = c
    · subst hbc
      simp [intersect?_of_exact ha, hab]
    · simp [hab, hbc]

/-! ### Addresses -/

theorem exists_addr (h : a.kind = .address) : ∃ s, a = addr s := by
  cases a with
  | addr s => exact ⟨s, rfl⟩
  | _ => cases h

theorem addr_intersect? (s t : WindowSet) : (addr s).intersect? (addr t) =
    if (s.intersect t).isEmpty then none else some (addr (s.intersect t)) :=
  rfl

/-- Address sets are met by their addresses, and a set without addresses is none. -/
theorem addr_intersect?_eq_some_iff {s t : WindowSet} (hs : s.Separated) (ht : t.Separated) :
    (∃ c, (addr s).intersect? (addr t) = some c) ↔
      ∃ address, s.contains address = true ∧ t.contains address = true := by
  rw [addr_intersect?]
  simp only [← WindowSet.contains_intersect hs ht]
  have hempty := (WindowSet.regular_intersect hs ht).isEmpty_iff
  by_cases h : (s.intersect t).isEmpty = true
  · simp [h, hempty.mp h]
  · simpa [h] using mt hempty.mpr h

theorem isEmpty_intersect_of_isEmpty {s t r : WindowSet} (hs : s.Separated) (ht : t.Separated)
    (hr : r.Separated) (h : (s.intersect t).isEmpty = true) :
    ((s.intersect t).intersect r).isEmpty = true := by
  have hboth := WindowSet.regular_intersect hs ht
  refine (WindowSet.regular_intersect hboth.1 hr).isEmpty_iff.mpr fun address => ?_
  have hnone := hboth.isEmpty_iff.mp h address
  rw [← Bool.not_eq_true, WindowSet.contains_intersect hboth.1 hr, hnone]
  exact fun hin => absurd hin.1 Bool.false_ne_true

theorem intersect?_assoc_of_addr {s t r : WindowSet} (hs : s.Separated) (ht : t.Separated)
    (hr : r.Separated) :
    ((addr s).intersect? (addr t)).bind (·.intersect? (addr r)) =
      ((addr t).intersect? (addr r)).bind (addr s).intersect? := by
  -- A pair that has nothing in common has nothing in common with the third.
  have hleft : (s.intersect t).isEmpty = true →
      (s.intersect (t.intersect r)).isEmpty = true := fun h => by
    rw [← WindowSet.intersect_assoc hs ht hr]
    exact isEmpty_intersect_of_isEmpty hs ht hr h
  have hright : (t.intersect r).isEmpty = true →
      (s.intersect (t.intersect r)).isEmpty = true := fun h => by
    rw [addr_intersect_comm hs (WindowSet.regular_intersect ht hr).1]
    exact isEmpty_intersect_of_isEmpty ht hr hs h
  rw [addr_intersect?, addr_intersect?]
  by_cases hst : (s.intersect t).isEmpty = true
  · by_cases htr : (t.intersect r).isEmpty = true
    · simp [hst, htr]
    · simp [hst, htr, addr_intersect?, hleft hst]
  · by_cases htr : (t.intersect r).isEmpty = true
    · simp [hst, htr, addr_intersect?, WindowSet.intersect_assoc hs ht hr, hright htr]
    · simp [hst, htr, addr_intersect?, WindowSet.intersect_assoc hs ht hr]

/-! ### Numbers -/

/-- The members of a set, where the value is one; a number is a set of one member. -/
def listed? : Value → Option NumberSet
  | num n => some (.singleton n)
  | oneOf set => some set
  | _ => none

theorem admits_of_listed? (h : a.listed? = some s) : a.admits n = true ↔ n ∈ s.members := by
  cases a with
  | num m =>
      cases h
      rw [admits, beq_iff_eq, NumberSet.mem_singleton, eq_comm]
  | oneOf set =>
      cases h
      exact NumberSet.contains_iff_mem
  | _ => cases h

theorem listed?_ofSet (s : NumberSet) : (ofSet s).listed? = some s := by
  rw [ofSet]
  split
  · rename_i n hmembers
    exact congrArg some (NumberSet.ext hmembers.symm)
  · rfl

theorem restrict?_singleton (n : UInt64) (b : Value) :
    restrict? (.singleton n) b = if b.admits n then some (num n) else none := by
  by_cases h : b.admits n = true
  · have hkept : (NumberSet.singleton n).filter b.admits = .singleton n :=
      NumberSet.ext_mem fun m => by
        simp only [NumberSet.mem_filter, NumberSet.mem_singleton, and_iff_left_iff_imp]
        rintro rfl
        exact h
    rw [restrict?, hkept, if_pos h]
    rfl
  · rw [restrict?, if_neg h]
    refine if_pos (NumberSet.isEmpty_iff.mpr fun m hm => h ?_)
    obtain ⟨hmem, hadmits⟩ := NumberSet.mem_filter.mp hm
    rw [← NumberSet.mem_singleton.mp hmem]
    exact hadmits

theorem restrict?_comm {t : NumberSet} (ha : a.listed? = some s) (hb : b.listed? = some t) :
    restrict? s b = restrict? t a := by
  have hkept : s.filter b.admits = t.filter a.admits := NumberSet.ext_mem fun n => by
    rw [NumberSet.mem_filter, NumberSet.mem_filter, admits_of_listed? ha, admits_of_listed? hb,
      and_comm]
  rw [restrict?, restrict?, hkept]

/-- A set selects those of its members that the other value admits. -/
theorem intersect?_of_listed? (h : a.listed? = some s) (b : Value) :
    a.intersect? b = restrict? s b := by
  cases a with
  | num n =>
      cases h
      rw [restrict?_singleton, intersect?]
  | oneOf set =>
      cases h
      cases b with
      | num m => exact (restrict?_singleton m _).symm.trans (restrict?_comm rfl rfl)
      | _ => rfl
  | _ => cases h

theorem restrict?_eq_some_iff :
    restrict? s b = some c ↔ c = ofSet (s.filter b.admits) ∧ ∃ n ∈ s.members, b.admits n = true := by
  have hempty : (s.filter b.admits).isEmpty = true ↔ ¬ ∃ n ∈ s.members, b.admits n = true := by
    rw [NumberSet.isEmpty_iff]
    simp only [NumberSet.mem_filter, not_exists]
  rw [restrict?]
  by_cases h : ∃ n ∈ s.members, b.admits n = true
  · rw [if_neg fun hnone => hempty.mp hnone h, Option.some.injEq, and_iff_left h]
    exact eq_comm
  · rw [if_pos (hempty.mpr h)]
    exact ⟨nofun, fun hsome => absurd hsome.2 h⟩

/-- What is selected is selected from once more. -/
theorem restrict?_bind (s : NumberSet) (b c : Value) :
    (restrict? s b).bind (·.intersect? c) = restrict? (s.filter b.admits) c := by
  by_cases h : (s.filter b.admits).isEmpty = true
  · have hnone : restrict? (s.filter b.admits) c = none := by
      refine if_pos (NumberSet.isEmpty_iff.mpr fun n hn => ?_)
      exact NumberSet.isEmpty_iff.mp h n (NumberSet.mem_filter.mp hn).1
    rw [restrict?, if_pos h, hnone]
    rfl
  · rw [restrict?, if_neg h, Option.bind_some]
    exact intersect?_of_listed? (listed?_ofSet _) c

theorem exists_span (hkind : a.kind = .number) (h : a.listed? = none) : ∃ lo hi, a = span lo hi := by
  cases a with
  | num n => cases h
  | oneOf set => cases h
  | span lo hi => exact ⟨lo, hi, rfl⟩
  | _ => cases hkind

theorem span_intersect? (lo hi lo' hi' : UInt64) : (span lo hi).intersect? (span lo' hi') =
    if max lo lo' ≤ min hi hi' then some (between (max lo lo') (min hi hi')) else none :=
  rfl

/-- What two values admit in common they have in common. -/
theorem exists_intersect?_of_admits (ha : a.admits n = true) (hb : b.admits n = true) :
    ∃ c, a.intersect? b = some c := by
  have hkinda := kind_of_admits ha
  have hkindb := kind_of_admits hb
  cases hlist : a.listed? with
  | some s =>
      rw [intersect?_of_listed? hlist]
      exact ⟨_, restrict?_eq_some_iff.mpr ⟨rfl, n, (admits_of_listed? hlist).mp ha, hb⟩⟩
  | none =>
      cases hlist' : b.listed? with
      | some t =>
          rw [intersect?_comm (separated_of_number hkinda) (separated_of_number hkindb),
            intersect?_of_listed? hlist']
          exact ⟨_, restrict?_eq_some_iff.mpr ⟨rfl, n, (admits_of_listed? hlist').mp hb, ha⟩⟩
      | none =>
          obtain ⟨lo, hi, rfl⟩ := exists_span hkinda hlist
          obtain ⟨lo', hi', rfl⟩ := exists_span hkindb hlist'
          simp only [admits, Bool.and_eq_true, decide_eq_true_eq] at ha hb
          refine ⟨_, if_pos (UInt64.le_trans (Std.max_le_iff.mpr ⟨ha.1, hb.1⟩) ?_)⟩
          exact Std.le_min_iff.mpr ⟨ha.2, hb.2⟩

/-- A set that is met first selects for both of the others. -/
theorem intersect?_assoc_of_listed? (h : a.listed? = some s) (b c : Value) :
    (a.intersect? b).bind (·.intersect? c) = (b.intersect? c).bind a.intersect? := by
  rw [intersect?_of_listed? h, restrict?_bind]
  cases hboth : b.intersect? c with
  | none =>
      refine if_pos (NumberSet.isEmpty_iff.mpr fun n hn => ?_)
      rw [NumberSet.filter_filter, NumberSet.mem_filter, Bool.and_eq_true] at hn
      obtain ⟨e, he⟩ := exists_intersect?_of_admits hn.2.1 hn.2.2
      rw [hboth] at he
      cases he
  | some both =>
      have hadmits : (fun n => b.admits n && c.admits n) = both.admits := funext fun n => by
        rw [Bool.eq_iff_iff, Bool.and_eq_true, admits_intersect? hboth]
      rw [Option.bind_some, intersect?_of_listed? h, restrict?, NumberSet.filter_filter, hadmits,
        restrict?]

theorem between_intersect? {lo hi : UInt64} (h : lo ≤ hi) (lo' hi' : UInt64) :
    (between lo hi).intersect? (span lo' hi') = (span lo hi).intersect? (span lo' hi') := by
  rw [between]
  split
  · rename_i heq
    subst heq
    rw [intersect?, span_intersect?]
    by_cases hin : lo' ≤ lo ∧ lo ≤ hi'
    · have hmax : max lo lo' = lo := Std.LawfulOrderLeftLeaningMax.max_eq_left _ _ hin.1
      have hmin : min lo hi' = lo := Std.LawfulOrderLeftLeaningMin.min_eq_left _ _ hin.2
      rw [hmax, hmin, if_pos h, between, if_pos rfl, if_pos]
      simp [admits, hin]
    · rw [if_neg, if_neg]
      · rintro hle
        exact hin ⟨UInt64.le_trans Std.right_le_max (UInt64.le_trans hle Std.min_le_left),
          UInt64.le_trans Std.left_le_max (UInt64.le_trans hle Std.min_le_right)⟩
      · simpa [admits] using hin
  · rfl

theorem bind_span_intersect? (lo hi lo' hi' lo'' hi'' : UInt64) :
    ((span lo hi).intersect? (span lo' hi')).bind (·.intersect? (span lo'' hi'')) =
      if max (max lo lo') lo'' ≤ min (min hi hi') hi''
      then some (between (max (max lo lo') lo'') (min (min hi hi') hi'')) else none := by
  rw [span_intersect?]
  by_cases h : max lo lo' ≤ min hi hi'
  · rw [if_pos h, Option.bind_some, between_intersect? h, span_intersect?]
  · rw [if_neg h, if_neg]
    · rfl
    · exact fun hle => h (UInt64.le_trans Std.left_le_max (UInt64.le_trans hle Std.min_le_left))

/-- What is left of two values is met by a third from either side. -/
theorem bind_intersect?_comm (ha : a.Separated) (hb : b.Separated) (hc : c.Separated) :
    (a.intersect? b).bind (·.intersect? c) = (a.intersect? b).bind c.intersect? := by
  cases hboth : a.intersect? b with
  | none => rfl
  | some both => exact intersect?_comm (ha.intersect? hb hboth) hc

/-- Numbers may be met in any order: whichever of the three is a set selects for the other two, and
three intervals leave an interval. -/
theorem intersect?_assoc_of_number (ha : a.kind = .number) (hb : b.kind = .number)
    (hc : c.kind = .number) :
    (a.intersect? b).bind (·.intersect? c) = (b.intersect? c).bind a.intersect? := by
  have ha' := separated_of_number ha
  have hb' := separated_of_number hb
  have hc' := separated_of_number hc
  cases hlista : a.listed? with
  | some s => exact intersect?_assoc_of_listed? hlista b c
  | none =>
      cases hlistb : b.listed? with
      | some s =>
          rw [intersect?_comm ha' hb', intersect?_assoc_of_listed? hlistb,
            ← bind_intersect?_comm hb' hc' ha', intersect?_assoc_of_listed? hlistb,
            intersect?_comm ha' hc']
      | none =>
          cases hlistc : c.listed? with
          | some s =>
              rw [bind_intersect?_comm ha' hb' hc', intersect?_comm hb' hc',
                ← bind_intersect?_comm hc' hb' ha', intersect?_assoc_of_listed? hlistc,
                intersect?_comm ha' hb']
          | none =>
              obtain ⟨lo, hi, rfl⟩ := exists_span ha hlista
              obtain ⟨lo', hi', rfl⟩ := exists_span hb hlistb
              obtain ⟨lo'', hi'', rfl⟩ := exists_span hc hlistc
              have hmax : max (max lo lo') lo'' = max (max lo' lo'') lo :=
                (Std.Associative.assoc lo lo' lo'').trans (max_comm lo _)
              have hmin : min (min hi hi') hi'' = min (min hi' hi'') hi :=
                (Std.Associative.assoc hi hi' hi'').trans (min_comm hi _)
              rw [← bind_intersect?_comm hb' hc' ha', bind_span_intersect?, bind_span_intersect?,
                hmax, hmin]

/-- What satisfies three values does not depend on which two of them are met first. -/
theorem intersect?_assoc (ha : a.Separated) (hb : b.Separated) (hc : c.Separated) :
    (a.intersect? b).bind (·.intersect? c) = (b.intersect? c).bind a.intersect? := by
  by_cases hab : a.kind = b.kind
  · by_cases hbc : b.kind = c.kind
    · cases hkind : b.kind with
      | number => exact intersect?_assoc_of_number (hab.trans hkind) hkind (hbc ▸ hkind)
      | symbol => exact intersect?_assoc_of_exact (Or.inl (hab.trans hkind)) (Or.inl hkind) c
      | flag => exact intersect?_assoc_of_exact (Or.inr (hab.trans hkind)) (Or.inr hkind) c
      | address =>
          obtain ⟨s, rfl⟩ := exists_addr (hab.trans hkind)
          obtain ⟨t, rfl⟩ := exists_addr hkind
          obtain ⟨r, rfl⟩ := exists_addr (hbc ▸ hkind)
          exact intersect?_assoc_of_addr (ha s rfl) (hb t rfl) (hc r rfl)
    · rw [intersect?_eq_none_of_kind_ne hbc]
      refine Option.bind_eq_none_iff.mpr fun e he => intersect?_eq_none_of_kind_ne ?_
      rw [(kind_of_intersect? he).2]
      exact hbc
  · rw [intersect?_eq_none_of_kind_ne hab]
    refine (Option.bind_eq_none_iff.mpr fun e he => intersect?_eq_none_of_kind_ne ?_).symm
    rw [(kind_of_intersect? he).1]
    exact hab

/-- Numbers are met only where there is a number that both values admit. -/
theorem exists_admits_of_intersect? (hkind : a.kind = .number) (h : a.intersect? b = some c) :
    ∃ n, a.admits n = true ∧ b.admits n = true := by
  have hkind' : b.kind = .number := by
    obtain ⟨ha, hb⟩ := kind_of_intersect? h
    rw [← hb, ha, hkind]
  cases hlist : a.listed? with
  | some s =>
      rw [intersect?_of_listed? hlist] at h
      obtain ⟨_, n, hn, hadmits⟩ := restrict?_eq_some_iff.mp h
      exact ⟨n, (admits_of_listed? hlist).mpr hn, hadmits⟩
  | none =>
      cases hlist' : b.listed? with
      | some t =>
          rw [intersect?_comm (separated_of_number hkind) (separated_of_number hkind'),
            intersect?_of_listed? hlist'] at h
          obtain ⟨_, n, hn, hadmits⟩ := restrict?_eq_some_iff.mp h
          exact ⟨n, hadmits, (admits_of_listed? hlist').mpr hn⟩
      | none =>
          obtain ⟨lo, hi, rfl⟩ := exists_span hkind hlist
          obtain ⟨lo', hi', rfl⟩ := exists_span hkind' hlist'
          rw [span_intersect?] at h
          split at h
          · rename_i hle
            obtain ⟨hhi, hhi'⟩ := Std.le_min_iff.mp hle
            refine ⟨max lo lo', ?_, ?_⟩
            · simpa only [admits, Bool.and_eq_true, decide_eq_true_eq] using ⟨Std.left_le_max, hhi⟩
            · simpa only [admits, Bool.and_eq_true, decide_eq_true_eq] using
                ⟨Std.right_le_max, hhi'⟩
          · cases h

/-! ### What is allowed -/

/-- What satisfies two values allows what both allow. -/
theorem allows_of_intersect? (ha : a.Separated) (hb : b.Separated) (h : a.intersect? b = some c) :
    c.Allows d ↔ a.Allows d ∧ b.Allows d := by
  obtain ⟨hkinda, hkindb⟩ := kind_of_intersect? h
  by_cases hkind : c.kind = d.kind
  · rcases intersect?_eq_some h with ⟨_, _, hnumber⟩ | ⟨rfl, rfl, _⟩ | ⟨s, t, rfl, rfl, rfl⟩
    · cases d with
      | number n => exact admits_intersect? h
      | _ => cases hnumber.symm.trans hkind
    · exact and_self_iff.symm
    · cases d with
      | address address => exact WindowSet.contains_intersect (ha s rfl) (hb t rfl)
      | _ => cases hkind
  · constructor
    · exact fun hc => absurd (kind_of_allows hc) hkind
    · exact fun hab => absurd (hkinda.trans (kind_of_allows hab.1)) hkind

theorem exists_allows_of_exact (h : a.kind = .symbol ∨ a.kind = .flag) : ∃ d, a.Allows d := by
  cases a with
  | sym text => exact ⟨.symbol text, rfl⟩
  | flag set => exact ⟨.flag set, rfl⟩
  | _ => rcases h with h | h <;> cases h

theorem eq_of_allows (h : a.kind = .symbol ∨ a.kind = .flag) (ha : a.Allows d)
    (hb : b.Allows d) : a = b := by
  have hkind : d.kind = .symbol ∨ d.kind = .flag := kind_of_allows ha ▸ h
  cases d with
  | symbol text =>
      cases a with
      | sym left =>
          cases b with
          | sym right => exact congrArg sym (Eq.trans ha (Eq.symm hb))
          | _ => cases hb
      | _ => cases ha
  | flag set =>
      cases a with
      | flag left =>
          cases b with
          | flag right => exact congrArg flag (Eq.trans ha (Eq.symm hb))
          | _ => cases hb
      | _ => cases ha
  | _ => rcases hkind with hkind | hkind <;> cases hkind

theorem exists_intersect?_of_exact (h : a.kind = .symbol ∨ a.kind = .flag) :
    (∃ c, a.intersect? b = some c) ↔ ∃ d, a.Allows d ∧ b.Allows d := by
  rw [intersect?_of_exact h]
  constructor
  · rintro ⟨c, hc⟩
    obtain ⟨rfl, _⟩ := Option.ite_none_right_eq_some.mp hc
    obtain ⟨d, hd⟩ := exists_allows_of_exact h
    exact ⟨d, hd, hd⟩
  · rintro ⟨d, ha, hb⟩
    exact ⟨a, if_pos (eq_of_allows h ha hb)⟩

/-- Two values can be met if and only if they allow something in common. -/
theorem exists_intersect?_iff (ha : a.Separated) (hb : b.Separated) :
    (∃ c, a.intersect? b = some c) ↔ ∃ d, a.Allows d ∧ b.Allows d := by
  by_cases hkind : a.kind = b.kind
  · cases hkinda : a.kind with
    | number =>
        constructor
        · rintro ⟨c, hc⟩
          obtain ⟨n, hn⟩ := exists_admits_of_intersect? hkinda hc
          exact ⟨.number n, hn⟩
        · rintro ⟨d, hd, hd'⟩
          cases d with
          | number n => exact exists_intersect?_of_admits hd hd'
          | _ => cases hkinda.symm.trans (kind_of_allows hd)
    | symbol => exact exists_intersect?_of_exact (Or.inl hkinda)
    | flag => exact exists_intersect?_of_exact (Or.inr hkinda)
    | address =>
        obtain ⟨s, rfl⟩ := exists_addr hkinda
        obtain ⟨t, rfl⟩ := exists_addr (hkind ▸ hkinda)
        rw [addr_intersect?_eq_some_iff (ha s rfl) (hb t rfl)]
        constructor
        · rintro ⟨address, hin⟩
          exact ⟨.address address, hin⟩
        · rintro ⟨d, hd, hd'⟩
          cases d with
          | address address => exact ⟨address, hd, hd'⟩
          | _ => cases kind_of_allows hd
  · constructor
    · rintro ⟨c, hc⟩
      obtain ⟨hc', hc''⟩ := kind_of_intersect? hc
      exact absurd (hc'.symm.trans hc'') hkind
    · rintro ⟨d, hd, hd'⟩
      exact absurd ((kind_of_allows hd).trans (kind_of_allows hd').symm) hkind

end Value

end Negotiation
