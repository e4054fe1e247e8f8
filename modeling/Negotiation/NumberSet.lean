/-!
Finite sets of numbers.

A set keeps its members in strictly ascending order, so a member occurs once and two sets with
the same members are equal (`NumberSet.ext_mem`).
-/

namespace Negotiation

/-- Place one number in an ascending list that holds it at most once. -/
def insertNumber (n : UInt64) : List UInt64 → List UInt64
  | [] => [n]
  | m :: rest =>
      if n < m then n :: m :: rest
      else if n = m then m :: rest
      else m :: insertNumber n rest

theorem mem_insertNumber {n m : UInt64} {ns : List UInt64} :
    m ∈ insertNumber n ns ↔ m = n ∨ m ∈ ns := by
  induction ns with
  | nil => simp [insertNumber]
  | cons head rest ih =>
      rw [insertNumber]
      split
      · simp
      · split
        · rename_i heq
          subst heq
          simp
        · simp only [List.mem_cons, ih]
          exact ⟨fun h => h.elim (fun h => .inr (.inl h)) (Or.imp id .inr),
            fun h => h.elim (fun h => .inr (.inl h)) (Or.imp id .inr)⟩

theorem insertNumber_pairwise (n : UInt64) {ns : List UInt64} (h : ns.Pairwise (· < ·)) :
    (insertNumber n ns).Pairwise (· < ·) := by
  induction ns with
  | nil => exact List.pairwise_singleton _ _
  | cons head rest ih =>
      obtain ⟨hhead, hrest⟩ := List.pairwise_cons.mp h
      rw [insertNumber]
      split
      · rename_i hlt
        refine List.pairwise_cons.mpr ⟨fun m hm => ?_, h⟩
        rcases List.mem_cons.mp hm with rfl | hm
        · exact hlt
        · exact UInt64.lt_trans hlt (hhead m hm)
      · rename_i hnlt
        split
        · exact h
        · rename_i hne
          refine List.pairwise_cons.mpr ⟨fun m hm => ?_, ih hrest⟩
          rcases mem_insertNumber.mp hm with rfl | hm
          · exact Std.lt_of_le_of_ne (UInt64.not_lt.mp hnlt) (Ne.symm hne)
          · exact hhead m hm

/-- A finite set of numbers, members ascending. -/
@[ext]
structure NumberSet where
  members : List UInt64
  ascending : members.Pairwise (· < ·)
deriving DecidableEq

namespace NumberSet

def empty : NumberSet := ⟨[], List.Pairwise.nil⟩

instance : EmptyCollection NumberSet := ⟨empty⟩

instance : Inhabited NumberSet := ⟨empty⟩

def insert (s : NumberSet) (n : UInt64) : NumberSet :=
  ⟨insertNumber n s.members, insertNumber_pairwise n s.ascending⟩

def ofList (ns : List UInt64) : NumberSet :=
  ns.foldl insert empty

def filter (keep : UInt64 → Bool) (s : NumberSet) : NumberSet :=
  ⟨s.members.filter keep, s.ascending.filter keep⟩

def contains (s : NumberSet) (n : UInt64) : Bool :=
  s.members.contains n

def isEmpty (s : NumberSet) : Bool :=
  s.members.isEmpty

def max? (s : NumberSet) : Option UInt64 :=
  s.members.getLast?

@[simp] theorem mem_insert {s : NumberSet} {n m : UInt64} :
    m ∈ (s.insert n).members ↔ m = n ∨ m ∈ s.members :=
  mem_insertNumber

@[simp] theorem mem_ofList {ns : List UInt64} {n : UInt64} :
    n ∈ (ofList ns).members ↔ n ∈ ns := by
  suffices h : ∀ (ns : List UInt64) (s : NumberSet),
      n ∈ (ns.foldl insert s).members ↔ n ∈ s.members ∨ n ∈ ns by
    simpa [ofList, empty] using h ns empty
  intro ns
  induction ns with
  | nil => simp
  | cons head rest ih =>
      intro s
      rw [List.foldl_cons, ih, mem_insert, List.mem_cons, or_assoc, or_left_comm]

@[simp] theorem mem_filter {keep : UInt64 → Bool} {s : NumberSet} {n : UInt64} :
    n ∈ (s.filter keep).members ↔ n ∈ s.members ∧ keep n = true :=
  List.mem_filter

@[simp] theorem contains_iff_mem {s : NumberSet} {n : UInt64} :
    s.contains n = true ↔ n ∈ s.members := by
  simp [contains]

/-- Two sets with the same members are equal. -/
theorem ext_mem {s t : NumberSet} (h : ∀ n, n ∈ s.members ↔ n ∈ t.members) : s = t := by
  refine NumberSet.ext ?_
  obtain ⟨left, hleft⟩ := s
  obtain ⟨right, hright⟩ := t
  simp only at h ⊢
  induction left generalizing right with
  | nil =>
      cases right with
      | nil => rfl
      | cons m rest => exact absurd ((h m).mpr List.mem_cons_self) List.not_mem_nil
  | cons n rest ih =>
      cases right with
      | nil => exact absurd ((h n).mp List.mem_cons_self) List.not_mem_nil
      | cons m others =>
          obtain ⟨hn, hrest⟩ := List.pairwise_cons.mp hleft
          obtain ⟨hm, hothers⟩ := List.pairwise_cons.mp hright
          have hnm : n = m := by
            rcases List.mem_cons.mp ((h n).mp List.mem_cons_self) with heq | hmem
            · exact heq
            · rcases List.mem_cons.mp ((h m).mpr List.mem_cons_self) with heq | hmem'
              · exact heq.symm
              · exact absurd (UInt64.lt_trans (hn m hmem') (hm n hmem)) (UInt64.lt_irrefl n)
          subst hnm
          rw [ih hrest others hothers fun k => ?_]
          constructor
          · intro hk
            rcases List.mem_cons.mp ((h k).mp (List.mem_cons_of_mem _ hk)) with rfl | hk'
            · exact absurd (hn k hk) (UInt64.lt_irrefl k)
            · exact hk'
          · intro hk
            rcases List.mem_cons.mp ((h k).mpr (List.mem_cons_of_mem _ hk)) with rfl | hk'
            · exact absurd (hm k hk) (UInt64.lt_irrefl k)
            · exact hk'

end NumberSet

end Negotiation
