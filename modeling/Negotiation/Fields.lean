/-!
Records of named fields.

A record keeps its entries in strictly ascending order of name, so a name occurs at most once
and two records with the same look-ups are equal (`Fields.ext_get?`).  Every operation is
described by what it does to the look-up `get?`.
-/

namespace Negotiation

universe u v w

variable {α : Type u} {β : Type v} {ε : Type w}

/-- Names in strictly ascending order. -/
def Ascending (entries : List (String × α)) : Prop :=
  entries.Pairwise fun a b => a.1 < b.1

instance (entries : List (String × α)) : Decidable (Ascending entries) :=
  inferInstanceAs (Decidable (entries.Pairwise _))

/-- Place one entry, replacing an entry of the same name. -/
def insertEntry (name : String) (value : α) : List (String × α) → List (String × α)
  | [] => [(name, value)]
  | (key, old) :: rest =>
      if name < key then (name, value) :: (key, old) :: rest
      else if name = key then (name, value) :: rest
      else (key, old) :: insertEntry name value rest

theorem mem_insertEntry_imp {name : String} {value : α} {entries : List (String × α)}
    {entry : String × α} (h : entry ∈ insertEntry name value entries) :
    entry = (name, value) ∨ entry ∈ entries := by
  induction entries with
  | nil => simpa [insertEntry] using h
  | cons head rest ih =>
      obtain ⟨key, old⟩ := head
      rw [insertEntry] at h
      split at h
      · simpa using h
      · split at h
        · exact (List.mem_cons.mp h).imp id (List.mem_cons_of_mem _)
        · rcases List.mem_cons.mp h with rfl | h
          · exact Or.inr List.mem_cons_self
          · exact (ih h).imp id (List.mem_cons_of_mem _)

theorem insertEntry_ascending (name : String) (value : α) {entries : List (String × α)}
    (h : Ascending entries) : Ascending (insertEntry name value entries) := by
  induction entries with
  | nil => exact List.pairwise_singleton _ _
  | cons head rest ih =>
      obtain ⟨key, old⟩ := head
      obtain ⟨hhead, hrest⟩ := List.pairwise_cons.mp h
      rw [insertEntry]
      split
      · rename_i hlt
        refine List.pairwise_cons.mpr ⟨fun entry hentry => ?_, h⟩
        rcases List.mem_cons.mp hentry with rfl | hentry
        · exact hlt
        · exact String.lt_trans hlt (hhead entry hentry)
      · rename_i hnlt
        split
        · rename_i heq
          subst heq
          exact List.pairwise_cons.mpr ⟨hhead, hrest⟩
        · rename_i hne
          refine List.pairwise_cons.mpr ⟨fun entry hentry => ?_, ih hrest⟩
          rcases mem_insertEntry_imp hentry with rfl | hentry
          · exact Std.lt_of_le_of_ne (String.not_lt.mp hnlt) (Ne.symm hne)
          · exact hhead entry hentry

/-- The value of the first entry of this name. -/
def lookupEntry (name : String) : List (String × α) → Option α
  | [] => none
  | (key, value) :: rest => if name = key then some value else lookupEntry name rest

theorem lookupEntry_insertEntry (name : String) (value : α) (entries : List (String × α))
    (key : String) :
    lookupEntry key (insertEntry name value entries) =
      if key = name then some value else lookupEntry key entries := by
  induction entries with
  | nil => simp [insertEntry, lookupEntry]
  | cons head rest ih =>
      obtain ⟨other, old⟩ := head
      rw [insertEntry]
      split
      · simp [lookupEntry]
      · split
        · rename_i heq
          subst heq
          by_cases h : key = name <;> simp [lookupEntry, h]
        · rename_i hne
          by_cases h : key = other
          · subst h
            simp [lookupEntry, Ne.symm hne]
          · simp [lookupEntry, h, ih]

theorem lookupEntry_eq_none_of_forall_lt {entries : List (String × α)} {key : String}
    (h : ∀ entry ∈ entries, key < entry.1) : lookupEntry key entries = none := by
  induction entries with
  | nil => rfl
  | cons head rest ih =>
      obtain ⟨other, old⟩ := head
      have hne : key ≠ other := fun heq => by
        have hlt := h _ List.mem_cons_self
        rw [heq] at hlt
        exact String.lt_irrefl _ hlt
      simp only [lookupEntry, hne, ↓reduceIte]
      exact ih fun entry hentry => h entry (List.mem_cons_of_mem _ hentry)

theorem lookupEntry_eq_some_iff_mem {entries : List (String × α)} (h : Ascending entries)
    {key : String} {value : α} :
    lookupEntry key entries = some value ↔ (key, value) ∈ entries := by
  induction entries with
  | nil => simp [lookupEntry]
  | cons head rest ih =>
      obtain ⟨other, old⟩ := head
      obtain ⟨hhead, hrest⟩ := List.pairwise_cons.mp h
      by_cases hkey : key = other
      · subst hkey
        have hnot : (key, value) ∉ rest := fun hv => String.lt_irrefl key (hhead (key, value) hv)
        simp only [lookupEntry, ↓reduceIte, Option.some.injEq, List.mem_cons, Prod.mk.injEq,
          true_and]
        exact ⟨fun h => Or.inl h.symm, fun h => h.elim Eq.symm fun h => absurd h hnot⟩
      · simp [lookupEntry, ih hrest, hkey]

theorem eq_of_lookupEntry_eq {left right : List (String × α)} (hleft : Ascending left)
    (hright : Ascending right) (h : ∀ key, lookupEntry key left = lookupEntry key right) :
    left = right := by
  induction left generalizing right with
  | nil =>
      cases right with
      | nil => rfl
      | cons head rest => simpa [lookupEntry] using h head.1
  | cons head rest ih =>
      cases right with
      | nil => simpa [lookupEntry] using h head.1
      | cons other others =>
          obtain ⟨k, x⟩ := head
          obtain ⟨l, y⟩ := other
          obtain ⟨hk, hrest⟩ := List.pairwise_cons.mp hleft
          obtain ⟨hl, hothers⟩ := List.pairwise_cons.mp hright
          have hnone : ∀ {key name : String} {tail : List (String × α)},
              (∀ entry ∈ tail, name < entry.1) → key ≤ name → lookupEntry key tail = none :=
            fun htail hle => lookupEntry_eq_none_of_forall_lt fun entry hentry =>
              Std.lt_of_le_of_lt hle (htail entry hentry)
          have hkl : k = l := by
            refine Classical.byContradiction fun hne => ?_
            by_cases hlt : k < l
            · have := h k
              simp [lookupEntry, hne, hnone hl (Std.le_of_lt hlt)] at this
            · have := h l
              simp [lookupEntry, Ne.symm hne, hnone hk (String.not_lt.mp hlt)] at this
          subst hkl
          have hxy : x = y := by simpa [lookupEntry] using h k
          subst hxy
          have htail : ∀ key, lookupEntry key rest = lookupEntry key others := by
            intro key
            by_cases hkey : key = k
            · subst hkey
              rw [hnone hk (String.le_refl _), hnone hl (String.le_refl _)]
            · simpa [lookupEntry, hkey] using h key
          rw [ih hrest hothers htail]

/-- Apply `f` to every entry in order of name; the first failure is the result. -/
def mapEntries (f : String → α → Except ε β) :
    List (String × α) → Except ε (List (String × β))
  | [] => .ok []
  | (key, value) :: rest =>
      match f key value with
      | .error e => .error e
      | .ok image =>
          match mapEntries f rest with
          | .error e => .error e
          | .ok images => .ok ((key, image) :: images)

theorem mapEntries_keys {f : String → α → Except ε β} {entries : List (String × α)}
    {images : List (String × β)} (h : mapEntries f entries = .ok images) :
    images.map Prod.fst = entries.map Prod.fst := by
  induction entries generalizing images with
  | nil => cases h; rfl
  | cons head rest ih =>
      obtain ⟨key, value⟩ := head
      rw [mapEntries] at h
      split at h
      · cases h
      · split at h
        · cases h
        · rename_i heq
          cases h
          simp [ih heq]

theorem ascending_of_map_fst_eq {left : List (String × α)} {right : List (String × β)}
    (h : right.map Prod.fst = left.map Prod.fst) (hleft : Ascending left) :
    Ascending right := by
  have hkeys : (left.map Prod.fst).Pairwise (· < ·) := List.pairwise_map.mpr hleft
  rw [← h] at hkeys
  exact List.pairwise_map.mp hkeys

/-- A record of named fields, ordered by name. -/
@[ext]
structure Fields (α : Type u) where
  entries : List (String × α)
  ascending : Ascending entries

namespace Fields

instance [DecidableEq α] : DecidableEq (Fields α) := fun p q =>
  decidable_of_iff (p.entries = q.entries) Fields.ext_iff.symm

def empty : Fields α := ⟨[], List.Pairwise.nil⟩

instance : EmptyCollection (Fields α) := ⟨empty⟩

instance : Inhabited (Fields α) := ⟨empty⟩

def get? (p : Fields α) (name : String) : Option α :=
  lookupEntry name p.entries

def contains (p : Fields α) (name : String) : Bool :=
  (p.get? name).isSome

/-- The names of the fields, ascending. -/
def keys (p : Fields α) : List String :=
  p.entries.map Prod.fst

/-- The values of the fields, in order of name. -/
def values (p : Fields α) : List α :=
  p.entries.map Prod.snd

def size (p : Fields α) : Nat :=
  p.entries.length

def isEmpty (p : Fields α) : Bool :=
  p.entries.isEmpty

/-- Set one field, replacing its value if the record has it. -/
def insert (p : Fields α) (name : String) (value : α) : Fields α :=
  ⟨insertEntry name value p.entries, insertEntry_ascending name value p.ascending⟩

/-- The record of a list of fields; of two fields of one name the later counts. -/
def ofList (fields : List (String × α)) : Fields α :=
  fields.foldl (fun p field => p.insert field.1 field.2) empty

def map (f : String → α → β) (p : Fields α) : Fields β :=
  ⟨p.entries.map fun entry => (entry.1, f entry.1 entry.2),
    ascending_of_map_fst_eq (by simp [Function.comp_def]) p.ascending⟩

/-- The same names with other values, where a value may be refused: the first refusal in order
of name is the result. -/
def traverse (f : String → α → Except ε β) (p : Fields α) : Except ε (Fields β) :=
  match h : mapEntries f p.entries with
  | .error e => .error e
  | .ok images => .ok ⟨images, ascending_of_map_fst_eq (mapEntries_keys h) p.ascending⟩

/-- Set each field of `theirs` in `base`, in order of name, to what `f` makes of it; the first
refusal is the result. -/
def absorb (f : String → α → Except ε β) (base : Fields β) (theirs : Fields α) :
    Except ε (Fields β) :=
  theirs.entries.foldlM (fun acc entry => (f entry.1 entry.2).map (acc.insert entry.1)) base

@[simp] theorem get?_empty (name : String) : (empty : Fields α).get? name = none := rfl

@[simp] theorem get?_insert (p : Fields α) (name : String) (value : α) (key : String) :
    (p.insert name value).get? key = if key = name then some value else p.get? key :=
  lookupEntry_insertEntry name value p.entries key

theorem get?_eq_some_iff {p : Fields α} {name : String} {value : α} :
    p.get? name = some value ↔ (name, value) ∈ p.entries :=
  lookupEntry_eq_some_iff_mem p.ascending

/-- Two records with the same look-ups are equal. -/
theorem ext_get? {p q : Fields α} (h : ∀ name, p.get? name = q.get? name) : p = q :=
  Fields.ext (eq_of_lookupEntry_eq p.ascending q.ascending h)

theorem contains_iff_mem_keys {p : Fields α} {name : String} :
    p.contains name = true ↔ name ∈ p.keys := by
  simp only [contains, Option.isSome_iff_exists, get?_eq_some_iff, keys, List.mem_map,
    Prod.exists, exists_and_right, exists_eq_right]

end Fields

end Negotiation
