import Negotiation.Fields

/-!
Computations over records that may refuse a field.

What a traversal makes of a record, and what becomes of a record that takes in another one, is said
field by field; the order in which the fields are gone through does not matter to what results.
-/

namespace Negotiation

universe u v w

/-- A computation that comes to a result came through its first part. -/
theorem exists_of_bind_eq_ok {ε α β : Type} {first : Except ε α} {next : α → Except ε β} {b : β}
    (h : first >>= next = .ok b) : ∃ a, first = .ok a ∧ next a = .ok b := by
  cases first with
  | error error => cases h
  | ok a => exact ⟨a, rfl, h⟩

theorem bind_eq_ok_iff {ε α β : Type} {first : Except ε α} {next : α → Except ε β} {b : β} :
    first >>= next = .ok b ↔ ∃ a, first = .ok a ∧ next a = .ok b := by
  refine ⟨exists_of_bind_eq_ok, ?_⟩
  rintro ⟨a, rfl, h⟩
  exact h

theorem mapError_eq_ok_iff {ε ε' α : Type} {f : ε → ε'} {x : Except ε α} {a : α} :
    x.mapError f = .ok a ↔ x = .ok a := by
  cases x with
  | error e => exact ⟨nofun, nofun⟩
  | ok b => exact ⟨fun h => congrArg _ (Except.ok.inj h), fun h => congrArg _ (Except.ok.inj h)⟩

theorem exists_of_mapError_eq_error {ε ε' α : Type} {f : ε → ε'} {x : Except ε α} {error : ε'}
    (h : x.mapError f = .error error) : ∃ e, x = .error e ∧ f e = error := by
  cases x with
  | error e => exact ⟨e, rfl, Except.error.inj h⟩
  | ok a => cases h

theorem exists_of_map_eq_ok {ε α β : Type} {f : α → β} {x : Except ε α} {b : β}
    (h : x.map f = .ok b) : ∃ a, x = .ok a ∧ f a = b := by
  cases x with
  | error e => cases h
  | ok a => exact ⟨a, rfl, Except.ok.inj h⟩

theorem map_singleton_eq_ok_iff {ε α : Type} {x : Except ε α} {a : α} :
    x.map ([·]) = .ok [a] ↔ x = .ok a := by
  constructor
  · intro h
    obtain ⟨b, hb, hsame⟩ := exists_of_map_eq_ok h
    rw [hb, (List.cons.inj hsame).1]
  · rintro rfl
    rfl

section Entries

variable {α : Type u} {β : Type v} {ε : Type w}

theorem lookupEntry_mapEntries {f : String → α → Except ε β} {entries : List (String × α)}
    {images : List (String × β)} (h : mapEntries f entries = .ok images) (name : String) :
    Option.Rel (fun a b => f name a = .ok b) (lookupEntry name entries)
      (lookupEntry name images) := by
  induction entries generalizing images with
  | nil =>
      cases h
      exact .none
  | cons head rest ih =>
      obtain ⟨key, value⟩ := head
      rw [mapEntries] at h
      split at h
      · cases h
      · rename_i image himage
        split at h
        · cases h
        · rename_i others hothers
          cases h
          rw [lookupEntry, lookupEntry]
          split
          · rename_i heq
            subst heq
            exact .some himage
          · exact ih hothers

theorem exists_mapEntries_eq_ok {f : String → α → Except ε β} {entries : List (String × α)}
    (h : ∀ entry ∈ entries, ∃ b, f entry.1 entry.2 = .ok b) :
    ∃ images, mapEntries f entries = .ok images := by
  induction entries with
  | nil => exact ⟨[], rfl⟩
  | cons head rest ih =>
      obtain ⟨image, himage⟩ := h head List.mem_cons_self
      obtain ⟨images, himages⟩ := ih fun entry hentry => h entry (List.mem_cons_of_mem _ hentry)
      refine ⟨(head.1, image) :: images, ?_⟩
      rw [mapEntries, himage, himages]

end Entries

namespace Fields

variable {α : Type u} {β : Type v} {ε : Type w}

/-- What a traversal makes of each field. -/
theorem get?_of_traverse {f : String → α → Except ε β} {p : Fields α} {q : Fields β}
    (h : p.traverse f = .ok q) (name : String) :
    Option.Rel (fun a b => f name a = .ok b) (p.get? name) (q.get? name) := by
  rw [traverse] at h
  split at h
  · cases h
  · rename_i images himages
    cases h
    exact lookupEntry_mapEntries himages name

/-- A traversal succeeds if no field is refused. -/
theorem exists_traverse_eq_ok {f : String → α → Except ε β} {p : Fields α}
    (h : ∀ name a, p.get? name = some a → ∃ b, f name a = .ok b) :
    ∃ q, p.traverse f = .ok q := by
  have hentries : ∀ entry ∈ p.entries, ∃ b, f entry.1 entry.2 = .ok b :=
    fun entry hentry => h entry.1 entry.2 (get?_eq_some_iff.mpr hentry)
  obtain ⟨images, himages⟩ := exists_mapEntries_eq_ok hentries
  rw [traverse]
  split
  · rename_i hrefused
    rw [himages] at hrefused
    cases hrefused
  · exact ⟨_, rfl⟩

/-- What becomes of each field where another record is taken in. -/
theorem get?_of_absorb {f : String → α → Except ε β} {base result : Fields β} {theirs : Fields α}
    (h : absorb f base theirs = .ok result) (name : String) :
    (theirs.get? name = none → result.get? name = base.get? name) ∧
      ∀ a, theirs.get? name = some a → ∃ b, f name a = .ok b ∧ result.get? name = some b := by
  obtain ⟨entries, hascending⟩ := theirs
  simp only [absorb, get?] at h ⊢
  induction entries generalizing base with
  | nil =>
      cases h
      exact ⟨fun _ => rfl, fun a ha => by cases ha⟩
  | cons head rest ih =>
      obtain ⟨key, value⟩ := head
      obtain ⟨hhead, hrest⟩ := List.pairwise_cons.mp hascending
      rw [List.foldlM_cons] at h
      cases himage : f key value with
      | error refused =>
          rw [himage] at h
          cases h
      | ok image =>
          rw [himage] at h
          obtain ⟨hnone, hsome⟩ := ih hrest h
          have hget := base.get?_insert key image name
          simp only [get?] at hget
          by_cases hname : name = key
          · subst hname
            have hmissing : lookupEntry name rest = none :=
              lookupEntry_eq_none_of_forall_lt fun entry hentry => hhead entry hentry
            rw [if_pos rfl] at hget
            simp only [lookupEntry, ↓reduceIte, reduceCtorEq, false_implies, Option.some.injEq,
              forall_eq', true_and]
            exact ⟨image, himage, (hnone hmissing).trans hget⟩
          · rw [if_neg hname] at hget
            simp only [lookupEntry, hname, ↓reduceIte]
            exact ⟨fun hmissing => (hnone hmissing).trans hget, hsome⟩

theorem exists_absorb_eq_ok {f : String → α → Except ε β} {base : Fields β} {theirs : Fields α}
    (h : ∀ name a, theirs.get? name = some a → ∃ b, f name a = .ok b) :
    ∃ result, absorb f base theirs = .ok result := by
  have hentries : ∀ entry ∈ theirs.entries, ∃ b, f entry.1 entry.2 = .ok b :=
    fun entry hentry => h entry.1 entry.2 (get?_eq_some_iff.mpr hentry)
  rw [absorb]
  generalize theirs.entries = entries at hentries
  induction entries generalizing base with
  | nil => exact ⟨base, rfl⟩
  | cons head rest ih =>
      obtain ⟨image, himage⟩ := hentries head List.mem_cons_self
      have hrest : ∀ entry ∈ rest, ∃ b, f entry.1 entry.2 = .ok b :=
        fun entry hentry => hentries entry (List.mem_cons_of_mem _ hentry)
      obtain ⟨result, hresult⟩ := @ih (base.insert head.1 image) hrest
      refine ⟨result, ?_⟩
      rw [List.foldlM_cons, himage]
      exact hresult

/-- There is a record of finitely many fields with any given content. -/
theorem exists_get?_eq (f : String → Option α) (names : List String) :
    ∃ p : Fields α, ∀ name, p.get? name = if name ∈ names then f name else none := by
  induction names with
  | nil => exact ⟨empty, fun name => rfl⟩
  | cons key rest ih =>
      obtain ⟨p, hp⟩ := ih
      cases hkey : f key with
      | none =>
          refine ⟨p, fun name => ?_⟩
          by_cases hname : name = key
          · subst hname
            simp [hp, hkey]
          · simp [hp, hname]
      | some value =>
          refine ⟨p.insert key value, fun name => ?_⟩
          by_cases hname : name = key
          · subst hname
            simp [hkey]
          · simp [hp, hname]

end Fields

end Negotiation
