import Negotiation.Json.Record
import Negotiation.Proofs.JsonText

/-!
Stored records come back.

What is stored of a record is a plain document, and the record is read from that document:
`Json.Keeps` says both of one record, and every type has its lemma.  With the text of a plain
document read back as that document, a record is the one that its stored text is read as.
-/

namespace Negotiation

namespace Json

variable {α : Type} {toJson : α → Json} {ofJson? : Json → Option α}

/-- A record is kept: it is written as a plain document, and read from that document. -/
structure Keeps (toJson : α → Json) (ofJson? : Json → Option α) (a : α) : Prop where
  plain : (toJson a).Plain
  read : ofJson? (toJson a) = some a

/-- A record that is kept is the one that its stored text is read as. -/
theorem Keeps.parse?_bind {a : α} (h : Keeps toJson ofJson? a) :
    (parse? (toJson a).compact).bind ofJson? = some a := by
  rw [h.plain.parse?_compact]
  exact h.read

theorem mapM_map_eq_some {β : Type} {write : α → β} {read? : β → Option α} {as : List α}
    (h : ∀ a ∈ as, read? (write a) = some a) : (as.map write).mapM read? = some as := by
  induction as with
  | nil => rfl
  | cons a others ih =>
      have hothers := ih fun other hother => h other (List.mem_cons_of_mem _ hother)
      rw [List.map_cons, List.mapM_cons, h a List.mem_cons_self, hothers]
      rfl

theorem plain_array_map {as : List α} (h : ∀ a ∈ as, Keeps toJson ofJson? a) :
    (array (as.map toJson)).Plain := by
  apply Plain.array
  intro item hitem
  obtain ⟨a, ha, rfl⟩ := List.mem_map.mp hitem
  exact (h a ha).plain

/-! ### Numbers -/

theorem digitsValue_toDigits (n : Nat) : digitsValue (Nat.toDigits 10 n) = n :=
  Nat.ofDigitChars_ten_toDigits

/-- A natural number below a bound is read as itself. -/
theorem natBelow?_ofNat {n bound : Nat} (h : n < bound) : (ofNat n).natBelow? bound = some n := by
  have hdigits : (Nat.toDigits 10 n).all Char.isDigit = true :=
    List.all_eq_true.mpr fun _ hc => Nat.isDigit_of_mem_toDigits (by decide) (by decide) hc
  rw [ofNat, natBelow?, Text.decimal, String.toList_ofList]
  rw [if_pos ⟨hdigits, by rwa [digitsValue_toDigits]⟩, digitsValue_toDigits]

theorem keeps_word (n : UInt64) : Keeps (fun n : UInt64 => ofNat n.toNat) word? n where
  plain := .number _
  read := by rw [word?, natBelow?_ofNat n.toNat_lt, Option.map_some, UInt64.ofNat_toNat]

/-! ### Records -/

theorem members?_ofMembers (members : List (String × Json)) :
    (ofMembers members).members? = some members := by
  rw [ofMembers, members?, List.mapM_map]
  exact (List.mapM_pure (m := Option) (l := members) (f := id)).trans (by rw [List.map_id]; rfl)

theorem filter_name_of_mem {members : List (String × Json)}
    (hnames : (members.map Prod.fst).Nodup) {name : String} {value : Json}
    (h : (name, value) ∈ members) :
    (members.filter fun member => member.1 = name) = [(name, value)] := by
  induction members with
  | nil => cases h
  | cons member others ih =>
      obtain ⟨hnew, hothers⟩ := List.nodup_cons.mp hnames
      have hdistinct : ∀ other ∈ others, other.1 ≠ member.1 :=
        fun other hother heq => hnew (heq ▸ List.mem_map_of_mem hother)
      rcases List.mem_cons.mp h with rfl | hmem
      · rw [List.filter_cons_of_pos (by simp), List.filter_eq_nil_iff.mpr]
        intro other hother
        simpa using hdistinct other hother
      · rw [List.filter_cons_of_neg, ih hothers hmem]
        simpa using (hdistinct _ hmem).symm

theorem member?_of_mem {members : List (String × Json)} (hnames : (members.map Prod.fst).Nodup)
    {name : String} {value : Json} (h : (name, value) ∈ members) (absent : Option Json) :
    member? members name absent = some value := by
  rw [member?, filter_name_of_mem hnames h]

/-- A record is read as the values of its fields, where these stand under their names in order. -/
theorem fields?_ofMembers {names : List (String × Option Json)} {members : List (String × Json)}
    (hnames : (names.map Prod.fst).Nodup) (hsame : names.map Prod.fst = members.map Prod.fst) :
    (ofMembers members).fields? names = some (members.map Prod.snd) := by
  rw [hsame] at hnames
  suffices hpart : ∀ part : List (String × Json), part ⊆ members →
      names.map Prod.fst = part.map Prod.fst →
      (names.mapM fun field => member? members field.1 field.2) = some (part.map Prod.snd) by
    have hread := hpart members (List.Subset.refl _) hsame
    change ((ofMembers members).members?.bind fun members =>
      names.mapM fun field => member? members field.1 field.2) = _
    rw [members?_ofMembers]
    exact hread
  clear hsame
  induction names with
  | nil =>
      intro part _ hsame
      rw [List.map_eq_nil_iff.mp hsame.symm]
      rfl
  | cons field others ih =>
      intro part hpart hsame
      obtain ⟨member, rest, rfl, hname, hrest⟩ := List.map_eq_cons_iff.mp hsame.symm
      have hvalue : member? members field.1 field.2 = some member.2 :=
        member?_of_mem hnames (hname ▸ hpart List.mem_cons_self) field.2
      have hothers := ih rest (fun _ hmem => hpart (List.mem_cons_of_mem _ hmem)) hrest.symm
      rw [List.mapM_cons, hvalue, hothers]
      rfl

end Json

open Json (Keeps ofMembers ofNat)

theorem Kind.keeps (k : Kind) : Keeps toJson ofJson? k where
  plain := .text _
  read := by cases k <;> rfl

theorem Side.keeps (s : Side) : Keeps toJson ofJson? s where
  plain := .text _
  read := by cases s <;> rfl

/-! ### Values -/

theorem Window.keeps (w : Window) : Keeps toJson ofJson? w where
  plain := .object (List.forall_mem_cons.mpr
    ⟨.number _, List.forall_mem_singleton.mpr (.number _)⟩)
  read := by
    rw [ofJson?, toJson, Json.fields?_ofMembers (by decide) rfl]
    simp [(Json.keeps_word _).read]

theorem WindowSet.keeps (s : WindowSet) : Keeps toJson ofJson? s where
  plain := Json.plain_array_map fun w _ => w.keeps
  read := by
    have hwindows : (s.windows.map Window.toJson).mapM Window.ofJson? = some s.windows :=
      Json.mapM_map_eq_some fun w _ => w.keeps.read
    simp [ofJson?, toJson, Json.items?, hwindows]

theorem NumberSet.ofList_members (s : NumberSet) : ofList s.members = s :=
  ext_mem fun _ => mem_ofList

namespace Value

theorem spanOfJson?_ofMembers (lo hi : UInt64) :
    spanOfJson? (ofMembers [("lo", ofNat lo.toNat), ("hi", ofNat hi.toNat)]) =
      some (span lo hi) := by
  rw [spanOfJson?, Json.fields?_ofMembers (by decide) rfl]
  simp [(Json.keeps_word _).read]

/-- A value is kept if its content is plain, and read under the name of its form. -/
theorem keeps_of_content {v : Value} {name : String} {content : Json}
    (hjson : v.toJson = ofMembers [(name, content)]) (hplain : content.Plain)
    (hread : ofMember? name content = some v) : Keeps toJson ofJson? v where
  plain := hjson ▸ .object (List.forall_mem_singleton.mpr hplain)
  read := hjson ▸ hread

/-- Every value is kept as it is: a set without members, an interval whose ends stand the wrong
way round, windows in any order. -/
theorem keeps (v : Value) : Keeps toJson ofJson? v := by
  have hword := fun n => (Json.keeps_word n).read
  cases v with
  | num n =>
      apply keeps_of_content rfl (.number _)
      simp [ofMember?, hword]
  | oneOf set =>
      apply keeps_of_content rfl (Json.plain_array_map fun n _ => Json.keeps_word n)
      have hmembers : (set.members.map fun n => ofNat n.toNat).mapM Json.word? =
        some set.members := Json.mapM_map_eq_some fun n _ => hword n
      simp [ofMember?, Json.items?, hmembers, NumberSet.ofList_members]
  | span lo hi =>
      apply keeps_of_content rfl
      · exact .object (List.forall_mem_cons.mpr
          ⟨.number _, List.forall_mem_singleton.mpr (.number _)⟩)
      · simp [ofMember?, spanOfJson?_ofMembers]
  | sym s =>
      apply keeps_of_content rfl (.text s)
      simp [ofMember?, Json.string?, Json.ofString]
  | flag b =>
      apply keeps_of_content rfl (.bool b)
      simp [ofMember?, Json.bool?]
  | addr set =>
      apply keeps_of_content rfl set.keeps.plain
      simp [ofMember?, set.keeps.read]

end Value

/-! ### Records of fields -/

namespace Fields

variable {α : Type}

theorem get?_foldl_insert {fields : List (String × α)} (h : Ascending fields) (base : Fields α)
    (name : String) :
    (fields.foldl (fun p field => p.insert field.1 field.2) base).get? name =
      (lookupEntry name fields).or (base.get? name) := by
  induction fields generalizing base with
  | nil => rfl
  | cons field others ih =>
      obtain ⟨key, value⟩ := field
      obtain ⟨hbelow, hothers⟩ := List.pairwise_cons.mp h
      rw [List.foldl_cons, ih hothers, get?_insert, lookupEntry]
      split
      · rename_i heq
        subst heq
        rw [lookupEntry_eq_none_of_forall_lt hbelow]
        rfl
      · rfl

theorem ofList_entries (p : Fields α) : ofList p.entries = p := by
  apply ext_get?
  intro name
  rw [ofList, get?_foldl_insert p.ascending, get?_empty, Option.or_none, get?]

/-- A record of fields is kept if the values of its fields are. -/
theorem keeps {field : α → Json} {field? : Json → Option α} (h : ∀ v, Keeps field field? v)
    (p : Fields α) : Keeps (toJsonWith field) (ofJsonWith? field?) p where
  plain := by
    apply Json.Plain.object
    intro member hmember
    obtain ⟨entry, _, rfl⟩ := List.mem_map.mp hmember
    exact (h entry.2).plain
  read := by
    have hentries : (p.entries.map fun entry => (entry.1, field entry.2)).mapM
        (fun member => (field? member.2).map fun v => (member.1, v)) = some p.entries :=
      Json.mapM_map_eq_some fun entry _ => by rw [(h entry.2).read]; rfl
    simp [ofJsonWith?, toJsonWith, Json.members?_ofMembers, hentries, ofList_entries]

end Fields

theorem Parameter.keeps (p : Parameter) : Keeps Parameter.toJson Parameter.ofJson? p :=
  Fields.keeps Value.keeps p

theorem Schema.keeps (s : Schema) : Keeps Schema.toJson Schema.ofJson? s :=
  Fields.keeps Kind.keeps s

theorem Signature.keeps (s : Signature) : Keeps toJson ofJson? s where
  plain := .object (List.forall_mem_cons.mpr ⟨.text _, List.forall_mem_cons.mpr
    ⟨(Schema.keeps _).plain, List.forall_mem_singleton.mpr (Schema.keeps _).plain⟩⟩)
  read := by
    rw [ofJson?, toJson, Json.fields?_ofMembers (by decide) rfl]
    simp [Json.string?, Json.ofString, (Schema.keeps _).read]

/-! ### Ports -/

theorem Cardinality.maxOfJson?_ofNat (max : UInt64) :
    maxOfJson? (ofNat max.toNat) = some (some max.toNat) := by
  change ((ofNat max.toNat).natBelow? UInt64.size).map some = _
  rw [Json.natBelow?_ofNat max.toNat_lt]
  rfl

/-- A cardinality whose bounds have 64 bits is kept, with or without a maximum. -/
theorem Cardinality.keeps (min : UInt64) (max : Option UInt64) :
    Keeps toJson ofJson? ⟨min.toNat, max.map UInt64.toNat⟩ where
  plain := .object (List.forall_mem_cons.mpr ⟨.number _, List.forall_mem_singleton.mpr (by
    cases max with
    | none => exact .null
    | some max => exact .number _)⟩)
  read := by
    rw [ofJson?, toJson, Json.fields?_ofMembers (by decide) rfl]
    cases max with
    | none => simp [Json.natBelow?_ofNat min.toNat_lt, maxOfJson?]
    | some max => simp [Json.natBelow?_ofNat min.toNat_lt, maxOfJson?_ofNat]

/-- A port whose node has 32 bits and whose index has 16 bits is kept. -/
theorem Port.keeps (node : UInt32) (side : Side) (index : UInt16) :
    Keeps toJson ofJson? ⟨⟨node.toNat⟩, side, index.toNat⟩ where
  plain := .object (List.forall_mem_cons.mpr ⟨.number _, List.forall_mem_cons.mpr
    ⟨side.keeps.plain, List.forall_mem_singleton.mpr (.number _)⟩⟩)
  read := by
    rw [ofJson?, toJson, Json.fields?_ofMembers (by decide) rfl]
    simp [NodeId.toJson, NodeId.ofJson?, Json.natBelow?_ofNat node.toNat_lt,
      Json.natBelow?_ofNat index.toNat_lt, side.keeps.read]

/-- Parameters, schemas, signatures, cardinalities and ports are what their stored texts are read
as: whatever characters their names and symbols have, whatever form their values are in, and
whatever numbers they hold, bounds of 64 bits, nodes of 32 and port indices of 16. -/
theorem stored_texts_read_back :
    (∀ p : Parameter,
      (Json.parse? (Parameter.toJson p).compact).bind Parameter.ofJson? = some p) ∧
    (∀ s : Schema, (Json.parse? (Schema.toJson s).compact).bind Schema.ofJson? = some s) ∧
    (∀ s : Signature, (Json.parse? s.toJson.compact).bind Signature.ofJson? = some s) ∧
    (∀ (min : UInt64) (max : Option UInt64),
      (Json.parse? (Cardinality.mk min.toNat (max.map UInt64.toNat)).toJson.compact).bind
        Cardinality.ofJson? = some ⟨min.toNat, max.map UInt64.toNat⟩) ∧
    ∀ (node : UInt32) (side : Side) (index : UInt16),
      (Json.parse? (Port.mk ⟨node.toNat⟩ side index.toNat).toJson.compact).bind Port.ofJson? =
        some ⟨⟨node.toNat⟩, side, index.toNat⟩ := by
  refine ⟨?_, ?_, ?_, ?_, ?_⟩
  · intro p
    exact (Parameter.keeps p).parse?_bind
  · intro s
    exact (Schema.keeps s).parse?_bind
  · intro s
    exact s.keeps.parse?_bind
  · intro min max
    exact (Cardinality.keeps min max).parse?_bind
  · intro node side index
    exact (Port.keeps node side index).parse?_bind

end Negotiation
