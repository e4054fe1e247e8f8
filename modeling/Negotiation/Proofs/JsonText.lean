import Negotiation.Json.Reader
import Negotiation.Json.Writer
import Mathlib.Data.List.Basic
import Mathlib.Data.List.TakeDrop
import Mathlib.Tactic.IntervalCases

/-!
Reading back what is written.

Compact text is read back by the reader that passes over it: a text up to its closing quote, a
number up to what cannot continue it, and by induction on the document its items and members
(`Plain.readBack`).  So the compact text of a document holds that document and no other
(`Plain.parse?_compact`).  The documents are those that records are stored as: their texts are
sequences of characters, any at all, and their numbers natural numbers of any size.
-/

namespace Negotiation.Json

/-! ### Texts -/

theorem hexDigit?_digitChar {d : Nat} (h : d < 16) :
    Text.hexDigit? (Nat.digitChar d) = some d := by
  interval_cases d <;> rfl

theorem hexFour?_of_lt {n : Nat} (h : n < 65536) :
    hexFour? (Nat.digitChar (n / 4096 % 16)) (Nat.digitChar (n / 256 % 16))
      (Nat.digitChar (n / 16 % 16)) (Nat.digitChar (n % 16)) = some n := by
  have hdigits : 4096 * (n / 4096 % 16) + 256 * (n / 256 % 16) + 16 * (n / 16 % 16) + n % 16 =
      n := by omega
  simp [hexFour?, hexDigit?_digitChar (Nat.mod_lt _ (by decide : 0 < 16)), hdigits]

theorem readPieces_unit {code : Nat} (h : code < 65536) (rest : List Char) :
    readPieces (unitEscape code ++ rest) =
      (readPieces rest).map fun read => (.unit code :: read.1, read.2) := by
  simp only [unitEscape, hexFour, List.map_cons, List.map_nil, List.cons_append, List.nil_append,
    readPieces, hexFour?_of_lt h]
  cases readPieces rest <;> rfl

theorem readPieces_letter {letter c : Char} (hletter : letter ≠ 'u')
    (h : escaped? letter = some c) (rest : List Char) :
    readPieces ('\\' :: letter :: rest) =
      (readPieces rest).map fun read => (.char c :: read.1, read.2) := by
  rw [readPieces, h]
  · cases readPieces rest <;> rfl
  · exact fun _ _ _ _ _ heq => absurd heq hletter

theorem readPieces_char {c : Char} (hquote : c ≠ '\x22') (hslash : c ≠ '\\')
    (hcontrol : 32 ≤ c.toNat) (rest : List Char) :
    readPieces (c :: rest) = (readPieces rest).map fun read => (.char c :: read.1, read.2) := by
  rw [readPieces, if_neg (by simp [hslash, hcontrol])]
  · cases readPieces rest <;> rfl
  · exact hquote
  · exact fun _ _ _ _ _ heq => absurd heq hslash
  · exact fun _ _ heq => absurd heq hslash

/-- The piece by which a character is read back: a control character without a letter of its own
stands by its number. -/
def Piece.ofChar (c : Char) : Piece :=
  if escapeChar c = unitEscape c.toNat then .unit c.toNat else .char c

theorem readPieces_escapeChar (c : Char) (rest : List Char) :
    readPieces (escapeChar c ++ rest) =
      (readPieces rest).map fun read => (Piece.ofChar c :: read.1, read.2) := by
  unfold Piece.ofChar
  fun_cases escapeChar c with
  | case8 _ _ _ _ _ _ _ hcontrol =>
      rw [if_pos rfl]
      exact readPieces_unit (by omega) rest
  | case9 hquote hslash _ _ _ _ _ hcontrol =>
      rw [if_neg (by simp [unitEscape])]
      exact readPieces_char hquote hslash (Nat.le_of_not_lt hcontrol) rest
  | _ =>
      subst_vars
      rw [if_neg (by simp [unitEscape])]
      exact readPieces_letter (by decide) rfl rest

theorem readPieces_flatMap_escapeChar (cs rest : List Char) :
    readPieces (cs.flatMap escapeChar ++ '\x22' :: rest) = some (cs.map Piece.ofChar, rest) := by
  induction cs with
  | nil => simp [readPieces]
  | cons c cs ih =>
      rw [List.flatMap_cons, List.append_assoc, readPieces_escapeChar, ih]
      rfl

theorem joinPieces_unit {code : Nat} (h : code < 0xD800) (rest : List Piece) :
    joinPieces (.unit code :: rest) = (joinPieces rest).map (Char.ofNat code :: ·) := by
  have hhigh : isHighHalf code = false := by simp [isHighHalf, h]
  have hlow : isLowHalf code = false := by simp [isLowHalf]; omega
  match rest with
  | [] => simp [joinPieces, hhigh, hlow]
  | .char c :: rest => simp [joinPieces, hhigh, hlow, Function.comp_def]
  | .unit next :: rest => simp [joinPieces, hhigh, hlow]

theorem lt_of_escapeChar_eq_unitEscape {c : Char} (h : escapeChar c = unitEscape c.toNat) :
    c.toNat < 32 := by
  revert h
  fun_cases escapeChar c with
  | case8 _ _ _ _ _ _ _ hcontrol => exact fun _ => hcontrol
  | _ => simp [unitEscape]

theorem joinPieces_map_ofChar (cs : List Char) :
    joinPieces (cs.map Piece.ofChar) = some cs := by
  induction cs with
  | nil => rfl
  | cons c cs ih =>
      rw [List.map_cons, Piece.ofChar]
      split
      · rename_i hcode
        have hcontrol := lt_of_escapeChar_eq_unitEscape hcode
        rw [joinPieces_unit (by omega), ih, Char.ofNat_toNat]
        rfl
      · rw [joinPieces, ih]
        rfl

/-- A text is read back up to its closing quote. -/
theorem readContent_whole (s : String) (rest : List Char) :
    readContent ((Content.whole s).body ++ '\x22' :: rest) = some (.whole s, rest) := by
  rw [readContent, Content.body, readPieces_flatMap_escapeChar]
  simp [Content.ofPieces, joinPieces_map_ofChar]

/-! ### Numbers -/

/-- What may stand after a value: nothing, or what separates it from the next or closes what it
stands in. -/
def Stops : List Char → Prop
  | [] => True
  | c :: _ => c = ',' ∨ c = ']' ∨ c = '}'

theorem Stops.not_isDigit {rest : List Char} (h : Stops rest) : 
    rest.head?.any Char.isDigit = false := by
  cases rest with
  | nil => rfl
  | cons c cs => rcases h with rfl | rfl | rfl <;> rfl

theorem readDigits_append {digits rest : List Char} (hsome : digits ≠ [])
    (hdigits : ∀ c ∈ digits, c.isDigit = true) (hrest : Stops rest) :
    readDigits (digits ++ rest) = some (digits, rest) := by
  have hstop : rest.takeWhile Char.isDigit = [] ∧ rest.dropWhile Char.isDigit = rest := by
    cases rest with
    | nil => exact ⟨rfl, rfl⟩
    | cons c cs => rcases hrest with rfl | rfl | rfl <;> exact ⟨rfl, rfl⟩
  rw [readDigits, List.span_eq_takeWhile_dropWhile, List.takeWhile_append_of_pos hdigits,
    List.dropWhile_append_of_pos hdigits, hstop.1, hstop.2, List.append_nil]
  cases digits with
  | nil => exact absurd rfl hsome
  | cons c cs => rfl

theorem readWhole_zero {rest : List Char} (h : Stops rest) :
    readWhole ('0' :: rest) = some (['0'], rest) := by
  rw [readWhole, h.not_isDigit]
  rfl

/-- Decimal digits do not start with a zero, save for zero itself. -/
theorem head_toDigits_ne {n : Nat} (h : 0 < n) : (Nat.toDigits 10 n).head? ≠ some '0' := by
  induction n using Nat.strongRecOn with
  | ind n ih =>
      rw [Nat.toDigits_eq_if (by decide)]
      split
      · interval_cases n <;> decide
      · rename_i hlarge
        rw [List.head?_append_of_ne_nil _ Nat.toDigits_ne_nil]
        exact ih (n / 10) (by omega) (by omega)

theorem readWhole_toDigits (n : Nat) {rest : List Char} (h : Stops rest) :
    readWhole (Nat.toDigits 10 n ++ rest) = some (Nat.toDigits 10 n, rest) := by
  rcases Nat.eq_zero_or_pos n with rfl | hpos
  · exact readWhole_zero h
  · rw [readWhole]
    · exact readDigits_append Nat.toDigits_ne_nil
        (fun c hc => Nat.isDigit_of_mem_toDigits (by decide) (by decide) hc) h
    · intro tail heq
      apply head_toDigits_ne hpos
      rw [← List.head?_append_of_ne_nil _ Nat.toDigits_ne_nil, heq]
      rfl

theorem readUnsigned_toDigits (n : Nat) {rest : List Char} (h : Stops rest) :
    readUnsigned (Nat.toDigits 10 n ++ rest) = some (Nat.toDigits 10 n, rest) := by
  have hfraction : readFraction rest = some ([], rest) := by
    cases rest with
    | nil => rfl
    | cons c cs => rcases h with rfl | rfl | rfl <;> rfl
  have hexponent : readExponent rest = some ([], rest) := by
    cases rest with
    | nil => rfl
    | cons c cs => rcases h with rfl | rfl | rfl <;> rfl
  simp [readUnsigned, readWhole_toDigits n h, hfraction, hexponent]

/-- A decimal number is read back. -/
theorem readNumber_decimal (n : Nat) {rest : List Char} (h : Stops rest) :
    readNumber ((Text.decimal n).toList ++ rest) = some ((Text.decimal n).toList, rest) := by
  rw [Text.decimal, String.toList_ofList, readNumber]
  · exact readUnsigned_toDigits n h
  · intro tail heq
    have hhead : '-' ∈ Nat.toDigits 10 n := by
      apply List.mem_of_mem_head?
      rw [← List.head?_append_of_ne_nil _ Nat.toDigits_ne_nil, heq]
      rfl
    exact absurd (Nat.isDigit_of_mem_toDigits (by decide) (by decide) hhead) (by decide)

/-! ### Documents -/

/-- Documents of whole texts and natural numbers. -/
inductive Plain : Json → Prop
  | null : Plain null
  | bool (value : Bool) : Plain (bool value)
  | number (n : Nat) : Plain (ofNat n)
  | text (s : String) : Plain (ofString s)
  | array {items : List Json} (h : ∀ item ∈ items, Plain item) : Plain (array items)
  | object {members : List (String × Json)} (h : ∀ member ∈ members, Plain member.2) :
      Plain (ofMembers members)

theorem isBlank_eq_false_of_isDigit {c : Char} (h : c.isDigit = true) : isBlank c = false := by
  apply Bool.eq_false_of_not_eq_true
  intro hblank
  simp only [isBlank, Bool.or_eq_true, decide_eq_true_eq] at hblank
  rcases hblank with ((rfl | rfl) | rfl) | rfl <;> exact absurd h (by decide)

/-- The text of a number starts with a digit. -/
theorem exists_decimal_eq_cons (n : Nat) :
    ∃ c cs, (Text.decimal n).toList = c :: cs ∧ c.isDigit = true := by
  rw [Text.decimal, String.toList_ofList]
  obtain ⟨c, cs, hdigits⟩ := List.exists_cons_of_ne_nil (Nat.toDigits_ne_nil (n := n) (b := 10))
  have hmem : c ∈ Nat.toDigits 10 n := hdigits ▸ List.mem_cons_self
  exact ⟨c, cs, hdigits, Nat.isDigit_of_mem_toDigits (by decide) (by decide) hmem⟩

/-- The text of a document starts with neither a blank nor a closing bracket. -/
theorem Plain.exists_write_eq_cons {j : Json} (h : j.Plain) :
    ∃ c cs, j.write = c :: cs ∧ isBlank c = false ∧ c ≠ ']' := by
  cases h with
  | null => exact ⟨_, _, rfl, rfl, by decide⟩
  | bool value => cases value <;> exact ⟨_, _, rfl, rfl, by decide⟩
  | number n =>
      obtain ⟨c, cs, hwritten, hdigit⟩ := exists_decimal_eq_cons n
      refine ⟨c, cs, hwritten, isBlank_eq_false_of_isDigit hdigit, ?_⟩
      rintro rfl
      exact absurd hdigit (by decide)
  | text s => exact ⟨_, _, rfl, rfl, by decide⟩
  | array => exact ⟨_, _, rfl, rfl, by decide⟩
  | object => exact ⟨_, _, rfl, rfl, by decide⟩

theorem skipBlanks_cons {c : Char} (h : isBlank c = false) (cs : List Char) :
    skipBlanks (c :: cs) = c :: cs := by
  rw [skipBlanks, List.dropWhile_cons, h]
  rfl

/-- A document is read from its text, by as many nested readings as its length allows. -/
def ReadBack (j : Json) : Prop :=
  ∀ (fuel : Nat) (rest : List Char), 2 * j.write.length ≤ fuel → Stops rest →
    readValue (fuel + 1) (j.write ++ rest) = some (j, rest)

theorem readItems_writeItems {items : List Json} (hsome : items ≠ [])
    (h : ∀ item ∈ items, item.ReadBack) {fuel : Nat}
    (hfuel : 2 * (writeItems items).length ≤ fuel) (rest : List Char) :
    readItems (fuel + 2) (writeItems items ++ ']' :: rest) = some (items, rest) := by
  induction items generalizing fuel with
  | nil => exact absurd rfl hsome
  | cons item others ih =>
      have hitem := h item List.mem_cons_self fuel
      cases others with
      | nil =>
          rw [writeItems] at hfuel ⊢
          rw [readItems, hitem _ hfuel (by simp [Stops])]
          rfl
      | cons next others =>
          have hwritten : writeItems (item :: next :: others) =
              item.write ++ ',' :: writeItems (next :: others) := by simp [writeItems]
          rw [hwritten, List.length_append, List.length_cons] at hfuel
          obtain ⟨less, rfl⟩ : ∃ less, fuel = less + 1 := ⟨fuel - 1, by omega⟩
          have hothers := ih (List.cons_ne_nil _ _)
            (fun other hother => h other (List.mem_cons_of_mem _ hother))
            (by omega : _ ≤ less)
          rw [hwritten, List.append_assoc, readItems, hitem _ (by omega) (by simp [Stops])]
          simp [skipBlanks_cons, isBlank, hothers]

/-- Members whose names are sequences of characters. -/
def named (members : List (String × Json)) : List (Content × Json) :=
  members.map fun member => (.whole member.1, member.2)

/-- A member is read up to what follows it. -/
theorem readMembers_member {value : Json} (h : value.ReadBack) {fuel : Nat}
    (hfuel : 2 * value.write.length ≤ fuel) (name : String) {c : Char} {rest : List Char}
    (hstop : Stops (c :: rest)) :
    readMembers (fuel + 2) ((Content.whole name).write ++ ':' :: (value.write ++ c :: rest)) =
      if c = '}' then some ([(.whole name, value)], rest)
      else if c = ',' then
        (readMembers (fuel + 1) rest).map fun read => ((.whole name, value) :: read.1, read.2)
      else none := by
  have hname : (Content.whole name).write ++ ':' :: (value.write ++ c :: rest) =
      '\x22' :: ((Content.whole name).body ++ '\x22' :: ':' :: (value.write ++ c :: rest)) := by
    simp [Content.write]
  have hblank : skipBlanks (c :: rest) = c :: rest := by
    rcases hstop with rfl | rfl | rfl <;> exact skipBlanks_cons rfl _
  rw [hname, readMembers, skipBlanks_cons rfl]
  simp only [readContent_whole]
  rw [skipBlanks_cons rfl]
  simp only [h _ _ hfuel hstop, hblank]
  rcases hstop with rfl | rfl | rfl <;> rfl

theorem readMembers_writeMembers {members : List (String × Json)} (hsome : members ≠ [])
    (h : ∀ member ∈ members, member.2.ReadBack) {fuel : Nat}
    (hfuel : 2 * (writeMembers (named members)).length ≤ fuel) (rest : List Char) :
    readMembers (fuel + 2) (writeMembers (named members) ++ '}' :: rest) =
      some (named members, rest) := by
  induction members generalizing fuel with
  | nil => exact absurd rfl hsome
  | cons member others ih =>
      obtain ⟨name, value⟩ := member
      have hvalue : value.ReadBack := h (name, value) List.mem_cons_self
      cases others with
      | nil =>
          have hwritten : writeMembers (named [(name, value)]) =
              (Content.whole name).write ++ ':' :: value.write := by simp [named, writeMembers]
          rw [hwritten, List.length_append, List.length_cons] at hfuel
          rw [hwritten, List.append_assoc, List.cons_append,
            readMembers_member hvalue (by omega) name (by simp [Stops])]
          rfl
      | cons next others =>
          have hwritten : writeMembers (named ((name, value) :: next :: others)) =
              (Content.whole name).write ++ ':' ::
                (value.write ++ ',' :: writeMembers (named (next :: others))) := by
            simp [named, writeMembers]
          rw [hwritten, List.length_append, List.length_cons, List.length_append,
            List.length_cons] at hfuel
          obtain ⟨less, rfl⟩ : ∃ less, fuel = less + 1 := ⟨fuel - 1, by omega⟩
          have hothers := ih (List.cons_ne_nil _ _)
            (fun other hother => h other (List.mem_cons_of_mem _ hother))
            (by omega : _ ≤ less)
          rw [hwritten, List.append_assoc, List.cons_append, List.append_assoc, List.cons_append,
            readMembers_member hvalue (by omega) name (by simp [Stops]), hothers]
          rfl

theorem readValue_number {fuel : Nat} {c : Char} (h : c.isDigit = true) (cs : List Char) :
    readValue (fuel + 1) (c :: cs) =
      (readNumber (c :: cs)).map fun read => (.number (String.ofList read.1), read.2) := by
  have hne : ∀ d : Char, d.isDigit = false → c ≠ d := by
    rintro d hd rfl
    exact absurd h (by simp [hd])
  rw [readValue, skipBlanks_cons (isBlank_eq_false_of_isDigit h)]
  split <;> rename_i heq
  all_goals first | rfl | exact absurd (List.cons.inj heq).1 (hne _ rfl)

theorem readBack_number (n : Nat) : (ofNat n).ReadBack := by
  intro fuel rest _ hstop
  obtain ⟨c, cs, hwritten, hdigit⟩ := exists_decimal_eq_cons n
  have hread := readNumber_decimal n hstop
  rw [ofNat, write]
  rw [hwritten, List.cons_append] at hread ⊢
  rw [readValue_number hdigit, hread, ← hwritten, Option.map_some, String.ofList_toList]

theorem readValue_array {fuel : Nat} {c : Char} (hblank : isBlank c = false) (h : c ≠ ']')
    (cs : List Char) :
    readValue (fuel + 1) ('[' :: c :: cs) =
      (readItems fuel (c :: cs)).map fun read => (.array read.1, read.2) := by
  rw [readValue, skipBlanks_cons rfl]
  simp only [skipBlanks_cons hblank]
  split
  · rename_i heq
    exact absurd (List.cons.inj heq).1 h
  · rfl

theorem readValue_text {fuel : Nat} (s : String) (rest : List Char) :
    readValue (fuel + 1) ((Content.whole s).write ++ rest) = some (ofString s, rest) := by
  have hwritten : (Content.whole s).write ++ rest =
      '\x22' :: ((Content.whole s).body ++ '\x22' :: rest) := by simp [Content.write]
  rw [hwritten, readValue, skipBlanks_cons rfl]
  simp only [readContent_whole]
  rfl

theorem readValue_object {fuel : Nat} {c : Char} (hblank : isBlank c = false) (h : c ≠ '}')
    (cs : List Char) :
    readValue (fuel + 1) ('{' :: c :: cs) =
      (readMembers fuel (c :: cs)).map fun read => (.object read.1, read.2) := by
  rw [readValue, skipBlanks_cons rfl]
  simp only [skipBlanks_cons hblank]
  split
  · rename_i heq
    exact absurd (List.cons.inj heq).1 h
  · rfl

theorem exists_writeItems_eq_cons {item : Json} (h : item.Plain) (others : List Json) :
    ∃ c cs, writeItems (item :: others) = c :: cs ∧ isBlank c = false ∧ c ≠ ']' := by
  obtain ⟨c, cs, hwritten, hblank, hne⟩ := h.exists_write_eq_cons
  cases others with
  | nil => exact ⟨c, cs, by rw [writeItems, hwritten], hblank, hne⟩
  | cons next others => exact ⟨c, cs ++ ',' :: writeItems (next :: others),
      by simp [writeItems, hwritten], hblank, hne⟩

theorem readBack_array {items : List Json} (hitems : ∀ item ∈ items, item.Plain)
    (h : ∀ item ∈ items, item.ReadBack) : (array items).ReadBack := by
  intro fuel rest hfuel _
  have hwritten : (array items).write ++ rest = '[' :: (writeItems items ++ ']' :: rest) := by
    simp [write]
  rw [hwritten]
  cases items with
  | nil => rfl
  | cons item others =>
      simp only [write, List.length_append, List.length_cons] at hfuel
      obtain ⟨less, rfl⟩ : ∃ less, fuel = less + 2 := ⟨fuel - 2, by omega⟩
      have hread := readItems_writeItems (List.cons_ne_nil _ _) h (by omega : _ ≤ less) rest
      obtain ⟨c, cs, hhead, hblank, hne⟩ :=
        exists_writeItems_eq_cons (hitems item List.mem_cons_self) others
      rw [hhead, List.cons_append] at hread ⊢
      rw [readValue_array hblank hne, hread]
      rfl

theorem readBack_object {members : List (String × Json)}
    (h : ∀ member ∈ members, member.2.ReadBack) : (ofMembers members).ReadBack := by
  intro fuel rest hfuel _
  have hobject : (ofMembers members).write = '{' :: writeMembers (named members) ++ ['}'] := rfl
  have hwritten : (ofMembers members).write ++ rest =
      '{' :: (writeMembers (named members) ++ '}' :: rest) := by simp [hobject]
  rw [hwritten]
  cases members with
  | nil => rfl
  | cons member others =>
      simp only [hobject, List.length_append, List.length_cons] at hfuel
      obtain ⟨less, rfl⟩ : ∃ less, fuel = less + 2 := ⟨fuel - 2, by omega⟩
      have hread := readMembers_writeMembers (List.cons_ne_nil _ _) h (by omega : _ ≤ less) rest
      obtain ⟨cs, hhead⟩ : ∃ cs, writeMembers (named (member :: others)) = '\x22' :: cs := by
        cases others <;> exact ⟨_, rfl⟩
      rw [hhead, List.cons_append] at hread ⊢
      rw [readValue_object rfl (by decide), hread]
      rfl

/-- Every plain document is read from its text. -/
theorem Plain.readBack {j : Json} (h : j.Plain) : j.ReadBack := by
  induction h with
  | null => exact fun fuel rest _ _ => rfl
  | bool value => cases value <;> exact fun fuel rest _ _ => rfl
  | number n => exact readBack_number n
  | text s => exact fun fuel rest _ _ => readValue_text s rest
  | array hitems ih => exact readBack_array hitems ih
  | object _ ih => exact readBack_object ih

/-- The compact text of a plain document holds that document. -/
theorem Plain.parse?_compact {j : Json} (h : j.Plain) : parse? j.compact = some j := by
  have hread := h.readBack (2 * j.write.length + 1) [] (by omega) trivial
  rw [List.append_nil] at hread
  simp only [parse?, compact, String.toList_ofList, depthFor, hread]
  rfl

end Negotiation.Json
