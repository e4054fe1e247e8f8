import Negotiation.Text.Digits
import Negotiation.Toml.Basic

/-!
Reading single TOML values: texts, numbers, dates and times.

Readers take a list of characters and give what they read together with the rest, or nothing where
no such value stands.
-/

namespace Negotiation.Toml

def isSpace (c : Char) : Bool :=
  c = ' ' || c = '\x09'

def skipSpaces (cs : List Char) : List Char :=
  cs.dropWhile isSpace

/-- Pass over the end of a line, if one stands here. -/
def newline? : List Char → Option (List Char)
  | '\x0a' :: rest => some rest
  | '\x0d' :: '\x0a' :: rest => some rest
  | _ => none

/-- The characters that may stand on a line: all but the controls other than tab. -/
def isPlain (c : Char) : Bool :=
  c = '\x09' || (32 ≤ c.toNat && c.toNat ≠ 127)

/-! ### Texts -/

/-- The character whose code point stands in so many hexadecimal digits. -/
def readCodePoint (count : Nat) (cs : List Char) : Option (Char × List Char) := do
  let values ← (cs.take count).mapM Text.hexDigit?
  let n := values.foldl (fun n digit => 16 * n + digit) 0
  if values.length = count ∧ (n < 0xD800 ∨ (0xDFFF < n ∧ n < 0x110000)) then
    some (Char.ofNat n, cs.drop count)
  else none

/-- An escape, after its backslash. -/
def readEscape : List Char → Option (Char × List Char)
  | 'b' :: rest => some ('\x08', rest)
  | 't' :: rest => some ('\x09', rest)
  | 'n' :: rest => some ('\x0a', rest)
  | 'f' :: rest => some ('\x0c', rest)
  | 'r' :: rest => some ('\x0d', rest)
  | '\x22' :: rest => some ('\x22', rest)
  | '\\' :: rest => some ('\\', rest)
  | 'u' :: rest => readCodePoint 4 rest
  | 'U' :: rest => readCodePoint 8 rest
  | _ => none

/-- A text on one line with escapes, up to and over its closing quote. -/
def readBasic : Nat → List Char → Option (List Char × List Char)
  | 0, _ => none
  | fuel + 1, cs =>
      match cs with
      | [] => none
      | '\x22' :: rest => some ([], rest)
      | '\\' :: rest => do
          let (c, rest) ← readEscape rest
          let (body, rest) ← readBasic fuel rest
          return (c :: body, rest)
      | c :: rest =>
          if isPlain c then (readBasic fuel rest).map fun (body, rest) => (c :: body, rest)
          else none

/-- A text on one line without escapes, up to and over its closing apostrophe. -/
def readLiteral : List Char → Option (List Char × List Char)
  | [] => none
  | c :: rest =>
      if c = '\x27' then some ([], rest)
      else if isPlain c then (readLiteral rest).map fun (body, rest) => (c :: body, rest)
      else none

def skipSpacesAndLines : Nat → List Char → List Char
  | 0, cs => cs
  | fuel + 1, cs =>
      let cs := skipSpaces cs
      match newline? cs with
      | some rest => skipSpacesAndLines fuel rest
      | none => cs

/-- A backslash at the end of a line, after the backslash: it takes the end of the line and the
blanks that follow with it. -/
def joinedLines? (cs : List Char) : Option (List Char) :=
  (newline? (skipSpaces cs)).map fun rest => skipSpacesAndLines rest.length rest

/-- Where a run of quotes ends a text over several lines: at least three quotes, of which up to two
before the closing three still belong to the text. -/
def closing? (quote : Char) (cs : List Char) : Option (List Char × List Char) :=
  let run := (cs.takeWhile (· = quote)).length
  if run < 3 then none
  else
    let kept := min (run - 3) 2
    some (List.replicate kept quote, cs.drop (kept + 3))

/-- A text over several lines, up to and over its closing quotes. -/
def readLong (quote : Char) (escapes : Bool) : Nat → List Char → Option (List Char × List Char)
  | 0, _ => none
  | fuel + 1, cs =>
      match closing? quote cs with
      | some result => some result
      | none =>
          match newline? cs with
          | some rest =>
              (readLong quote escapes fuel rest).map fun (body, rest) => ('\x0a' :: body, rest)
          | none =>
              match cs with
              | [] => none
              | c :: rest =>
                  if c = '\\' ∧ escapes then
                    match joinedLines? rest with
                    | some rest => readLong quote escapes fuel rest
                    | none => do
                        let (c, rest) ← readEscape rest
                        let (body, rest) ← readLong quote escapes fuel rest
                        return (c :: body, rest)
                  else if isPlain c then
                    (readLong quote escapes fuel rest).map fun (body, rest) => (c :: body, rest)
                  else none

/-- A text over several lines, after its opening quotes; the end of a line right after them is not
part of the text. -/
def readLongBody (quote : Char) (escapes : Bool) (cs : List Char) :
    Option (List Char × List Char) :=
  let body := (newline? cs).getD cs
  readLong quote escapes (body.length + 1) body

/-- A text on one line, with or without escapes. -/
def readShortText : List Char → Option (String × List Char)
  | '\x22' :: rest =>
      (readBasic (rest.length + 1) rest).map fun (body, rest) => (String.ofList body, rest)
  | '\x27' :: rest => (readLiteral rest).map fun (body, rest) => (String.ofList body, rest)
  | _ => none

def readText : List Char → Option (String × List Char)
  | '\x22' :: '\x22' :: '\x22' :: rest =>
      (readLongBody '\x22' true rest).map fun (body, rest) => (String.ofList body, rest)
  | '\x27' :: '\x27' :: '\x27' :: rest =>
      (readLongBody '\x27' false rest).map fun (body, rest) => (String.ofList body, rest)
  | cs => readShortText cs

/-! ### Numbers -/

/-- Digits, any two of which may have one underscore between them. -/
def readRun (isDigit : Char → Bool) : List Char → Option (List Char × List Char)
  | [] => none
  | c :: rest =>
      if isDigit c then
        match rest with
        | '_' :: next => (readRun isDigit next).map fun (digits, rest) => (c :: digits, rest)
        | next =>
            match readRun isDigit next with
            | some (digits, rest) => some (c :: digits, rest)
            | none => some ([c], next)
      else none

/-- A sign, if there is one: whether the number is negative. -/
def readSign : List Char → Bool × List Char
  | '+' :: rest => (false, rest)
  | '-' :: rest => (true, rest)
  | cs => (false, cs)

/-- The whole part of a number: zero, or digits that do not start with zero. -/
def readWhole : List Char → Option (List Char × List Char)
  | '0' :: rest => some (['0'], rest)
  | cs => readRun Char.isDigit cs

/-- The number that digits of a base stand for. -/
def digitsIn (base : Nat) (digits : List Char) : Nat :=
  digits.foldl (fun n c => base * n + (Text.hexDigit? c).getD 0) 0

/-- A whole number without sign, in the base that its first characters name. -/
def readBased : List Char → Option (Nat × List Char)
  | '0' :: 'x' :: rest =>
      (readRun (fun c => (Text.hexDigit? c).isSome) rest).map fun (digits, rest) =>
        (digitsIn 16 digits, rest)
  | '0' :: 'o' :: rest =>
      (readRun (fun c => '0' ≤ c && c ≤ '7') rest).map fun (digits, rest) =>
        (digitsIn 8 digits, rest)
  | '0' :: 'b' :: rest =>
      (readRun (fun c => c = '0' || c = '1') rest).map fun (digits, rest) =>
        (digitsIn 2 digits, rest)
  | _ => none

/-- A whole number that fits into 64 bits with sign. -/
def readInteger (cs : List Char) : Option (Toml × List Char) :=
  let checked := fun (n : Int) (rest : List Char) =>
    if Int64.minValue.toInt ≤ n ∧ n ≤ Int64.maxValue.toInt then some (integer n, rest) else none
  match readBased cs with
  | some (n, rest) => checked n rest
  | none =>
      let (negative, unsigned) := readSign cs
      match readWhole unsigned with
      | some (digits, rest) =>
          let n : Int := digitsIn 10 digits
          checked (if negative then -n else n) rest
      | none => none

/-- The fraction of a number: a point and digits. -/
def readFraction : List Char → Option (List Char × List Char)
  | '.' :: rest => readRun Char.isDigit rest
  | _ => none

/-- The exponent of a number: a letter, a sign and digits. -/
def readExponent : List Char → Option (Int × List Char)
  | [] => none
  | c :: rest =>
      if c = 'e' ∨ c = 'E' then
        let (negative, rest) := readSign rest
        (readRun Char.isDigit rest).map fun (digits, rest) =>
          let n : Int := digitsIn 10 digits
          (if negative then -n else n, rest)
      else none

/-- Whether `mantissa * 10 ^ exponent`, rounded to binary64, is finite: it lies below the middle
between the largest finite number and the next power of two. -/
def isFinite (mantissa : Nat) (exponent : Int) : Bool :=
  let limit := Nat.pow 2 1024 - Nat.pow 2 970
  if mantissa = 0 then true
  else if (310 : Int) < exponent then false
  else if exponent < 0 then
    let shift := exponent.natAbs
    if (Nat.toDigits 10 mantissa).length ≤ shift then true else mantissa < limit * Nat.pow 10 shift
  else mantissa * Nat.pow 10 exponent.toNat < limit

/-- A decimal: a whole part and a fraction or an exponent or both.  One that is too large is
refused unless it is negative. -/
def readDecimal (cs : List Char) : Option (Toml × List Char) := do
  let (negative, unsigned) := readSign cs
  let (whole, rest) ← readWhole unsigned
  let (fraction, rest) ←
    match readFraction rest with
    | some result => some result
    | none => if rest.head?.any (fun c => c = 'e' || c = 'E') then some ([], rest) else none
  let (exponent, rest) ←
    match rest with
    | c :: _ => if c = 'e' ∨ c = 'E' then readExponent rest else some (0, rest)
    | [] => some (0, [])
  let mantissa := digitsIn 10 (whole ++ fraction)
  if negative ∨ isFinite mantissa (exponent - fraction.length) then
    return (decimal (String.ofList (cs.take (cs.length - rest.length))), rest)
  else none

/-- One of the decimals that stand for no number, with or without a sign. -/
def readSpecial (cs : List Char) : Option (Toml × List Char) :=
  let (_, unsigned) := readSign cs
  match unsigned with
  | 'i' :: 'n' :: 'f' :: rest => some (decimal "inf", rest)
  | 'n' :: 'a' :: 'n' :: rest => some (decimal "nan", rest)
  | _ => none

/-! ### Dates and times -/

/-- A number of exactly so many digits. -/
def readFixed (count : Nat) (cs : List Char) : Option (Nat × List Char) :=
  let digits := cs.take count
  if digits.length = count ∧ digits.all Char.isDigit then
    some (digitsIn 10 digits, cs.drop count)
  else none

def readChar (c : Char) : List Char → Option (List Char)
  | d :: rest => if d = c then some rest else none
  | [] => none

def isLeapYear (year : Nat) : Bool :=
  year % 4 = 0 && (year % 100 ≠ 0 || year % 400 = 0)

def daysOfMonth (year month : Nat) : Nat :=
  if month = 2 then (if isLeapYear year then 29 else 28)
  else if month = 4 ∨ month = 6 ∨ month = 9 ∨ month = 11 then 30
  else 31

/-- A date that exists: year, month and day with hyphens between them. -/
def readDate (cs : List Char) : Option (List Char) := do
  let (year, rest) ← readFixed 4 cs
  let (month, rest) ← readFixed 2 (← readChar '-' rest)
  let (day, rest) ← readFixed 2 (← readChar '-' rest)
  if 1 ≤ month ∧ month ≤ 12 ∧ 1 ≤ day ∧ day ≤ daysOfMonth year month then some rest else none

/-- The part of a time that is shorter than a second, if there is one. -/
def skipFraction (cs : List Char) : List Char :=
  match cs with
  | '.' :: rest =>
      if rest.head?.any Char.isDigit then rest.dropWhile Char.isDigit else cs
  | _ => cs

/-- Hours and minutes with a colon between them. -/
def readHourMinute (cs : List Char) : Option (List Char) := do
  let (hour, rest) ← readFixed 2 cs
  let (minute, rest) ← readFixed 2 (← readChar ':' rest)
  if hour < 24 ∧ minute < 60 then some rest else none

/-- A time of day; a minute may have a leap second. -/
def readTime (cs : List Char) : Option (List Char) := do
  let (second, rest) ← readFixed 2 (← readChar ':' (← readHourMinute cs))
  if second ≤ 60 then some (skipFraction rest) else none

/-- The offset of a time from the common time, if there is one. -/
def skipOffset (cs : List Char) : List Char :=
  match cs with
  | 'Z' :: rest => rest
  | 'z' :: rest => rest
  | '+' :: rest => (readHourMinute rest).getD cs
  | '-' :: rest => (readHourMinute rest).getD cs
  | _ => cs

/-- A date, and after it a time with or without an offset, if there is one. -/
def readDateTime (cs : List Char) : Option (List Char) := do
  let rest ← readDate cs
  match rest with
  | c :: time =>
      if c = 'T' ∨ c = 't' ∨ c = ' ' then
        match readTime time with
        | some afterTime => some (skipOffset afterTime)
        | none => some rest
      else some rest
  | [] => some []

/-- A date, a time, or both. -/
def readMoment (cs : List Char) : Option (Toml × List Char) :=
  ((readDateTime cs).or (readTime cs)).map fun rest =>
    (moment (String.ofList (cs.take (cs.length - rest.length))), rest)

/-- A number, a date or a time. -/
def readNumeric (cs : List Char) : Option (Toml × List Char) :=
  (((readMoment cs).or (readDecimal cs)).or (readSpecial cs)).or (readInteger cs)

end Negotiation.Toml
