/-!
TOML documents: values, and the rules by which tables grow.

A table remembers how it came to be, because that decides what may still be added to it: a table
between braces is closed, a table with a header of its own takes what stands under the header, a
table that was only part of a longer header may get its own header once, and a table that was made
by a dotted key takes further dotted keys.
-/

namespace Negotiation

/-- How a table came to be. -/
inductive Toml.Origin where
  /-- Written between braces. -/
  | inline
  /-- Opened by its header. -/
  | opened
  /-- Part of a longer header. -/
  | implied
  /-- Part of a dotted key. -/
  | dotted
deriving DecidableEq

inductive Toml where
  | text (s : String)
  | boolean (b : Bool)
  | integer (n : Int)
  | decimal (written : String)
  | moment (written : String)
  | array (items : List Toml)
  | table (origin : Toml.Origin) (entries : List (String × Toml))
  /-- Tables of one header in double brackets, in order. -/
  | tables (tables : List (List (String × Toml)))

namespace Toml

instance : Inhabited Toml := ⟨boolean false⟩

/-- The entries of a table. -/
abbrev Entries := List (String × Toml)

def find? (entries : Entries) (key : String) : Option Toml :=
  entries.lookup key

/-- Put a value in place of the value of a key, or at the end. -/
def put (entries : Entries) (key : String) (value : Toml) : Entries :=
  match entries with
  | [] => [(key, value)]
  | (other, old) :: rest =>
      if other = key then (key, value) :: rest else (other, old) :: put rest key value

/-- Change the last table of several. -/
def changeLast (change : Entries → Option Entries) : List Entries → Option (List Entries)
  | [] => none
  | [last] => (change last).map ([·])
  | first :: rest => (changeLast change rest).map (first :: ·)

def addNew (entries : Entries) (key : String) (value : Toml) : Option Entries :=
  match find? entries key with
  | some _ => none
  | none => some (put entries key value)

/-- Add a value under a dotted key.  The tables on the way are made where they are missing; the
one that takes the value must itself belong to a dotted key, and none on the way may have a header
of its own or stand between braces. -/
def addDotted (value : Toml) : List String → Entries → Option Entries
  | [], _ => none
  | [key], entries => addNew entries key value
  | step :: rest, entries =>
      match find? entries step with
      | none =>
          (addDotted value rest []).map fun inner => put entries step (.table .dotted inner)
      | some (.table .dotted inner) =>
          (addDotted value rest inner).map fun inner => put entries step (.table .dotted inner)
      | some (.table .implied inner) =>
          if rest.length = 1 then none
          else
            (addDotted value rest inner).map fun inner => put entries step (.table .implied inner)
      | some (.tables all) =>
          if rest.length = 1 then none
          else (changeLast (addDotted value rest) all).map fun all => put entries step (.tables all)
      | _ => none

/-- Change the table that a path of headers leads to; several tables stand for their last, and the
tables on the way are made where they are missing. -/
def changeAt (change : Entries → Option Entries) : List String → Entries → Option Entries
  | [], entries => change entries
  | step :: rest, entries =>
      match find? entries step with
      | none =>
          (changeAt change rest []).map fun inner => put entries step (.table .implied inner)
      | some (.table .inline _) => none
      | some (.table origin inner) =>
          (changeAt change rest inner).map fun inner => put entries step (.table origin inner)
      | some (.tables all) =>
          (changeLast (changeAt change rest) all).map fun all => put entries step (.tables all)
      | some _ => none

/-- Open the table of a header: it is new, or was only implied so far. -/
def openTable (key : String) (entries : Entries) : Option Entries :=
  match find? entries key with
  | none => some (put entries key (.table .opened []))
  | some (.table .implied inner) => some (put entries key (.table .opened inner))
  | some _ => none

/-- Open one more of the tables of a header in double brackets. -/
def openNext (key : String) (entries : Entries) : Option Entries :=
  match find? entries key with
  | none => some (put entries key (.tables [[]]))
  | some (.tables all) => some (put entries key (.tables (all ++ [[]])))
  | some _ => none

/-- A document as far as it was read: its entries, and the path of the last header. -/
structure Document where
  entries : Entries
  path : List String

namespace Document

/-- Nothing was read yet. -/
def blank : Document := ⟨[], []⟩

/-- Add a value under the last header. -/
def add (d : Document) (keys : List String) (value : Toml) : Option Document :=
  (changeAt (addDotted value keys) d.path d.entries).map fun entries => ⟨entries, d.path⟩

def header (d : Document) (keys : List String) : Option Document := do
  let last ← keys.getLast?
  let entries ← changeAt (openTable last) keys.dropLast d.entries
  return ⟨entries, keys⟩

/-- The header of one of several tables. -/
def nextHeader (d : Document) (keys : List String) : Option Document := do
  let last ← keys.getLast?
  let entries ← changeAt (openNext last) keys.dropLast d.entries
  return ⟨entries, keys⟩

end Document

end Toml

end Negotiation
