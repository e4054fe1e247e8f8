/-!
A tree of files and folders, as a value.

A place in the tree is the list of names that lead to it from the folder at the top, which is
always there.  A path is a text: parts with slashes between them.  An empty part and a single point
stay in the folder they stand in, two points lead out of it, and any other part is a name.  Of the
folders above the top nothing is known but that they are there; their places are rows of double
points.  A path that starts with a slash leads out of the tree.
-/

namespace Negotiation

/-- What stands at a place. -/
inductive FileTree.Entry where
  | file (text : String)
  | folder
deriving DecidableEq

/-- The places below the top at which something stands; the first entry of a place counts. -/
structure FileTree where
  entries : List (List String × FileTree.Entry)

namespace FileTree

def empty : FileTree := ⟨[]⟩

/-! ### Places -/

/-- Whether a place is the top, or a folder above it. -/
def isAbove (place : List String) : Bool :=
  place.all (· = "..")

/-- The place of the folder around a folder. -/
def around (place : List String) : List String :=
  if isAbove place then place ++ [".."] else place.dropLast

def at? (t : FileTree) (place : List String) : Option Entry :=
  if isAbove place then some .folder else t.entries.lookup place

def put (t : FileTree) (place : List String) (entry : Entry) : FileTree :=
  ⟨(place, entry) :: t.entries⟩

/-! ### Paths -/

/-- The parts of a text between its slashes. -/
def slashParts : List Char → List (List Char)
  | [] => [[]]
  | c :: rest =>
      if c = '/' then [] :: slashParts rest
      else
        match slashParts rest with
        | part :: parts => (c :: part) :: parts
        | [] => [[c]]

def parts (path : String) : List String :=
  (slashParts path.toList).map String.ofList

/-- How many bytes a path may have. -/
def pathLimit : Nat := 4095

/-- How many bytes a name may have. -/
def nameLimit : Nat := 255

/-- Whether a path can be looked up at all: it is not too long, and no character of it is zero. -/
def isUsable (path : String) : Bool :=
  path.utf8ByteSize ≤ pathLimit && path.toList.all (· ≠ '\x00')

/-- Whether a part of a path stays where it is. -/
def isIdle (part : String) : Bool :=
  part = "" || part = "."

/-- Whether a part of a path is a name. -/
def isName (part : String) : Bool :=
  !isIdle part && part ≠ ".."

/-- Where parts of a path lead. -/
inductive Way where
  /-- To a folder. -/
  | to (place : List String)
  /-- To where nothing stands. -/
  | missing
  /-- Nowhere: through a file, by a name that is too long, or out of the tree. -/
  | blocked
deriving DecidableEq

/-- Where parts lead from a folder. -/
def follow (t : FileTree) (here : List String) : List String → Way
  | [] => .to here
  | part :: rest =>
      if isIdle part then t.follow here rest
      else if part = ".." then t.follow (around here) rest
      else if nameLimit < part.utf8ByteSize then .blocked
      else
        match t.at? (here ++ [part]) with
        | some .folder => t.follow (here ++ [part]) rest
        | some (.file _) => .blocked
        | none => .missing

/-- Where parts lead from the top; an empty first part stands for a slash at the start. -/
def followTop (t : FileTree) (parts : List String) : Way :=
  if parts.head? = some "" then .blocked else t.follow [] parts

/-! ### Files -/

/-- The place of a file, where its folder exists and its path ends in a name. -/
def place? (t : FileTree) (path : String) : Option (List String) := do
  let parts := parts path
  let name ← parts.getLast?
  match t.followTop parts.dropLast with
  | .to here =>
      if isUsable path && isName name && name.utf8ByteSize ≤ nameLimit then some (here ++ [name])
      else none
  | _ => none

def read? (t : FileTree) (path : String) : Option String := do
  match t.at? (← t.place? path) with
  | some (.file text) => some text
  | _ => none

/-- Write a file into a folder that exists, new or in place of an old one. -/
def write? (t : FileTree) (path text : String) : Option FileTree := do
  let place ← t.place? path
  match t.at? place with
  | some .folder => none
  | _ => some (t.put place (.file text))

/-! ### Folders -/

/-- What comes of making a folder. -/
inductive Making where
  /-- The folder is there now, or was before. -/
  | done (t : FileTree)
  /-- The folder around it is missing. -/
  | missing
  /-- There can be no such folder. -/
  | refused

/-- Make a folder by a name in a folder. -/
def makeAt (t : FileTree) (here : List String) (name : String) : Making :=
  if !isName name then .done t
  else if nameLimit < name.utf8ByteSize then .refused
  else
    match t.at? (here ++ [name]) with
    | some .folder => .done t
    | some (.file _) => .refused
    | none => .done (t.put (here ++ [name]) .folder)

/-- Make the folder of a path, given by its parts from the last to the first. -/
def makeFolder (t : FileTree) : List String → Making
  | [] => .done t
  | last :: before =>
      if isUsable (String.intercalate "/" (last :: before).reverse) then
        match t.followTop before.reverse with
        | .to here => t.makeAt here last
        | .missing => .missing
        | .blocked => .refused
      else .refused

/-- Make the first of several folders, each of which lies in the next; only where that is missing
is it made before. -/
def makeFolders (t : FileTree) : List (List String) → Bool × FileTree
  | [] => (true, t)
  | folder :: outer =>
      match t.makeFolder folder with
      | .done t => (true, t)
      | .refused => (false, t)
      | .missing =>
          match t.makeFolders outer with
          | (false, t) => (false, t)
          | (true, t) =>
              match t.makeFolder folder with
              | .done t => (true, t)
              | _ => (false, t)

/-- A path without its idle end, the path of the folder around that, and so on; each given by its
parts from the last to the first.  A single point at the start of a path counts as a step. -/
def ancestors : List String → List (List String)
  | [] => []
  | part :: before =>
      if part = "" || (part = "." && !before.isEmpty) then ancestors before
      else (part :: before) :: ancestors before

/-- Make the folder of a file, and those around it that are missing. -/
def prepare (t : FileTree) (path : String) : Bool × FileTree :=
  t.makeFolders (ancestors (parts path).reverse).tail

end FileTree

end Negotiation
