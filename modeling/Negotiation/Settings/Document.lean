import Negotiation.Report
import Negotiation.Settings
import Negotiation.Toml.Reader

/-!
Settings as a TOML document.

Every setting is a key of the document.  A key that is missing leaves the usual choice, and a key
that names no setting is passed over.
-/

namespace Negotiation

/-- The name that a value chooses: a text, or a table whose one key stands for nothing but its
name. -/
def Toml.choice? : Toml → Option String
  | .text name => some name
  | .table _ [(name, .table _ [])] => some name
  | .table _ [(name, .array [])] => some name
  | _ => none

/-- The rule of a name. -/
def OrphanRule.ofName? (name : String) : Option OrphanRule :=
  if name = OrphanRule.error.name then some .error
  else if name = OrphanRule.warn.name then some .warn
  else none

/-- What a document says under a key; without the key, the usual value. -/
def Toml.settingOr {α : Type} (usual : α) (read : Toml → Option α) (key : String)
    (entries : Toml.Entries) : Option α :=
  match Toml.find? entries key with
  | some value => read value
  | none => some usual

def Toml.boolean? : Toml → Option Bool
  | .boolean b => some b
  | _ => none

namespace Settings

/-- The settings that a document holds. -/
def ofEntries? (entries : Toml.Entries) : Option Settings := do
  let usual : Settings := default
  let flag := fun (usual : Bool) (key : String) =>
    Toml.settingOr usual Toml.boolean? key entries
  return {
    implicitRoots := ← flag usual.implicitRoots "implicit_roots"
    orphans := ← Toml.settingOr usual.orphans
      (fun value => value.choice?.bind OrphanRule.ofName?) "orphans" entries
    strictReachability := ← flag usual.strictReachability "strict_reachability"
    traceEvaluations := ← flag usual.traceEvaluations "trace_evaluations" }

/-- The settings that a text holds. -/
def parse (text : String) : Except Report Settings :=
  match (Toml.parse? text).bind ofEntries? with
  | some settings => .ok settings
  | none => .error (.settings .unreadableText)

/-- A line that gives a key a value. -/
def line (key written : String) : String :=
  key ++ " = " ++ written ++ "\n"

def writtenFlag (b : Bool) : String :=
  if b then "true" else "false"

/-- The document that holds settings, one line for each. -/
def render (s : Settings) : String :=
  line "implicit_roots" (writtenFlag s.implicitRoots) ++
  line "orphans" ("\"" ++ s.orphans.name ++ "\"") ++
  line "strict_reachability" (writtenFlag s.strictReachability) ++
  line "trace_evaluations" (writtenFlag s.traceEvaluations)

end Settings

end Negotiation
