import Negotiation.Text.Quoted
import Negotiation.Violation

/-!
Reports: one type for whatever can fail, with the context in which it failed.
-/

namespace Negotiation

/-- What is wrong with stored settings. -/
inductive SettingsFault where
  /-- The words of a caller. -/
  | said (text : String)
  /-- The text is not a settings file. -/
  | unreadableText
  /-- The folder of the file cannot be made. -/
  | noFolder
  /-- The file cannot be read. -/
  | unreadableFile (path : String)
  /-- The file cannot be written. -/
  | unwritableFile (path : String)
deriving DecidableEq

def SettingsFault.message : SettingsFault → String
  | said text => text
  | unreadableText => "Failed to parse config: "
  | noFolder => "Failed to create config directory: "
  | unreadableFile path => "Failed to read config file " ++ Text.quoted path ++ ": "
  | unwritableFile path => "Failed to write config file " ++ Text.quoted path ++ ": "

/-- A failure of any part, within contexts. -/
inductive Report where
  | graph (error : GraphError)
  | validation (violations : List Violation)
  | settings (fault : SettingsFault)
  | io (text : String)
  | serialization (text : String)
  | within (context : String) (report : Report)
deriving DecidableEq

namespace Report

/-- Put a failure into one context after another, the first innermost. -/
def inContexts (report : Report) (contexts : List String) : Report :=
  contexts.foldl (fun report context => within context report) report

/-- The failure without its contexts. -/
def root : Report → Report
  | within _ report => report.root
  | report => report

/-- The wording of a report, contexts first. -/
def message : Report → String
  | graph error => "Graph error: " ++ error.message
  | validation violations => "Validation failed: " ++ Violation.summary violations
  | settings fault => "Configuration error: " ++ fault.message
  | io text => "IO error: " ++ text
  | serialization text => "Serialization error: " ++ text
  | within context report => context ++ ": " ++ report.message

/-- The wordings of what a report wraps, outermost first. -/
def sources : Report → List String
  | graph error => [error.message]
  | validation violations => [Violation.summary violations]
  | io text => [text]
  | settings _ | serialization _ => []
  | within _ report => report.message :: report.sources

end Report

end Negotiation
