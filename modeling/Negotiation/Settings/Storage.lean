import Negotiation.FileTree
import Negotiation.Settings.Document

/-!
Settings in files.
-/

namespace Negotiation.Settings

/-- The settings in a file; what is wrong with the text of the file is said in the context of its
path. -/
def load (t : FileTree) (path : String) : Except Report Settings :=
  match t.read? path with
  | none => .error (.settings (.unreadableFile path))
  | some text =>
      match parse text with
      | .ok settings => .ok settings
      | .error report => .error (.within (Text.quoted path) report)

/-- The settings in a file, or the usual ones where there are none. -/
def loadOrDefault (t : FileTree) (path : String) : Settings :=
  match load t path with
  | .ok settings => settings
  | .error _ => default

/-- Write settings into a file, and make its folder if it is missing. -/
def save (s : Settings) (t : FileTree) (path : String) : Except Report Unit × FileTree :=
  match t.prepare path with
  | (false, t) => (.error (.settings .noFolder), t)
  | (true, t) =>
      match t.write? path s.render with
      | some t => (.ok (), t)
      | none => (.error (.settings (.unwritableFile path)), t)

end Negotiation.Settings
