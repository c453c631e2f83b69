import Recognizer.Document.Decode
import Recognizer.Document.File
import Recognizer.Document.Toml
import Recognizer.Log.Event

/-!
# Configuration documents

Preferences are read from TOML documents. Tables and keys that a document leaves
out take their defaults. A file that was loaded is reported.
-/
namespace Recognizer

/-- Why preferences are not loaded. -/
inductive ConfigurationError where
  | unreadable (path : String) (fault : ReadFault)
  | invalid
  deriving DecidableEq, Repr

/-- The code of an error. -/
def ConfigurationError.code : ConfigurationError → Code
  | .unreadable _ _ => .configUnreadable
  | .invalid => .configInvalid

/-- The wording of an unreadable file. -/
def ConfigurationError.message : ConfigurationError → String
  | .unreadable path fault =>
    "Failed to read configuration file " ++ path ++ ": " ++ fault.message
  | .invalid => "Invalid configuration"

namespace Preferences

variable (env : Environment)

/-- The preferences that a document gives. -/
def ofToml (document : String) : Except ConfigurationError Preferences :=
  match (Toml.read? document).bind (Datum.preferences? .toml env) with
  | some p => .ok p
  | none => .error .invalid

/-- The preferences that a file gives, and what is reported. -/
def load (limits : Limits) (path : String) (file : File) :
    Except ConfigurationError Preferences × List Event :=
  match file.text with
  | .error fault => (.error (.unreadable path fault), [])
  | .ok document =>
    match ofToml env document with
    | .error e => (.error e, [])
    | .ok p =>
      (.ok p, [(Event.success limits .configLoaded "Runtime configuration loaded").withValue
        "path" path])

end Preferences
end Recognizer
