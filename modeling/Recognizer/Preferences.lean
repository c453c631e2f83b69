import Recognizer.Log.Level

/-!
# Preferences

What a user may choose: how tokens are counted, which constructions the grammar
takes and how events are reported. Counting and reporting take their defaults
from the environment; the grammar's defaults are fixed.
-/
namespace Recognizer

/-- The environment variables that are set. The newest setting of a name is the
first one. -/
abbrev Environment := List (String × String)

namespace Environment

/-- The value of a variable. -/
def get? (env : Environment) (name : String) : Option String := env.lookup name

/-- Set a variable. -/
def set (env : Environment) (name value : String) : Environment := (name, value) :: env

/-- A variable that spells a truth value, or the default for any other text. -/
def flag (env : Environment) (name : String) (default : Bool) : Bool :=
  match env.get? name with
  | some "true" => true
  | some "false" => false
  | _ => default

@[simp] theorem get?_set_self (env : Environment) (name value : String) :
    (env.set name value).get? name = some value := by
  simp [get?, set]

end Environment

/-- How tokens are counted. -/
structure LexicalPreferences where
  /-- Whether tokens are counted by class. -/
  collectMetrics : Bool
  /-- Whether blanks and comments are counted. -/
  includeTrivia : Bool
  deriving DecidableEq, Repr

/-- Counting is on and leaves trivia out unless the environment says otherwise. -/
def LexicalPreferences.standard (env : Environment) : LexicalPreferences where
  collectMetrics := env.flag "EOP_LEXICAL_COLLECT_METRICS" true
  includeTrivia := env.flag "EOP_LEXICAL_INCLUDE_TRIVIA" false

/-- Which constructions the grammar takes, and whether rejections are reported. -/
structure GrammarPreferences where
  /-- Whether a construction with an initialization is refused. -/
  rejectInitialization : Bool := false
  /-- Whether a jump to a label is a control statement. -/
  allowGoto : Bool := false
  /-- Whether a rejected source is reported as an error. -/
  logRejections : Bool := true
  deriving DecidableEq, Repr

/-- The fixed defaults with the environment's settings in their place. -/
def GrammarPreferences.ofEnvironment (env : Environment) : GrammarPreferences where
  rejectInitialization := env.flag "EOP_SYNTAX_LEGACY_INITIALIZATION" false
  allowGoto := env.flag "EOP_SYNTAX_ALLOW_GOTO" false
  logRejections := env.flag "EOP_SYNTAX_LOG_REJECTIONS" true

/-- How events are reported. -/
structure LogPreferences where
  /-- Whether events are printed as one object on a line. -/
  structured : Bool
  /-- Whether events are printed as plain text. -/
  console : Bool
  /-- The least severe level that is reported. -/
  minLevel : Level
  deriving DecidableEq, Repr

/-- Nothing is printed and the threshold is `info` unless the environment says
otherwise. -/
def LogPreferences.standard (env : Environment) : LogPreferences where
  structured := env.flag "EOP_LOGGING_USE_STRUCTURED" false
  console := env.flag "EOP_LOGGING_ENABLE_CONSOLE" false
  minLevel := ((env.get? "EOP_LOGGING_MIN_LEVEL").bind Level.ofSetting?).getD .info

/-- All preferences. -/
structure Preferences where
  lexical : LexicalPreferences
  grammar : GrammarPreferences
  logging : LogPreferences
  deriving DecidableEq, Repr

namespace Preferences

/-- The defaults, which do not read the grammar's part of the environment. -/
def standard (env : Environment) : Preferences where
  lexical := .standard env
  grammar := {}
  logging := .standard env

/-- The preferences that the environment gives, the grammar's among them. -/
def ofEnvironment (env : Environment) : Preferences :=
  { standard env with grammar := .ofEnvironment env }

end Preferences
end Recognizer
