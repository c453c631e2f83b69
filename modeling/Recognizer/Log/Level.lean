/-!
# Log levels

Four levels, the most severe first. A threshold lets a level through when the
level is at least as severe.
-/
namespace Recognizer

/-- How severe an event is. -/
inductive Level where
  | error
  | warning
  | info
  | debug
  deriving DecidableEq, Repr

namespace Level

/-- Every level, the most severe first. -/
def all : List Level := [error, warning, info, debug]

/-- The place of a level, from zero for the most severe. -/
def rank : Level → Nat
  | error => 0
  | warning => 1
  | info => 2
  | debug => 3

/-- The level as it is printed. -/
def label : Level → String
  | error => "ERROR"
  | warning => "WARN"
  | info => "INFO"
  | debug => "DEBUG"

/-- The level as it is written in documents. -/
def word : Level → String
  | error => "error"
  | warning => "warning"
  | info => "info"
  | debug => "debug"

/-- The level with the printed form given. -/
def ofLabel? (text : String) : Option Level := all.find? fun l => l.label == text

/-- The level with the document word given. -/
def ofWord? (text : String) : Option Level := all.find? fun l => l.word == text

/-- The level that an environment setting names: its word or its rank, and a
shorter word for warnings, with letters of either case. -/
def ofSetting? (text : String) : Option Level :=
  let text := text.map Char.toLower
  if text == "warn" then some warning
  else all.find? fun l => l.word == text || toString l.rank == text

/-- A threshold lets a level through when the level is at least as severe. -/
def passes (level threshold : Level) : Bool := level.rank ≤ threshold.rank

@[simp] theorem passes_debug (l : Level) : l.passes debug = true := by cases l <;> rfl
@[simp] theorem error_passes (l : Level) : error.passes l = true := by cases l <;> rfl
@[simp] theorem passes_self (l : Level) : l.passes l = true := by cases l <;> rfl

end Level
end Recognizer
