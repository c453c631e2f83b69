import Recognizer.Document.Lines
import Recognizer.Log.Memory
import Recognizer.Preferences

/-!
# Log services

A service passes the events of sufficient severity to its backend. A backend
keeps events in memory, prints them as plain lines or as lines of JSON, or drops
them. Errors are printed apart from all other events.
-/
namespace Recognizer

/-- Where a service sends events. The printing backends have a threshold of
their own. -/
inductive Backend where
  | memory
  | null
  | console (threshold : Level)
  | structured (threshold : Level)
  deriving DecidableEq, Repr

/-- Printed texts, in printing order. -/
structure Printed where
  out : List String := []
  err : List String := []
  deriving DecidableEq, Repr

namespace Printed

/-- What was printed first, then what was printed later. -/
def append (p q : Printed) : Printed := ⟨p.out ++ q.out, p.err ++ q.err⟩

/-- One text, among the errors if it is one. -/
def one (e : Event) (text : String) : Printed :=
  if e.isError then { err := [text] } else { out := [text] }

/-- The printed lines. -/
def lines (p : Printed) : Printed := ⟨p.out.flatMap printedLines, p.err.flatMap printedLines⟩

end Printed

/-- What a backend prints for an event. -/
def Backend.print (b : Backend) (e : Event) : Printed :=
  match b with
  | .memory | .null => {}
  | .console threshold => if e.level.passes threshold then .one e e.text else {}
  | .structured threshold => if e.level.passes threshold then .one e e.json else {}

/-- A threshold in front of a backend. -/
structure Service where
  backend : Backend
  threshold : Level
  deriving DecidableEq, Repr

namespace Service

/-- The service that preferences ask for: JSON lines before plain lines, and
nothing when neither is wanted. -/
def ofPreferences (p : LogPreferences) : Service where
  backend :=
    if p.structured then .structured p.minLevel
    else if p.console then .console p.minLevel
    else .null
  threshold := p.minLevel

/-- Whether events of a level pass. -/
def lets (s : Service) (level : Level) : Bool := level.passes s.threshold

/-- What an event adds to the memory log and what is printed for it. -/
def log (limits : Limits) (s : Service) (m : MemoryLog) (e : Event) : MemoryLog × Printed :=
  if s.lets e.level then
    match s.backend with
    | .memory => (m.record limits.bufferSize e, {})
    | b => (m, b.print e)
  else (m, {})

end Service
end Recognizer
