import Recognizer.Document.Json
import Recognizer.Limits
import Recognizer.Log.Code
import Recognizer.Log.Level
import Recognizer.Source.Span

/-!
# Log events

An event is a coded message with an optional range of bytes and a context of
named values. Long messages are cut between characters. Events are written as
one plain line, as a paragraph or as one line of JSON.
-/
namespace Recognizer

/-- The longest front part of a text that has at most so many bytes and no
broken character. -/
def fitting : Nat → List Char → List Char
  | _, [] => []
  | room, c :: cs => if c.utf8Size ≤ room then c :: fitting (room - c.utf8Size) cs else []

/-- A text of at most so many bytes, or its longest fitting part and three dots. -/
def clipped (limit : Nat) (text : String) : String :=
  if text.utf8ByteSize ≤ limit then text
  else String.ofList (fitting limit text.toList) ++ "..."

/-- Named values in the order of their names, each name once. -/
abbrev Context := List (String × String)

/-- Give a name a value, in place of one it has already. -/
def Context.set (name value : String) : Context → Context
  | [] => [(name, value)]
  | f :: c =>
    if name == f.1 then (name, value) :: c
    else if name < f.1 then (name, value) :: f :: c
    else f :: Context.set name value c

/-- A log event. The time is in seconds and may lie before the epoch. -/
structure Event where
  level : Level
  code : Code
  message : String
  span : Option Span := none
  context : Context := []
  time : Int := 0
  deriving DecidableEq, Repr

namespace Event

/-- An event whose message is cut to the limit. -/
def coded (limits : Limits) (level : Level) (code : Code) (message : String) : Event :=
  { level := level, code := code, message := clipped limits.maxMessage message }

variable (limits : Limits)

/-- An error. -/
def error (code : Code) (message : String) : Event := coded limits .error code message

/-- A warning without a code of its own. -/
def warning (message : String) : Event := coded limits .warning .plainWarning message

/-- A note without a code of its own. -/
def info (message : String) : Event := coded limits .info .plainInfo message

/-- A coded note that something succeeded. -/
def success (code : Code) (message : String) : Event := coded limits .info code message

/-- A note for debugging. -/
def debug (message : String) : Event := coded limits .debug .plainDebug message

/-- The event at a range of bytes. -/
def atSpan (e : Event) (span : Span) : Event := { e with span := some span }

/-- The event with one more named value. -/
def withValue (e : Event) (name value : String) : Event :=
  { e with context := e.context.set name value }

/-- The event with more named values, the later ones in place of the earlier. -/
def withValues (e : Event) (values : List (String × String)) : Event :=
  values.foldl (fun e v => e.withValue v.1 v.2) e

/-- An event is an error when its level is. -/
def isError (e : Event) : Bool := e.level == .error

/-- The event as one line: level, code, message and range. -/
def text (e : Event) : String :=
  let place := match e.span with
    | some s => " at bytes " ++ s.text
    | none => ""
  "[" ++ e.level.label ++ "] " ++ e.code.text ++ " - " ++ e.message ++ place

/-- A truth value as a word. -/
def truth (b : Bool) : String := if b then "true" else "false"

/-- The event as a paragraph: the line, what the registry says about the code
and the named values. -/
def paragraph (e : Event) : String :=
  let recoverable :=
    if e.isError then "\n  Recoverable: " ++ truth e.code.isRecoverable else ""
  let description :=
    if e.code.description == Code.unknownDescription then ""
    else "\n  Description: " ++ e.code.description
  let context :=
    if e.context.isEmpty then ""
    else "\n  Context:" ++
      String.join (e.context.map fun v => "\n    " ++ v.1 ++ ": " ++ v.2)
  e.text ++ "\n  Category: " ++ e.code.category ++ "\n  Severity: " ++ e.code.severity.name ++
    recoverable ++ description ++ context

/-- The event as a record whose fields are in the order of their names. Named
values appear if there are any, the registry's advice on errors only. A time
before the epoch is written as the epoch. -/
def datum (e : Event) : Datum :=
  let context :=
    if e.context.isEmpty then []
    else [("context", Datum.record (e.context.map fun v => (v.1, .text v.2)))]
  let advice :=
    if e.isError then
      [("error_metadata", Datum.record
        [("description", .text e.code.description),
          ("recommended_action", .text e.code.action),
          ("recoverable", .bool e.code.isRecoverable)])]
    else []
  let span := match e.span with
    | some s => [("span", Datum.record [("end", .natural s.stop), ("start", .natural s.start)])]
    | none => []
  .record <|
    [("category", .text e.code.category), ("code", .text e.code.text)] ++ context ++ advice ++
      [("level", .text e.level.label), ("message", .text e.message),
        ("severity", .text e.code.severity.name)] ++ span ++
      [("timestamp", .natural e.time.toNat)]

/-- The event as one line of JSON. -/
def json (e : Event) : String := Json.line e.datum

@[simp] theorem level_error (code : Code) (message : String) :
    (error limits code message).level = .error := rfl
@[simp] theorem level_success (code : Code) (message : String) :
    (success limits code message).level = .info := rfl
@[simp] theorem level_debug (message : String) : (debug limits message).level = .debug := rfl

@[simp] theorem level_withValues (e : Event) (values : List (String × String)) :
    (e.withValues values).level = e.level := by
  induction values generalizing e with
  | nil => rfl
  | cons v vs ih => exact ih (e.withValue v.1 v.2)

end Event
end Recognizer
