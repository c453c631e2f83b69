import Recognizer.Parser
import Recognizer.Source.Position

/-!
# Recognition

Recognizing a source says whether it is a program, and if it is not, at which
lexeme reading stopped. Every outcome is reported as an event.
-/
namespace Recognizer

/-- Why a source is not accepted. -/
inductive RecognitionError where
  /-- Reading stopped before the end. -/
  | rejected (offset : Nat) (position : Position) (found : String)
  /-- Productions were nested too deeply. -/
  | tooDeep (offset : Nat) (position : Position) (maxDepth : Nat)
  deriving DecidableEq, Repr

namespace RecognitionError

/-- What is found after the last lexeme. -/
def endOfInput : String := "end of input"

/-- The code of an error. -/
def code : RecognitionError → Code
  | rejected _ _ found => if found = endOfInput then .grammarViolation else .unexpectedToken
  | tooDeep _ _ _ => .depthExceeded

/-- The offset of an error. -/
def offset : RecognitionError → Nat
  | rejected o _ _ | tooDeep o _ _ => o

/-- The position of an error. -/
def position : RecognitionError → Position
  | rejected _ p _ | tooDeep _ p _ => p

/-- The wording of an error. -/
def message : RecognitionError → String
  | rejected _ p found => "Input rejected at " ++ p.text ++ ": found " ++ found
  | tooDeep _ p maxDepth =>
    "Maximum parse depth of " ++ toString maxDepth ++ " exceeded at " ++ p.text

end RecognitionError

/-- What an error says was found: the text of a lexeme in quotes, or the end. -/
def found : Option Lexeme → String
  | some x => "'" ++ x.text.display ++ "'"
  | none => RecognitionError.endOfInput

/-- The outcome of recognizing a source. -/
structure Recognition where
  result : Except RecognitionError Unit
  events : List Event

namespace Recognition

variable (limits : Limits) (prefs : GrammarPreferences)

/-- The report on a rejected source: an error at the lexeme, of a code of its
own when its byte is outside the alphabet, or a note for debugging when
rejections are not reported. -/
def rejectionEvent (x : Option Lexeme) (e : RecognitionError) : Event :=
  if prefs.logRejections then
    let code := match x with
      | some x => if x.kind = .invalid then Code.invalidByte else e.code
      | none => e.code
    let span := match x with
      | some x => x.span
      | none => .emptyAt e.offset
    ((Event.error limits code "Input rejected").atSpan span).withValues
      [("position", e.position.text), ("error", e.message)]
  else (Event.debug limits "Input rejected").withValue "offset" (toString e.offset)

/-- Recognize a source. -/
def ofSource (source : Bytes) : Recognition :=
  let (accepted, p) := (Parser.new limits prefs source).parseProgram
  if accepted then
    let event := (Event.success limits .accepted "Input accepted").withValues
      [("bytes", toString source.length),
        ("global_symbols", toString p.table.globals.length)]
    ⟨.ok (), p.events ++ [event]⟩
  else
    let position := (LineMap.ofSource source).positionAt p.position
    if p.depthExceeded then
      ⟨.error (.tooDeep p.position position limits.maxDepth), p.events⟩
    else
      let e := RecognitionError.rejected p.position position (found p.current?)
      ⟨.error e, p.events ++ [rejectionEvent limits prefs p.current? e]⟩

end Recognition

/-- Whether a source is a program under the default preferences. -/
def parses (limits : Limits) (source : Bytes) : Bool :=
  (Parser.new limits {} source).parseProgram.1

end Recognizer
