import Recognizer.Document.Datum
import Recognizer.Preferences
import Recognizer.Scope
import Recognizer.Source.Position
import Recognizer.Token.Lexeme

/-!
# Reading data

Values of the program are read from data in one way for all formats. A record
may also be written as the list of its fields, and a choice among words as a
record of one field. Fields that the program does not know are passed over;
missing fields are filled in where preferences are read and refused elsewhere.
-/
namespace Recognizer

/-- In which points formats differ. -/
structure Dialect where
  /-- Whether a list with more items than a record has fields is refused. -/
  closed : Bool
  /-- What may stand beside a word that is written as a field. -/
  isBlank : Datum → Bool

/-- JSON refuses surplus items and writes null beside a word. -/
def Dialect.json : Dialect := ⟨true, Datum.isNull⟩

/-- TOML passes over surplus items and writes nothing but an empty list or
table beside a word. -/
def Dialect.toml : Dialect where
  closed := false
  isBlank
    | .list [] | .record [] => true
    | _ => false

namespace Datum

variable (d : Dialect)

/-- The values of named fields, of which some may be missing. -/
def members? (names : List String) : Datum → Option (List (Option Datum))
  | record fields => some (names.map fun name => fields.lookup name)
  | list items =>
    if d.closed && names.length < items.length then none
    else some ((List.range names.length).map fun i => items[i]?)
  | _ => none

/-- One of some words, with what it stands for. -/
def choice? {α : Type} (ofWord? : String → Option α) : Datum → Option α
  | text s => ofWord? s
  | record [(s, beside)] => if d.isBlank beside then ofWord? s else none
  | _ => none

/-- A number below a bound. -/
def below? (bound : Nat) : Datum → Option Nat
  | natural n => if n < bound then some n else none
  | _ => none

/-- A number of 64 bits. -/
def word64? : Datum → Option Nat := below? UInt64.size

/-- A number of 32 bits. -/
def word32? (x : Datum) : Option UInt32 := (x.below? UInt32.size).map Nat.toUInt32

/-- A field, or the value in place of a missing one. -/
def fieldOr {α : Type} (default : α) (read? : Datum → Option α) : Option Datum → Option α
  | none => some default
  | some x => read? x

/-- A token kind. -/
def kind? : Datum → Option Kind := choice? d Kind.ofName?

/-- A symbol kind. -/
def symbolKind? : Datum → Option Symbol.Kind := choice? d Symbol.Kind.ofName?

/-- A level. -/
def level? : Datum → Option Level := choice? d Level.ofWord?

/-- A span, which may be reversed. -/
def span? (x : Datum) : Option Span := do
  match ← x.members? d ["start", "end"] with
  | [some start, some stop] => return ⟨← start.word64?, ← stop.word64?⟩
  | _ => none

/-- A token. -/
def token? (x : Datum) : Option Token := do
  match ← x.members? d ["kind", "span"] with
  | [some kind, some span] => return ⟨← kind.kind? d, ← span.span? d⟩
  | _ => none

/-- A position. -/
def position? (x : Datum) : Option Position := do
  match ← x.members? d ["offset", "line", "column"] with
  | [some offset, some line, some column] =>
    return ⟨← offset.word64?, ← line.word32?, ← column.word32?⟩
  | _ => none

/-- A symbol. -/
def symbol? (x : Datum) : Option Symbol := do
  match ← x.members? d ["name", "kind"] with
  | [some name, some kind] => return ⟨(← name.text?).toUTF8.toList, ← kind.symbolKind? d⟩
  | _ => none

variable (env : Environment)

/-- Preferences on counting. -/
def lexicalPreferences? (x : Datum) : Option LexicalPreferences := do
  let default := LexicalPreferences.standard env
  match ← x.members? d ["collect_metrics", "include_trivia_in_counts"] with
  | [collect, trivia] =>
    return ⟨← fieldOr default.collectMetrics bool? collect,
      ← fieldOr default.includeTrivia bool? trivia⟩
  | _ => none

/-- Preferences on the grammar. -/
def grammarPreferences? (x : Datum) : Option GrammarPreferences := do
  let default : GrammarPreferences := {}
  match ← x.members? d ["legacy_initialization_reject", "allow_goto", "log_rejections"] with
  | [legacy, goto, log] =>
    return ⟨← fieldOr default.rejectInitialization bool? legacy,
      ← fieldOr default.allowGoto bool? goto, ← fieldOr default.logRejections bool? log⟩
  | _ => none

/-- Preferences on reporting. -/
def logPreferences? (x : Datum) : Option LogPreferences := do
  let default := LogPreferences.standard env
  match ← x.members? d ["use_structured_logging", "enable_console_logging", "min_log_level"] with
  | [structured, console, level] =>
    return ⟨← fieldOr default.structured bool? structured,
      ← fieldOr default.console bool? console, ← fieldOr default.minLevel (level? d) level⟩
  | _ => none

/-- All preferences. -/
def preferences? (x : Datum) : Option Preferences := do
  let default := Preferences.standard env
  match ← x.members? d ["lexical", "syntax", "logging"] with
  | [lexical, grammar, logging] =>
    return ⟨← fieldOr default.lexical (lexicalPreferences? d env) lexical,
      ← fieldOr default.grammar (grammarPreferences? d) grammar,
      ← fieldOr default.logging (logPreferences? d env) logging⟩
  | _ => none

end Datum
end Recognizer
