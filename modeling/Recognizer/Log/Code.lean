/-!
# Log codes

A code names what happened. The registry says for each known code which part of
the program it belongs to, how severe it is and what to do about it; a code that
is not registered has neutral answers.
-/
namespace Recognizer

/-- How serious a coded event is. -/
inductive Severity where
  | critical
  | high
  | medium
  | low
  deriving DecidableEq, Repr

namespace Severity

/-- The published name of a severity. -/
def name : Severity → String
  | critical => "Critical"
  | high => "High"
  | medium => "Medium"
  | low => "Low"

/-- The place of a severity, from zero for the most serious. -/
def rank : Severity → Nat
  | critical => 0
  | high => 1
  | medium => 2
  | low => 3

end Severity

/-- The name of what happened. -/
structure Code where
  text : String
  deriving DecidableEq, Repr

namespace Code

/-- The program itself is at fault. -/
def internalError : Code := ⟨"ERR001"⟩

/-- Logging cannot start. -/
def startFailure : Code := ⟨"ERR002"⟩

/-- A configuration file cannot be read. -/
def configUnreadable : Code := ⟨"E010"⟩

/-- A configuration document is not valid. -/
def configInvalid : Code := ⟨"E011"⟩

/-- A byte is outside the alphabet. -/
def invalidByte : Code := ⟨"E020"⟩

/-- An identifier is longer than the limit. -/
def identifierTooLong : Code := ⟨"E023"⟩

/-- A source has more tokens than the limit. -/
def tooManyTokens : Code := ⟨"E027"⟩

/-- A source ends where the grammar wants more. -/
def grammarViolation : Code := ⟨"E043"⟩

/-- A token is not what the grammar wants. -/
def unexpectedToken : Code := ⟨"E050"⟩

/-- Productions are nested more deeply than the limit. -/
def depthExceeded : Code := ⟨"E087"⟩

/-- Logging has started. -/
def loggingStarted : Code := ⟨"I004"⟩

/-- A configuration has been loaded. -/
def configLoaded : Code := ⟨"I010"⟩

/-- A source has been tokenized. -/
def tokenized : Code := ⟨"I020"⟩

/-- A source has been accepted. -/
def accepted : Code := ⟨"I041"⟩

/-- A warning that carries no code of its own. -/
def plainWarning : Code := ⟨"W000"⟩

/-- A note that carries no code of its own. -/
def plainInfo : Code := ⟨"I000"⟩

/-- A note for debugging, which carries no code of its own. -/
def plainDebug : Code := ⟨"D000"⟩

/-- What the registry says about a code. -/
structure Entry where
  code : Code
  category : String
  severity : Severity
  recoverable : Bool
  description : String
  action : String
  deriving DecidableEq, Repr

/-- The registered codes. -/
def registry : List Entry :=
  [⟨internalError, "System", .critical, false, "Critical internal system error",
      "File a bug report with the offending input"⟩,
    ⟨startFailure, "System", .critical, false, "System initialization failed",
      "Check logging preferences and compile-time limits"⟩,
    ⟨configUnreadable, "Configuration", .medium, true, "Configuration file could not be read",
      "Check the file path and permissions"⟩,
    ⟨configInvalid, "Configuration", .medium, true,
      "Configuration document is not valid TOML for this schema",
      "Fix the reported key or value"⟩,
    ⟨invalidByte, "Lexical", .medium, true, "Byte outside the token alphabet",
      "Remove or replace the offending character"⟩,
    ⟨identifierTooLong, "Lexical", .medium, true,
      "Identifier exceeds the configured maximum length", "Shorten the identifier"⟩,
    ⟨tooManyTokens, "Lexical", .high, false,
      "Input produced more tokens than the configured maximum",
      "Split the input into smaller units"⟩,
    ⟨grammarViolation, "Syntax", .high, true, "Input does not conform to the grammar",
      "Check the declaration at the reported position"⟩,
    ⟨unexpectedToken, "Syntax", .medium, true, "Unexpected token during recognition",
      "Check token sequence and grammar compliance"⟩,
    ⟨depthExceeded, "Syntax", .high, false, "Maximum recursion depth exceeded",
      "Reduce nesting depth or simplify structure"⟩,
    ⟨loggingStarted, "System", .low, true, "Logging system initialized", "No action required"⟩,
    ⟨configLoaded, "Configuration", .low, true, "Runtime configuration loaded",
      "No action required"⟩,
    ⟨tokenized, "Lexical", .low, true, "Tokenization completed", "No action required"⟩,
    ⟨accepted, "Syntax", .low, true, "Input accepted by the recognizer",
      "No action required"⟩]

/-- The entry of a registered code. -/
def entry? (c : Code) : Option Entry := registry.find? fun e => e.code == c

/-- The description of a code that is not registered. -/
def unknownDescription : String := "Unknown error"

/-- How serious a code is, and of medium severity when it is not registered. -/
def severity (c : Code) : Severity := (c.entry?.map Entry.severity).getD .medium

/-- Whether work may go on after the code, as it may when it is not registered. -/
def isRecoverable (c : Code) : Bool := (c.entry?.map Entry.recoverable).getD true

/-- What a code means. -/
def description (c : Code) : String := (c.entry?.map Entry.description).getD unknownDescription

/-- What to do about a code. -/
def action (c : Code) : String := (c.entry?.map Entry.action).getD "No specific action available"

/-- The part of the program a code belongs to. -/
def category (c : Code) : String := (c.entry?.map Entry.category).getD "Unknown"

end Code
end Recognizer
