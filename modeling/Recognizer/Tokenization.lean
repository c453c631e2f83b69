import Recognizer.Log.Event
import Recognizer.Preferences
import Recognizer.Token.Lexeme

/-!
# Tokenization

Tokenizing reads a whole source into lexemes under the limits on their number
and on the length of identifiers, and counts them by class. The limit on the
number of tokens is checked first. What was counted before a limit was reached
stays counted.
-/
namespace Recognizer

/-- Why a source is not tokenized. -/
inductive LexicalError where
  | identifierTooLong (length offset : Nat)
  | tooManyTokens (count : Nat)
  deriving DecidableEq, Repr

namespace LexicalError

/-- The code of an error. -/
def code : LexicalError → Code
  | identifierTooLong _ _ => .identifierTooLong
  | tooManyTokens _ => .tooManyTokens

/-- The wording of an error, which names the limit. -/
def message (limits : Limits) : LexicalError → String
  | identifierTooLong length offset =>
    "Identifier too long: " ++ toString length ++ " bytes at offset " ++ toString offset ++
      " (max " ++ toString limits.maxIdentifier ++ ")"
  | tooManyTokens count =>
    "Too many tokens: " ++ toString count ++ " (max " ++ toString limits.maxTokens ++ ")"

end LexicalError

/-- How many tokens of each class were counted. -/
structure Metrics where
  total : Nat := 0
  identifiers : Nat := 0
  literals : Nat := 0
  punctuation : Nat := 0
  operators : Nat := 0
  comments : Nat := 0
  invalid : Nat := 0
  /-- The length of the longest identifier. -/
  maxIdentifier : Nat := 0
  whitespace : Nat := 0
  deriving DecidableEq, Repr

namespace Metrics

/-- Count one lexeme in its class. -/
def count (m : Metrics) (x : Lexeme) : Metrics :=
  let m := { m with total := m.total + 1 }
  match x.kind.classOf with
  | .identifier =>
    { m with
      identifiers := m.identifiers + 1
      maxIdentifier := max m.maxIdentifier x.text.length }
  | .literal => { m with literals := m.literals + 1 }
  | .punctuation => { m with punctuation := m.punctuation + 1 }
  | .operation => { m with operators := m.operators + 1 }
  | .whitespace => { m with whitespace := m.whitespace + 1 }
  | .special =>
    if x.kind = .comment then { m with comments := m.comments + 1 }
    else { m with invalid := m.invalid + 1 }

/-- Count one lexeme if the preferences ask for it. -/
def record (prefs : LexicalPreferences) (m : Metrics) (x : Lexeme) : Metrics :=
  if prefs.collectMetrics && (x.isSignificant || prefs.includeTrivia) then m.count x else m

/-- The counts of a list of lexemes. -/
def ofLexemes (prefs : LexicalPreferences) (xs : List Lexeme) : Metrics :=
  xs.foldl (record prefs) {}

end Metrics

/-- The lexemes before the first one that breaks a limit, and that one with its
error. -/
structure Admission where
  taken : List Lexeme
  fault : Option (Lexeme × LexicalError)
  deriving DecidableEq, Repr

/-- The error of a lexeme before which `n` lexemes were taken. -/
def Lexeme.fault? (limits : Limits) (n : Nat) (x : Lexeme) : Option LexicalError :=
  if limits.maxTokens ≤ n then some (.tooManyTokens (n + 1))
  else if x.kind = .identifier ∧ limits.maxIdentifier < x.text.length then
    some (.identifierTooLong x.text.length x.start)
  else none

namespace Admission

/-- Take lexemes while they keep to the limits. The `n` lexemes taken so far are
given newest first. -/
def loop (limits : Limits) : Nat → List Lexeme → List Lexeme → Admission
  | _, taken, [] => ⟨taken.reverse, none⟩
  | n, taken, x :: xs =>
    match x.fault? limits n with
    | some e => ⟨taken.reverse, some (x, e)⟩
    | none => loop limits (n + 1) (x :: taken) xs

/-- The lexemes of a list that keep to the limits, up to the first that does not. -/
def ofLexemes (limits : Limits) (xs : List Lexeme) : Admission := loop limits 0 [] xs

end Admission

/-- Two hexadecimal digits after a zero and an x. -/
def hexByte (b : UInt8) : String :=
  String.ofList ['0', 'x', Json.hexDigit (b.toNat / 16), Json.hexDigit (b.toNat % 16)]

/-- The outcome of tokenizing a source. -/
structure Tokenization where
  result : Except LexicalError (List Lexeme)
  metrics : Metrics
  events : List Event

namespace Tokenization

variable (limits : Limits)

/-- The report on a byte outside the alphabet. -/
def invalidEvent (x : Lexeme) : Event :=
  (Event.debug limits "Unrecognized byte").withValues
    [("offset", toString x.start), ("byte", hexByte (x.text.headD 0))]

/-- The report on a lexeme that breaks a limit. -/
def faultEvent (x : Lexeme) : LexicalError → Event
  | e@(.tooManyTokens _) =>
    ((Event.error limits e.code "Token limit exceeded").atSpan x.span).withValue
      "limit" (toString limits.maxTokens)
  | e => (Event.error limits e.code (e.message limits)).atSpan x.span

/-- Tokenize a source. -/
def ofSource (prefs : LexicalPreferences) (source : Bytes) : Tokenization :=
  let admission := Admission.ofLexemes limits (Lexeme.scan source)
  let metrics := Metrics.ofLexemes prefs admission.taken
  let started := (Event.debug limits "Starting lexical analysis").withValues
    [("bytes", toString source.length), ("max_tokens_allowed", toString limits.maxTokens)]
  let unknown := (admission.taken.filter fun x => x.kind == .invalid).map (invalidEvent limits)
  match admission.fault with
  | some (x, e) => ⟨.error e, metrics, started :: (unknown ++ [faultEvent limits x e])⟩
  | none =>
    let completed := (Event.success limits .tokenized "Tokenization completed").withValues
      [("tokens", toString admission.taken.length), ("counted", toString metrics.total),
        ("invalid_bytes", toString metrics.invalid)]
    ⟨.ok admission.taken, metrics, started :: (unknown ++ [completed])⟩

end Tokenization

/-- A tokenizer remembers its preferences and the counts of its last source. -/
structure Tokenizer where
  preferences : LexicalPreferences
  metrics : Metrics := {}
  deriving DecidableEq, Repr

namespace Tokenizer

/-- Tokenize a source and keep its counts. -/
def tokenize (limits : Limits) (t : Tokenizer) (source : Bytes) : Tokenization × Tokenizer :=
  let outcome := Tokenization.ofSource limits t.preferences source
  (outcome, { t with metrics := outcome.metrics })

/-- Change the preferences and keep the counts. -/
def setPreferences (t : Tokenizer) (p : LexicalPreferences) : Tokenizer :=
  { t with preferences := p }

@[simp] theorem metrics_setPreferences (t : Tokenizer) (p : LexicalPreferences) :
    (t.setPreferences p).metrics = t.metrics := rfl

@[simp] theorem preferences_tokenize (limits : Limits) (t : Tokenizer) (source : Bytes) :
    (t.tokenize limits source).2.preferences = t.preferences := rfl

end Tokenizer
end Recognizer
