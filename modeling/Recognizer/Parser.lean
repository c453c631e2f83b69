import Recognizer.Grammar.Production
import Recognizer.Log.Event

/-!
# Parsers

A parser is a place in a source together with a symbol table, the number of
guarded productions that are open and the events reported so far. The depth
guard reports the first call that it refuses.
-/
namespace Recognizer

open Grammar

/-- A recognizer at some place of a source. -/
structure Parser where
  limits : Limits
  preferences : GrammarPreferences
  source : Bytes
  /-- The number of open guarded productions. -/
  depth : Nat
  state : State
  /-- The events reported so far, oldest first. -/
  events : List Event

namespace Parser

/-- The parser at the first lexeme of a source. -/
def new (limits : Limits) (preferences : GrammarPreferences) (source : Bytes) : Parser where
  limits := limits
  preferences := preferences
  source := source
  depth := 0
  state := ⟨Lexeme.significant source, source.length, .fresh, none⟩
  events :=
    [(Event.debug limits "Creating EOP parser").withValue "bytes" (toString source.length)]

/-- The lexeme at which the parser stands. -/
def current? (p : Parser) : Option Lexeme := p.state.rest.head?

/-- The offset of that lexeme, or of the end. -/
def position (p : Parser) : Nat := p.state.position

/-- Whether the source is used up. -/
def isExhausted (p : Parser) : Bool := p.state.rest.isEmpty

/-- Whether the depth guard has refused a call. -/
def depthExceeded (p : Parser) : Bool := p.state.overflow.isSome

/-- The declared names. -/
def table (p : Parser) : SymbolTable := p.state.table

/-- The parser with another symbol table. -/
def setTable (p : Parser) (t : SymbolTable) : Parser :=
  { p with state := { p.state with table := t } }

/-- Move past the current lexeme. -/
def advance (p : Parser) : Parser := { p with state := p.state.advance }

/-- Move to the first lexeme at or after an offset, as read from that offset on. -/
def restore (p : Parser) (offset : Nat) : Parser :=
  { p with state := { p.state with rest := Lexeme.significantFrom p.source offset } }

/-- The room that is left for nested guarded productions. -/
def room (p : Parser) : Nat := p.limits.maxDepth - p.depth

/-- The report on the first refused call. -/
def depthEvent (limits : Limits) (offset : Nat) : Event :=
  (Event.error limits .depthExceeded "Maximum parse depth exceeded").withValues
    [("offset", toString offset), ("max_depth", toString limits.maxDepth)]

/-- Take over a state, and report the refused call if the state has the first. -/
def adopt (p : Parser) (s : State) : Parser :=
  match p.state.overflow, s.overflow with
  | none, some offset =>
    { p with state := s, events := p.events ++ [depthEvent p.limits offset] }
  | _, _ => { p with state := s }

/-- Run a step that may nest guarded productions in the room that is left. -/
def run (p : Parser) (step : Nat → Step) : Bool × Parser :=
  let (answer, s) := step p.room p.state
  (answer, p.adopt s)

/-- Run a rule. -/
def apply (p : Parser) (r : Rule) : Bool × Parser :=
  p.run fun room => perform p.preferences room r

/-- Open a guarded production, unless the guard has refused a call or refuses
this one. -/
def enter (p : Parser) : Bool × Parser :=
  if p.depthExceeded then (false, p)
  else if p.limits.maxDepth ≤ p.depth then (false, p.adopt p.state.refuse)
  else (true, { p with depth := p.depth + 1 })

/-- Close a guarded production. -/
def leave (p : Parser) : Parser := { p with depth := p.depth - 1 }

/-- Run a step inside a guarded production of its own. -/
def guarded (p : Parser) (step : Nat → Step) : Bool × Parser :=
  match p.enter with
  | (false, p) => (false, p)
  | (true, p) =>
    let (answer, p) := p.run step
    (answer, p.leave)

/-- Open so many guarded productions and count those that were opened. After a
refused call every call is refused, so the first refusal ends the count. -/
def enterTimes : Nat → Parser → Nat × Parser
  | 0, p => (0, p)
  | n + 1, p =>
    match p.enter with
    | (true, p) =>
      let (m, p) := enterTimes n p
      (m + 1, p)
    | (false, p) => (0, p)

/-- Consume an identifier and declare it in the innermost scope. -/
def declareIdentifier (p : Parser) (kind : Symbol.Kind) : Option Bytes × Parser :=
  match p.state.identifier? with
  | some name => (some name, { p with state := (p.state.declare name kind).advance })
  | none => (none, p)

/-- Recognize the whole source as a program, from its first lexeme and an empty
table. A program during which the depth guard refused a call is rejected, even
if the end of the source was reached. -/
def parseProgram (p : Parser) : Bool × Parser :=
  let fresh := { (p.restore 0) with depth := 0 }
  let (accepted, p) :=
    run { fresh with state := { fresh.state with overflow := none } } (program p.preferences)
  let finished := (Event.debug p.limits "Program recognition finished").withValues
    [("accepted", Event.truth accepted), ("position", toString p.position),
      ("depth_exceeded", Event.truth p.depthExceeded)]
  (accepted && !p.depthExceeded, { p with events := p.events ++ [finished] })

@[simp] theorem position_new (limits : Limits) (prefs : GrammarPreferences) :
    (new limits prefs []).position = 0 := rfl

/-- Taking over a state leaves the parser in that state. -/
@[simp] theorem state_adopt (p : Parser) (s : State) : (p.adopt s).state = s := by
  unfold adopt
  split <;> rfl

@[simp] theorem depth_adopt (p : Parser) (s : State) : (p.adopt s).depth = p.depth := by
  unfold adopt
  split <;> rfl

end Parser
end Recognizer
