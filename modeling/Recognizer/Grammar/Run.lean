import Recognizer.Grammar.Rule

/-!
# Running a rule

The state of a run is the remaining lexemes, the symbol table and the place at
which the depth guard first refused a call. Calls are refused once the room for
nested calls is used up; from then on every call is refused.
-/
namespace Recognizer.Grammar

/-- The state of a run. -/
structure State where
  /-- The lexemes still to be consumed. -/
  rest : List Lexeme
  /-- The offset after the last byte of the source. -/
  size : Nat
  /-- The declared names. -/
  table : SymbolTable
  /-- The offset at which the depth guard first refused a call. -/
  overflow : Option Nat
  deriving DecidableEq, Repr

namespace State

/-- The offset of the next lexeme, or of the end of the source. -/
def position (s : State) : Nat :=
  match s.rest with
  | x :: _ => x.start
  | [] => s.size

/-- Consume the next lexeme. The end stays the end. -/
def advance (s : State) : State := { s with rest := s.rest.tail }

/-- The name of the next lexeme, if it is an identifier. -/
def identifier? (s : State) : Option Bytes :=
  match s.rest with
  | x :: _ => if x.kind = .identifier then some x.text else none
  | [] => none

/-- Declare a name in the innermost scope. -/
def declare (s : State) (name : Bytes) (kind : Symbol.Kind) : State :=
  { s with table := s.table.declare name kind }

/-- Record a refused call, unless one is on record already. -/
def refuse (s : State) : State := { s with overflow := s.overflow.or (some s.position) }

/-- The answer to a test. -/
def passes (s : State) (t : Test) : Bool := t.holds s.table s.rest

@[simp] theorem rest_refuse (s : State) : s.refuse.rest = s.rest := rfl
@[simp] theorem table_refuse (s : State) : s.refuse.table = s.table := rfl

theorem refuse_of_overflow {s : State} {o : Nat} (h : s.overflow = some o) : s.refuse = s := by
  cases s; simp_all [refuse]

end State

/-- A step accepts or rejects and changes the state. -/
abbrev Step := State → Bool × State

namespace Step

/-- One step, or another that depends on the answer of the first. -/
def branch (first yes no : Step) : Step := fun s =>
  match first s with
  | (true, s) => yes s
  | (false, s) => no s

/-- A step that gives its lexemes back when it rejects. Names that it declared
stay declared. -/
def attempt (step : Step) : Step := fun s =>
  match step s with
  | (true, t) => (true, t)
  | (false, t) => (false, { t with rest := s.rest })

/-- A step inside a scope of its own. -/
def enclosed (step : Step) : Step := fun s =>
  let (answer, t) := step { s with table := s.table.push }
  (answer, { t with table := t.table.close })

/-- Repeat a step as long as the test holds. A body that accepts consumes a
lexeme, so the lexemes at the start bound the number of rounds. -/
def loop (t : Test) (body : Step) : List Lexeme → Step
  | [], s => if s.passes t then (false, (body s).2) else (true, s)
  | _ :: clock, s =>
    if s.passes t then
      match body s with
      | (true, s) => loop t body clock s
      | (false, s) => (false, s)
    else (true, s)

end Step

/-- Run a rule, given how the guarded productions run. -/
def Rule.exec (callee : Guarded → Step) : Rule → Step
  | accept, s => (true, s)
  | reject, s => (false, s)
  | peek t, s => (s.passes t, s)
  | take t, s => if s.passes t then (true, s.advance) else (false, s)
  | branch first yes no, s => Step.branch (first.exec callee) (yes.exec callee) (no.exec callee) s
  | attempt r, s => Step.attempt (r.exec callee) s
  | loop t body, s => Step.loop t (body.exec callee) s.rest s
  | declare kind next, s =>
    match s.identifier? with
    | some name => (next name).exec callee (s.declare name kind).advance
    | none => (false, s)
  | enclosed r, s => Step.enclosed (r.exec callee) s
  | call g, s => callee g s

/-- Call a guarded production with room for so many nested calls. Without room
the call is refused, and so is every call after a refused one. -/
def enter (body : Guarded → Rule) : Nat → Guarded → Step
  | 0, _, s => (false, s.refuse)
  | room + 1, g, s =>
    match s.overflow with
    | some _ => (false, s)
    | none => (body g).exec (enter body room) s

/-- Run a rule with room for so many nested calls. -/
def Rule.run (body : Guarded → Rule) (room : Nat) (r : Rule) : Step := r.exec (enter body room)

end Recognizer.Grammar
