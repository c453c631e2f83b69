import Recognizer.Token.Lexeme

/-!
# Token cursors

A scanner reads one lexeme at a time. A cursor is a scanner seen through a stack
of filters: it always rests on a lexeme that every filter keeps, or on the end
of the source. Cursors are compared by their offsets alone.
-/
namespace Recognizer

/-- A source read up to one lexeme, which is absent at the end. -/
structure Scanner where
  size : Nat
  current? : Option Lexeme
  rest : Bytes
  deriving DecidableEq, Repr

namespace Scanner

/-- The scanner on the first lexeme of the remaining bytes. -/
def read (size offset : Nat) (bytes : Bytes) : Scanner :=
  match Lexeme.next? offset bytes with
  | some (x, rest) => ⟨size, some x, rest⟩
  | none => ⟨size, none, []⟩

/-- The scanner whose first lexeme starts at an offset. -/
def resumeAt (source : Bytes) (offset : Nat) : Scanner :=
  read source.length offset (source.drop offset)

/-- The scanner at the end of a source. -/
def endOf (source : Bytes) : Scanner := ⟨source.length, none, []⟩

/-- Move past the current lexeme. The end stays the end. -/
def advance (s : Scanner) : Scanner :=
  match s.current? with
  | some x => read s.size x.stop s.rest
  | none => s

/-- The offset of the current lexeme, or of the end. -/
def position (s : Scanner) : Nat :=
  match s.current? with
  | some x => x.start
  | none => s.size

/-- A scanner with its offset, the size of the source and the current kind. -/
def text (s : Scanner) : String :=
  let current := match s.current? with
    | some x => "Some(" ++ x.kind.name ++ ")"
    | none => "None"
  "TokenScanner \x7b position: " ++ toString s.position ++ ", end: " ++ toString s.size ++
    ", current: " ++ current ++ " \x7d"

@[simp] theorem size_read (size offset : Nat) (bytes : Bytes) :
    (read size offset bytes).size = size := by
  unfold read
  split <;> rfl

@[simp] theorem size_advance (s : Scanner) : s.advance.size = s.size := by
  unfold advance
  split <;> simp

@[simp] theorem advance_endOf (source : Bytes) : (endOf source).advance = endOf source := rfl

@[simp] theorem position_endOf (source : Bytes) : (endOf source).position = source.length := rfl

end Scanner

/-- A filter keeps some lexemes and hides the others. -/
abbrev Filter := Lexeme → Bool

/-- A scanner seen through filters, the outermost first. -/
structure Cursor where
  filters : List Filter
  scanner : Scanner

namespace Cursor

/-- Move with `step` until the filter keeps the current lexeme or the end is
reached. Each move takes a byte, so the remaining bytes bound the moves. -/
def skip (step : Scanner → Scanner) (keep : Filter) : Bytes → Scanner → Scanner
  | [], s =>
    match s.current? with
    | none => s
    | some x => if keep x then s else step s
  | _ :: clock, s =>
    match s.current? with
    | none => s
    | some x => if keep x then s else skip step keep clock (step s)

/-- One move of a filtered scanner: one move of the scanner under the outermost
filter, then moves past the lexemes that this filter hides. -/
def moveThrough : List Filter → Scanner → Scanner
  | [], s => s.advance
  | keep :: inner, s =>
    match s.current? with
    | none => s
    | some _ =>
      let moved := moveThrough inner s
      skip (moveThrough inner) keep moved.rest moved

/-- Move to the nearest lexeme that every filter keeps. -/
def settle : List Filter → Scanner → Scanner
  | [], s => s
  | keep :: inner, s =>
    let settled := settle inner s
    skip (moveThrough inner) keep settled.rest settled

/-- The cursor on the first visible lexeme at or after an offset. -/
def openAt (filters : List Filter) (source : Bytes) (offset : Nat) : Cursor :=
  ⟨filters, settle filters (Scanner.resumeAt source offset)⟩

/-- The lexeme under the cursor. -/
def current? (c : Cursor) : Option Lexeme := c.scanner.current?

/-- Move to the next visible lexeme. -/
def advance (c : Cursor) : Cursor := { c with scanner := moveThrough c.filters c.scanner }

/-- The offset of the lexeme under the cursor, or of the end. -/
def position (c : Cursor) : Nat := c.scanner.position

/-- A cursor is exhausted when no lexeme is under it. -/
def isExhausted (c : Cursor) : Bool := c.current?.isNone

/-- Two cursors stand at the same place when their offsets agree. -/
def samePlace (c d : Cursor) : Bool := c.position == d.position

/-- The lexemes read so far, newest first, followed by those still to come, and
the exhausted cursor. -/
def drainLoop : Bytes → Cursor → List Lexeme → List Lexeme × Cursor
  | [], c, read =>
    match c.current? with
    | none => (read.reverse, c)
    | some x => ((x :: read).reverse, c.advance)
  | _ :: clock, c, read =>
    match c.current? with
    | none => (read.reverse, c)
    | some x => drainLoop clock c.advance (x :: read)

/-- The lexeme under the cursor and all that follow, and the exhausted cursor. -/
def drain (c : Cursor) : List Lexeme × Cursor := drainLoop c.scanner.rest c []

/-- The lexeme under the cursor and all that follow. -/
def toList (c : Cursor) : List Lexeme := c.drain.1

/-- The scanner's text inside one wrapper for each filter. -/
def text (c : Cursor) : String :=
  c.filters.foldr (fun _ inner => "FilteredTokens \x7b inner: " ++ inner ++ ", .. \x7d")
    c.scanner.text

@[simp] theorem filters_advance (c : Cursor) : c.advance.filters = c.filters := rfl

/-- An exhausted cursor stays where it is. -/
theorem advance_of_isExhausted {c : Cursor} (h : c.current? = none) : c.advance = c := by
  obtain ⟨filters, s⟩ := c
  simp only [current?] at h
  cases filters <;> simp [advance, moveThrough, Scanner.advance, h]

end Cursor
end Recognizer
