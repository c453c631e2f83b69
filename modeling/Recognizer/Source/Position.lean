import Recognizer.Source.Span

/-!
# Lines and columns

A position is an offset with its line and column, both counted from one in
32-bit words. A line map holds the offsets at which lines start and finds the
position of an offset on demand.
-/
namespace Recognizer

/-- An offset with the line and the byte column it falls on. -/
structure Position where
  offset : Nat
  line : UInt32
  column : UInt32
  deriving DecidableEq, Repr

namespace Position

/-- The position of the first byte of any source. -/
def start : Position := ⟨0, 1, 1⟩

/-- The position that names no place. -/
def unset : Position := ⟨0, 0, 0⟩

/-- Line and column with a colon between them. -/
def text (p : Position) : String := toString p.line.toNat ++ ":" ++ toString p.column.toNat

/-- Positions are ordered by offset, then by line, then by column. -/
def order (p q : Position) : Ordering :=
  (compare p.offset q.offset).then
    ((compare p.line.toNat q.line.toNat).then (compare p.column.toNat q.column.toNat))

end Position

/-- The offsets at which the lines of a source start, in increasing order. -/
structure LineMap where
  size : Nat
  starts : List Nat
  deriving DecidableEq, Repr

namespace LineMap

/-- The offset after each line feed, when the first byte has the offset given. -/
def breaks : Nat → Bytes → List Nat
  | _, [] => []
  | o, b :: bs => if b = 10 then (o + 1) :: breaks (o + 1) bs else breaks (o + 1) bs

/-- The line map of a source. The first line starts at zero and every line feed
ends a line. -/
def ofSource (source : Bytes) : LineMap := ⟨source.length, 0 :: breaks 0 source⟩

/-- The number of lines, which is one more than the number of line feeds. -/
def lineCount (m : LineMap) : Nat := m.starts.length

/-- The position of an offset, which is cut to the end of the source. Its line
is the last one that starts at or before it. -/
def positionAt (m : LineMap) (offset : Nat) : Position :=
  let o := min offset m.size
  let reached := m.starts.takeWhile (· ≤ o)
  ⟨o, reached.length.toUInt32, (o - reached.getLast?.getD 0 + 1).toUInt32⟩

@[simp] theorem offset_positionAt (m : LineMap) (offset : Nat) :
    (m.positionAt offset).offset = min offset m.size := rfl

@[simp] theorem size_ofSource (source : Bytes) : (ofSource source).size = source.length := rfl

theorem length_breaks (o : Nat) (source : Bytes) :
    (breaks o source).length = source.count 10 := by
  induction source generalizing o with
  | nil => rfl
  | cons b bs ih => by_cases h : b = 10 <;> simp [breaks, h, ih]

/-- A source has one line more than it has line feeds. -/
@[simp] theorem lineCount_ofSource (source : Bytes) :
    (ofSource source).lineCount = source.count 10 + 1 := by
  simp [lineCount, ofSource, length_breaks]

end LineMap
end Recognizer
