/-!
# Byte ranges of a source buffer

A source is a list of bytes. A span names the half-open range of bytes between
two offsets. Spans read from outside may be reversed, so the operations that
need an ordered range return an option.
-/
namespace Recognizer

/-- The bytes of a source buffer, of a token or of a declared name. -/
abbrev Bytes := List UInt8

/-- The bytes of an ASCII spelling, one for each character. -/
def Bytes.ofAscii (letters : List Char) : Bytes := letters.map fun c => c.toNat.toUInt8

/-- A text that shows every ASCII byte as its character and every other byte as
the replacement character. -/
def Bytes.display (bytes : Bytes) : String :=
  String.ofList (bytes.map fun b => if b < 0x80 then Char.ofNat b.toNat else Char.ofNat 0xFFFD)

/-- A range of bytes from `start` up to, but excluding, `stop`. -/
structure Span where
  start : Nat
  stop : Nat
  deriving DecidableEq, Repr

namespace Span

/-- Why a span cannot be built. -/
inductive Fault where
  | reversed
  deriving DecidableEq, Repr

/-- The wording of a fault. -/
def Fault.message : Fault → String
  | .reversed => "Span start must not be after end"

/-- The span between two ordered offsets. -/
def between (start stop : Nat) : Except Fault Span :=
  if start ≤ stop then .ok ⟨start, stop⟩ else .error .reversed

/-- The empty span at an offset. -/
def emptyAt (offset : Nat) : Span := ⟨offset, offset⟩

/-- The empty span at the first byte. -/
def zero : Span := emptyAt 0

/-- The number of bytes of an ordered span. -/
def length? (s : Span) : Option Nat :=
  if s.start ≤ s.stop then some (s.stop - s.start) else none

/-- A span is empty when both ends are equal. -/
def isEmpty (s : Span) : Bool := s.start == s.stop

/-- The smallest span that covers both. -/
def merge (s t : Span) : Span := ⟨min s.start t.start, max s.stop t.stop⟩

/-- An offset lies in a span when it is neither before the start nor at or after
the end. -/
def contains (s : Span) (offset : Nat) : Bool := s.start ≤ offset && offset < s.stop

/-- The bytes that an ordered span within the source covers. -/
def slice? (s : Span) (source : Bytes) : Option Bytes :=
  if s.start ≤ s.stop ∧ s.stop ≤ source.length then
    some ((source.drop s.start).take (s.stop - s.start))
  else none

/-- Both offsets with two dots between them. -/
def text (s : Span) : String := toString s.start ++ ".." ++ toString s.stop

theorem between_eq_ok_iff {a b : Nat} {s : Span} :
    between a b = .ok s ↔ a ≤ b ∧ s = ⟨a, b⟩ := by
  unfold between
  split <;> rename_i h <;> simp [h, eq_comm]

@[simp] theorem between_self (a : Nat) : between a a = .ok (emptyAt a) := by
  simp [between, emptyAt]

/-- A slice has as many bytes as its span. -/
theorem length_slice {s : Span} {source bytes : Bytes} (h : s.slice? source = some bytes) :
    s.length? = some bytes.length := by
  unfold slice? at h
  split at h
  · next hb =>
    obtain rfl := Option.some.inj h
    simp only [length?, hb.1, if_true, List.length_take, List.length_drop, Option.some.injEq]
    omega
  · cases h

end Span
end Recognizer
