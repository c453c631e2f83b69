import Recognizer.Token.Kind

/-!
# Lexemes

A lexeme is a kind with the bytes it covers and the offset of the first one.
`Lexeme.next?` reads the lexeme at the front of a byte list and `Lexeme.scan`
reads all of them: the lexemes of a source partition its bytes, and a byte
outside the alphabet is a lexeme of its own.
-/
namespace Recognizer

/-- ASCII letters. -/
def isLetter (b : UInt8) : Bool := (65 ≤ b && b ≤ 90) || (97 ≤ b && b ≤ 122)

/-- ASCII digits. -/
def isDigit (b : UInt8) : Bool := 48 ≤ b && b ≤ 57

/-- The bytes that begin an identifier: letters and the underscore. -/
def isNameStart (b : UInt8) : Bool := isLetter b || b == 95

/-- The bytes that continue an identifier. -/
def isNamePart (b : UInt8) : Bool := isNameStart b || isDigit b

/-- A kind with the range of bytes it covers. -/
structure Token where
  kind : Kind
  span : Span
  deriving DecidableEq, Repr

/-- A kind with the bytes it covers and the offset of the first one. -/
structure Lexeme where
  kind : Kind
  start : Nat
  text : Bytes
  deriving DecidableEq, Repr

namespace Lexeme

/-- The offset after the last byte. -/
def stop (x : Lexeme) : Nat := x.start + x.text.length

/-- The range of bytes of a lexeme. -/
def span (x : Lexeme) : Span := ⟨x.start, x.stop⟩

/-- A lexeme without its bytes. -/
def token (x : Lexeme) : Token := ⟨x.kind, x.span⟩

/-- A lexeme matters to the grammar when its kind does. -/
def isSignificant (x : Lexeme) : Bool := x.kind.isSignificant

/-- The kind of a byte that never joins the next one. -/
def single (b : UInt8) : Kind :=
  match Char.ofNat b.toNat with
  | '(' => .openParen
  | ')' => .closeParen
  | '[' => .openBracket
  | ']' => .closeBracket
  | '\x7b' => .openBrace
  | '\x7d' => .closeBrace
  | ',' => .comma
  | ';' => .semicolon
  | '-' => .minus
  | '*' => .star
  | '%' => .percent
  | '+' => .plus
  | ':' => .colon
  | '~' => .tilde
  | ' ' => .space
  | '\n' => .newline
  | '\t' => .tab
  | _ => .invalid

/-- The bytes that join a fixed second byte: that byte, the kind of the pair and
the kind of the first byte alone. -/
def pair? (b : UInt8) : Option (UInt8 × Kind × Kind) :=
  match Char.ofNat b.toNat with
  | '&' => some (38, .doubleAmpersand, .ampersand)
  | '|' => some (124, .doublePipe, .pipe)
  | '=' => some (61, .doubleEquals, .equals)
  | '!' => some (61, .bangEquals, .bang)
  | '<' => some (61, .lessEquals, .less)
  | '>' => some (61, .greaterEquals, .greater)
  | _ => none

/-- The kind and the text at the front of a source that begins with `b`, and the
bytes after it. -/
def first (b : UInt8) (bs : Bytes) : Kind × Bytes × Bytes :=
  if isNameStart b then
    (.identifier, b :: bs.takeWhile isNamePart, bs.dropWhile isNamePart)
  else if isDigit b then
    let digits := bs.takeWhile isDigit
    match bs.dropWhile isDigit with
    | 46 :: r => (.real, b :: (digits ++ 46 :: r.takeWhile isDigit), r.dropWhile isDigit)
    | r => (.integer, b :: digits, r)
  else if b == 46 then
    match bs with
    | d :: _ =>
      if isDigit d then (.real, b :: bs.takeWhile isDigit, bs.dropWhile isDigit)
      else (.dot, [b], bs)
    | [] => (.dot, [b], bs)
  else if b == 47 then
    match bs with
    | 47 :: r => (.comment, b :: 47 :: r.takeWhile (· != 10), r.dropWhile (· != 10))
    | _ => (.slash, [b], bs)
  else match pair? b with
    | some (second, double, alone) =>
      match bs with
      | c :: r => if c == second then (double, [b, c], r) else (alone, [b], bs)
      | [] => (alone, [b], bs)
    | none => (single b, [b], bs)

/-- The lexeme at the front of a source whose first byte has the offset given,
and the bytes after it. -/
def next? (offset : Nat) : Bytes → Option (Lexeme × Bytes)
  | [] => none
  | b :: bs =>
    let (kind, text, rest) := first b bs
    some (⟨kind, offset, text⟩, rest)

/-- The lexemes read so far, newest first, followed by those of the remaining
bytes. A lexeme takes at least one byte, so one step for each byte is enough. -/
def scanLoop : Nat → Nat → Bytes → List Lexeme → List Lexeme
  | 0, _, _, read => read.reverse
  | steps + 1, offset, bytes, read =>
    match next? offset bytes with
    | none => read.reverse
    | some (x, rest) => scanLoop steps x.stop rest (x :: read)

/-- The lexemes of a source from an offset on, which may lie inside a lexeme of
the whole source or past its end. -/
def scanFrom (source : Bytes) (offset : Nat) : List Lexeme :=
  let bytes := source.drop offset
  scanLoop bytes.length offset bytes []

/-- The lexemes of a whole source. -/
def scan (source : Bytes) : List Lexeme := scanFrom source 0

/-- The lexemes from an offset on that the grammar sees. -/
def significantFrom (source : Bytes) (offset : Nat) : List Lexeme :=
  (scanFrom source offset).filter isSignificant

/-- The lexemes of a whole source that the grammar sees. -/
def significant (source : Bytes) : List Lexeme := significantFrom source 0

/-- Reading a lexeme splits the bytes and keeps their order. -/
theorem first_append (b : UInt8) (bs : Bytes) :
    (first b bs).2.1 ++ (first b bs).2.2 = b :: bs := by
  unfold first
  split
  · simp
  split
  · have h := List.takeWhile_append_dropWhile (p := isDigit) (l := bs)
    dsimp only
    split
    · next r hr => simp only [List.cons_append, List.append_assoc,
        List.takeWhile_append_dropWhile, ← hr, h]
    · simp
  split
  · split
    · split <;> simp
    · simp
  split
  · split <;> simp
  split
  · split
    · split <;> simp
    · simp
  · simp

/-- A lexeme holds at least the byte it was read at. -/
theorem first_text_ne_nil (b : UInt8) (bs : Bytes) : (first b bs).2.1 ≠ [] := by
  unfold first
  repeat' split
  all_goals simp

@[simp] theorem next?_nil (offset : Nat) : next? offset [] = none := rfl

theorem next?_eq_some {offset : Nat} {bytes rest : Bytes} {x : Lexeme}
    (h : next? offset bytes = some (x, rest)) :
    x.start = offset ∧ x.text ≠ [] ∧ x.text ++ rest = bytes := by
  cases bytes with
  | nil => simp at h
  | cons b bs =>
    simp only [next?, Option.some.injEq, Prod.mk.injEq] at h
    obtain ⟨rfl, rfl⟩ := h
    exact ⟨rfl, first_text_ne_nil b bs, first_append b bs⟩

end Lexeme
end Recognizer
