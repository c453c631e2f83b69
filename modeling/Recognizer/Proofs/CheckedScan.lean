import Recognizer.Proofs.Machine
import Recognizer.Proofs.Places

/-!
# Scanning with checked operations

A machine works with words of bounded size, and stops where an operation has no result: at
a sum that is no word, at a difference below zero, at an index or a range outside its list,
at a span whose ends are reversed. Here a source is scanned with operations that say so. A
source that can be addressed in words is scanned without such a stop, from every offset, and
the tokens are those of its lexemes (`scanToken_eq`, `significantAt_eq`).
-/
namespace Recognizer

open Grammar

/-- Why a checked operation stops. -/
inductive Panic where
  /-- A sum is not a word. -/
  | overflow
  /-- A difference is below zero. -/
  | underflow
  /-- An index or a range is not within its list. -/
  | outOfRange
  /-- A span ends before it starts. -/
  | reversedSpan
  /-- The global scope would be closed. -/
  | globalScope
  /-- There is no scope. -/
  | noScope
  /-- A token does not move a loop over tokens forward. -/
  | unmoved
  deriving DecidableEq, Repr

namespace Checked

section Operations

variable (word : Nat)

/-- The sum of two words. -/
def add (a b : Nat) : Except Panic Nat := if a + b < word then .ok (a + b) else .error .overflow

/-- The difference of two words. -/
def sub (a b : Nat) : Except Panic Nat := if b ≤ a then .ok (a - b) else .error .underflow

/-- The element at an index. -/
def index {α : Type} (xs : List α) (i : Nat) : Except Panic α :=
  match xs[i]? with
  | some a => .ok a
  | none => .error .outOfRange

/-- The bytes of a range. -/
def slice (s : Span) (source : Bytes) : Except Panic Bytes :=
  match s.slice? source with
  | some bytes => .ok bytes
  | none => .error .outOfRange

/-- The span between two offsets. -/
def span (start stop : Nat) : Except Panic Span :=
  (Span.between start stop).mapError fun _ => .reversedSpan

/-- The number of bytes of a span. -/
def length (s : Span) : Except Panic Nat := sub s.stop s.start

end Operations

variable (word : Nat) (source : Bytes)

/-- The first offset from `start` on whose byte is not accepted, or the end. -/
def scanWhile (start : Nat) (accept : UInt8 → Bool) : Except Panic Nat := do
  let rest ← slice ⟨min start source.length, source.length⟩ source
  match rest.findIdx? fun b => !accept b with
  | some n => add word start n
  | none => return source.length

/-- The kind and the end of the token that starts with a byte, given the next byte. -/
def extent (start : Nat) (byte : UInt8) (next : Option UInt8) : Except Panic (Kind × Nat) :=
  if isNameStart byte then
    return (.identifier, ← scanWhile word source (← add word start 1) isNamePart)
  else if isDigit byte then do
    let digits ← scanWhile word source (← add word start 1) isDigit
    if source[digits]? = some 46 then
      return (.real, ← scanWhile word source (← add word digits 1) isDigit)
    else return (.integer, digits)
  else if byte == 46 then
    if next.any isDigit then
      return (.real, ← scanWhile word source (← add word start 1) isDigit)
    else return (.dot, ← add word start 1)
  else if byte == 47 then
    if next = some 47 then
      return (.comment, ← scanWhile word source (← add word start 2) (· != 10))
    else return (.slash, ← add word start 1)
  else match Lexeme.pair? byte with
    | some (second, double, alone) =>
      if next = some second then return (double, ← add word start 2)
      else return (alone, ← add word start 1)
    | none => return (Lexeme.single byte, ← add word start 1)

/-- The token that starts at an offset. -/
def scanToken (start : Nat) : Except Panic (Option Token) :=
  match source[start]? with
  | none => return none
  | some byte => do
    let next := source[← add word start 1]?
    let (kind, stop) ← extent word source start byte next
    return some ⟨kind, ← span start stop⟩

/-- The first significant token from an offset on. -/
def significantAt (offset : Nat) : Except Panic (Option Token) := do
  match ← scanToken word source offset with
  | none => return none
  | some t =>
    if t.kind.isSignificant then return some t
    else if _h : offset < t.span.stop ∧ t.span.stop ≤ source.length then
      significantAt t.span.stop
    else .error .unmoved
termination_by source.length - offset
decreasing_by omega

section Operations

variable {word a b : Nat} {source bytes : Bytes} {s : Span}

theorem add_eq (h : a + b < word) : add word a b = .ok (a + b) := if_pos h

theorem sub_eq (h : b ≤ a) : sub a b = .ok (a - b) := if_pos h

theorem index_eq {α : Type} {xs : List α} {i : Nat} {x : α} (h : xs[i]? = some x) :
    index xs i = .ok x := by
  rw [index, h]

theorem slice_eq (h : s.slice? source = some bytes) : slice s source = .ok bytes := by
  rw [slice, h]

theorem span_eq (h : a ≤ b) : span a b = .ok ⟨a, b⟩ := by
  rw [span, Span.between, if_pos h]
  rfl

end Operations

/-- The offset at which the last bytes of a source begin. -/
def place (source bytes : Bytes) : Nat := source.length - bytes.length

section Places

variable {word : Nat} {source bytes r : Bytes} {c d : UInt8}

theorem drop_place (h : bytes <:+ source) : source.drop (place source bytes) = bytes :=
  (List.suffix_iff_eq_drop.1 h).symm

theorem getElem?_place (h : bytes <:+ source) : source[place source bytes]? = bytes.head? := by
  rw [← List.head?_drop, drop_place h]

theorem add_place (hsource : source.length < word) (h : c :: r <:+ source) :
    add word (place source (c :: r)) 1 = .ok (place source r) := by
  have hlength := h.length_le
  rw [List.length_cons] at hlength
  have hplace : place source r = place source (c :: r) + 1 := by
    rw [place, place, List.length_cons]
    omega
  rw [hplace]
  exact add_eq (by rw [place, List.length_cons]; omega)

theorem add_place_two (hsource : source.length < word) (h : c :: d :: r <:+ source) :
    add word (place source (c :: d :: r)) 2 = .ok (place source r) := by
  have hlength := h.length_le
  rw [List.length_cons, List.length_cons] at hlength
  have hplace : place source r = place source (c :: d :: r) + 2 := by
    rw [place, place, List.length_cons, List.length_cons]
    omega
  rw [hplace]
  exact add_eq (by rw [place, List.length_cons, List.length_cons]; omega)

/-- Bytes of one class are scanned to where they end. -/
theorem scanWhile_place (hsource : source.length < word) (h : bytes <:+ source)
    (accept : UInt8 → Bool) : scanWhile word source (place source bytes) accept =
      .ok (place source (bytes.dropWhile accept)) := by
  have hlength := h.length_le
  have hslice : (Span.mk (min (place source bytes) source.length) source.length).slice? source =
      some bytes := by
    have hle : place source bytes ≤ source.length := Nat.sub_le ..
    have htake : source.length - place source bytes = bytes.length := by rw [place]; omega
    simp [Span.slice?, hle, drop_place h, htake]
  rw [scanWhile, slice_eq hslice, ok_bind, List.dropWhile_eq_drop_findIdx_not]
  cases hfind : bytes.findIdx? fun b => !accept b with
  | none =>
    rw [List.findIdx?_eq_none_iff_findIdx_eq] at hfind
    rw [hfind, List.drop_length]
    rfl
  | some n =>
    obtain ⟨hn, hfind⟩ := List.findIdx?_eq_some_iff_findIdx_eq.1 hfind
    have hplace : place source (bytes.drop n) = place source bytes + n := by
      rw [place, place, List.length_drop]
      omega
    rw [hfind, hplace]
    exact add_eq (by rw [place]; omega)

/-- The lexeme with which the last bytes of a source begin ends where those behind it begin. -/
theorem extent_place (hsource : source.length < word) {b : UInt8} {bs : Bytes}
    (h : b :: bs <:+ source) : extent word source (place source (b :: bs)) b bs.head? =
      .ok ((Lexeme.first b bs).1, place source (Lexeme.first b bs).2.2) := by
  have hbs : bs <:+ source := (List.suffix_cons b bs).trans h
  have hone := add_place hsource h
  have hscan (accept : UInt8 → Bool) := scanWhile_place hsource hbs accept
  unfold extent Lexeme.first
  by_cases hname : isNameStart b = true
  · simp only [if_pos hname, hone, ok_bind, hscan, pure_eq_ok]
  by_cases hdigit : isDigit b = true
  · have hrest : bs.dropWhile isDigit <:+ source := (List.dropWhile_suffix _).trans hbs
    simp only [if_neg hname, if_pos hdigit, hone, ok_bind, hscan, getElem?_place hrest]
    cases hr : bs.dropWhile isDigit with
    | nil => simp
    | cons c r =>
      rw [hr] at hrest
      by_cases hc : c = 46
      · subst hc
        have hafter : r <:+ source := (List.suffix_cons 46 r).trans hrest
        simp [add_place hsource hrest, scanWhile_place hsource hafter]
      · simp [hc]
  by_cases hpoint : (b == 46) = true
  · simp only [if_neg hname, if_neg hdigit, if_pos hpoint, hone, ok_bind, hscan, pure_eq_ok]
    cases bs with
    | nil => rfl
    | cons d ds => by_cases hd : isDigit d = true <;> simp [hd]
  by_cases hslash : (b == 47) = true
  · simp only [if_neg hname, if_neg hdigit, if_neg hpoint, if_pos hslash, hone, ok_bind, pure_eq_ok]
    cases bs with
    | nil => rfl
    | cons c r =>
      by_cases hc : c = 47
      · subst hc
        have hafter : r <:+ source := (List.suffix_cons 47 r).trans hbs
        simp [add_place_two hsource h, scanWhile_place hsource hafter]
      · simp [hc]
  simp only [if_neg hname, if_neg hdigit, if_neg hpoint, if_neg hslash, hone, ok_bind, pure_eq_ok]
  cases Lexeme.pair? b with
  | none => rfl
  | some p =>
    obtain ⟨second, double, alone⟩ := p
    cases bs with
    | nil => rfl
    | cons c r =>
      by_cases hc : c = second
      · subst hc
        simp [add_place_two hsource h]
      · simp [hc]

end Places

section Scanning

variable {word : Nat} {source : Bytes} (hsource : source.length < word)
include hsource

/-- The token at an offset is that of the lexeme there. -/
theorem scanToken_eq (start : Nat) : scanToken word source start =
    .ok ((Lexeme.next? start (source.drop start)).map fun read => read.1.token) := by
  have hsuffix := List.drop_suffix start source
  cases hbytes : source.drop start with
  | nil =>
    have hend : source[start]? = none := by rw [← List.head?_drop, hbytes]; rfl
    rw [scanToken, hend]
    rfl
  | cons b bs =>
    rw [hbytes] at hsuffix
    have hlength := congrArg List.length hbytes
    rw [List.length_drop, List.length_cons] at hlength
    have hplace : place source (b :: bs) = start := by
      rw [place, List.length_cons]
      omega
    have hbyte : source[start]? = some b := by rw [← List.head?_drop, hbytes]; rfl
    have hbs : bs <:+ source := (List.suffix_cons b bs).trans hsuffix
    have hone := add_place hsource hsuffix
    have hextent := extent_place hsource hsuffix
    rw [hplace] at hone hextent
    have hstop : place source (Lexeme.first b bs).2.2 =
        start + (Lexeme.first b bs).2.1.length := by
      have hsplit := congrArg List.length (Lexeme.first_append b bs)
      rw [List.length_append, List.length_cons] at hsplit
      rw [place]
      omega
    simp only [scanToken, hbyte, hone, ok_bind, getElem?_place hbs, hextent, hstop]
    rw [span_eq (Nat.le_add_right ..)]
    rfl

/-- The first significant token from an offset on is that of the first significant lexeme. -/
theorem significantAt_eq (offset : Nat) : significantAt word source offset =
    .ok ((Lexeme.significantFrom source offset).head?.map Lexeme.token) := by
  induction hn : source.length - offset using Nat.strongRecOn generalizing offset with
  | ind n ih =>
    rw [significantAt, scanToken_eq hsource, ok_bind]
    cases hscan : Lexeme.scanFrom source offset with
    | nil =>
      have hend := Lexeme.scanFrom_eq_nil_iff.1 hscan
      rw [List.drop_eq_nil_of_le hend, Lexeme.significantFrom_of_le hend]
      rfl
    | cons x xs =>
      obtain ⟨hnext, rfl⟩ := Lexeme.scanFrom_eq_cons hscan
      obtain ⟨hstart, hne, hwithin, -⟩ := Lexeme.next?_drop hnext
      simp only [hnext, Option.map_some, Lexeme.significantFrom, hscan]
      by_cases hx : x.isSignificant = true
      · rw [List.filter_cons_of_pos hx]
        exact if_pos hx
      · have hmoved : offset < x.stop ∧ x.stop ≤ source.length := ⟨by omega, hwithin⟩
        rw [List.filter_cons_of_neg hx]
        exact (if_neg hx).trans
          ((dif_pos hmoved).trans (ih (source.length - x.stop) (by omega) x.stop rfl))

end Scanning
end Checked
end Recognizer
