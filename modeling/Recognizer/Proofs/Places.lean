import Recognizer.Proofs.Rescan

/-!
# Places in a source

Every lexeme of a source covers bytes of the source, and reading again from the place at
which a lexeme starts gives that lexeme and those after it. So a place determines what
is still to be read there.
-/
namespace Recognizer
namespace Lexeme

/-- Reading from an offset gives the lexemes of the bytes behind it. -/
theorem Scans.scanFrom_eq {source : Bytes} {offset : Nat} {xs : List Lexeme}
    (h : Scans offset (source.drop offset) xs) : scanFrom source offset = xs := by
  simpa [scanFrom] using h.scanLoop_eq (Nat.le_refl _) []

theorem Scans.scanFrom (source : Bytes) (offset : Nat) :
    Scans offset (source.drop offset) (Lexeme.scanFrom source offset) := by
  obtain ⟨xs, h⟩ := exists_of_length _ offset (source.drop offset) (Nat.le_refl _)
  rwa [h.scanFrom_eq]

variable {source rest : Bytes} {offset : Nat} {x : Lexeme} {xs : List Lexeme}

/-- What is read at an offset lies within the source, and the bytes after it are those
from where it stops. -/
theorem next?_drop (h : next? offset (source.drop offset) = some (x, rest)) :
    x.start = offset ∧ x.start < x.stop ∧ x.stop ≤ source.length ∧
      rest = source.drop x.stop ∧ x.text = (source.drop x.start).take x.text.length := by
  obtain ⟨rfl, hne, hbytes⟩ := next?_eq_some h
  have hpos := List.length_pos_iff.2 hne
  have hlen := congrArg List.length hbytes
  rw [List.length_append, List.length_drop] at hlen
  refine ⟨rfl, by simp only [stop]; omega, by simp only [stop]; omega, ?_, ?_⟩
  · rw [stop, ← List.drop_drop, ← hbytes, List.drop_left]
  · rw [← hbytes, List.take_left]

theorem scanFrom_of_next? (h : next? offset (source.drop offset) = some (x, rest)) :
    scanFrom source offset = x :: scanFrom source x.stop := by
  obtain ⟨-, -, -, rfl, -⟩ := next?_drop h
  exact (Scans.cons h (.scanFrom source x.stop)).scanFrom_eq

/-- The lexemes behind a place: the first one starts there and the others are those
behind its last byte. -/
theorem scanFrom_eq_cons (h : scanFrom source offset = x :: xs) :
    next? offset (source.drop offset) = some (x, source.drop x.stop) ∧
      xs = scanFrom source x.stop := by
  have hscans := Scans.scanFrom source offset
  rw [h] at hscans
  generalize hbytes : source.drop offset = bytes at hscans
  cases hscans with
  | cons hx hxs =>
    subst hbytes
    obtain ⟨-, -, -, rfl, -⟩ := next?_drop hx
    exact ⟨hx, hxs.scanFrom_eq.symm⟩

theorem scanFrom_eq_nil_iff : scanFrom source offset = [] ↔ source.length ≤ offset := by
  rw [← List.drop_eq_nil_iff]
  constructor
  · intro h
    have hscans := Scans.scanFrom source offset
    rw [h] at hscans
    generalize source.drop offset = bytes at hscans ⊢
    cases hscans
    rfl
  · intro h
    exact Scans.scanFrom_eq (h ▸ .nil)

/-- A lexeme covers bytes of the source, which are its text, and reading again from its
start gives it back. -/
structure Placed (source : Bytes) (x : Lexeme) : Prop where
  nonempty : x.start < x.stop
  within : x.stop ≤ source.length
  text : x.span.slice? source = some x.text
  again : scanFrom source x.start = x :: scanFrom source x.stop

theorem placed_of_next? (h : next? offset (source.drop offset) = some (x, rest)) :
    x.Placed source := by
  obtain ⟨rfl, hne, hwithin, -, htext⟩ := next?_drop h
  refine ⟨hne, hwithin, ?_, scanFrom_of_next? h⟩
  have hlen : x.stop - x.start = x.text.length := Nat.add_sub_cancel_left ..
  simp [span, Span.slice?, hne.le, hwithin, hlen, ← htext]

/-- Every lexeme that is read from an offset on has its place behind the offset, and the
lexemes that follow it are those behind its last byte. -/
theorem scanFrom_eq_append {before after : List Lexeme}
    (h : scanFrom source offset = before ++ x :: after) :
    offset ≤ x.start ∧ x.Placed source ∧ after = scanFrom source x.stop := by
  induction before generalizing offset with
  | nil =>
    obtain ⟨hnext, hafter⟩ := scanFrom_eq_cons h
    exact ⟨(next?_drop hnext).1.ge, placed_of_next? hnext, hafter⟩
  | cons y before ih =>
    obtain ⟨hnext, hafter⟩ := scanFrom_eq_cons h
    obtain ⟨hstart, hstop, -⟩ := next?_drop hnext
    obtain ⟨hle, hx⟩ := ih hafter.symm
    exact ⟨by omega, hx⟩

theorem placed_of_mem (h : x ∈ scanFrom source offset) : x.Placed source := by
  obtain ⟨before, after, hscan⟩ := List.append_of_mem h
  exact (scanFrom_eq_append hscan).2.1

/-- The significant lexemes behind a place, of which the first need not start there: the
place at which it starts has the same ones behind it. -/
theorem significantFrom_eq_cons (h : significantFrom source offset = x :: xs) :
    x.isSignificant = true ∧ offset ≤ x.start ∧ x.Placed source ∧
      significantFrom source x.start = x :: xs ∧ significantFrom source x.stop = xs := by
  obtain ⟨before, after, hscan, -, hx, hxs⟩ := List.filter_eq_cons_iff.1 h
  obtain ⟨hle, hplaced, rfl⟩ := scanFrom_eq_append hscan
  refine ⟨hx, hle, hplaced, ?_, hxs⟩
  rw [significantFrom, hplaced.again, List.filter_cons_of_pos hx, hxs]

theorem significantFrom_of_le (h : source.length ≤ offset) :
    significantFrom source offset = [] := by
  rw [significantFrom, scanFrom_eq_nil_iff.2 h, List.filter_nil]

end Lexeme

namespace Grammar.State

/-- The lexemes still to be consumed are those that the source has from the place of the
state on. -/
structure Anchored (source : Bytes) (s : State) : Prop where
  size : s.size = source.length
  rest : s.rest = Lexeme.significantFrom source s.position

namespace Anchored

variable {source : Bytes} {s t : State}

theorem of_significantFrom {offset : Nat} (hsize : s.size = source.length)
    (h : s.rest = Lexeme.significantFrom source offset) : s.Anchored source := by
  refine ⟨hsize, ?_⟩
  unfold position
  split
  · next x xs hrest =>
    rw [hrest] at h
    rw [hrest, (Lexeme.significantFrom_eq_cons h.symm).2.2.2.1]
  · next hrest => rw [hrest, Lexeme.significantFrom_of_le hsize.ge]

theorem le_position {offset : Nat} (hsize : s.size = source.length)
    (h : s.rest = Lexeme.significantFrom source offset) (hoffset : offset ≤ source.length) :
    offset ≤ s.position := by
  unfold position
  split
  · next x xs hrest =>
    rw [hrest] at h
    exact (Lexeme.significantFrom_eq_cons h.symm).2.1
  · exact hsize ▸ hoffset

/-- The next lexeme is a significant one of the source and starts at the place of the state. -/
theorem head {x : Lexeme} {xs : List Lexeme} (h : s.Anchored source) (hrest : s.rest = x :: xs) :
    x.isSignificant = true ∧ x.Placed source ∧ s.position = x.start := by
  have hplace := h.rest
  rw [hrest] at hplace
  obtain ⟨hx, -, hplaced, -⟩ := Lexeme.significantFrom_eq_cons hplace.symm
  exact ⟨hx, hplaced, by rw [position, hrest]⟩

/-- Consuming a lexeme moves the place forward. -/
theorem advance {x : Lexeme} {xs : List Lexeme} (h : s.Anchored source) (hrest : s.rest = x :: xs) :
    s.advance.Anchored source ∧ s.position < s.advance.position := by
  obtain ⟨-, hplaced, hposition⟩ := h.head hrest
  have hplace := h.rest
  rw [hrest] at hplace
  have hadvance : s.advance.rest = Lexeme.significantFrom source x.stop := by
    rw [(Lexeme.significantFrom_eq_cons hplace.symm).2.2.2.2, State.advance, hrest, List.tail_cons]
  refine ⟨of_significantFrom (s := s.advance) h.size hadvance, ?_⟩
  calc s.position = x.start := hposition
    _ < x.stop := hplaced.nonempty
    _ ≤ s.advance.position := le_position (s := s.advance) h.size hadvance hplaced.within

/-- So the place moves forward with the lexemes that are consumed. -/
theorem suffix (h : s.Anchored source) (hsize : t.size = s.size) (hrest : t.rest <:+ s.rest) :
    t.Anchored source ∧ s.position ≤ t.position ∧ (t.rest ≠ s.rest → s.position < t.position) := by
  obtain ⟨before, hbefore⟩ := hrest
  induction before generalizing s with
  | nil =>
    have hrest : t.rest = s.rest := hbefore
    refine ⟨of_significantFrom (hsize.trans h.size) (hrest.trans h.rest), ?_,
      fun hne => absurd hrest hne⟩
    rw [position, position, hrest, hsize]
  | cons x before ih =>
    obtain ⟨hanchored, hlt⟩ := h.advance hbefore.symm
    have hadvance : before ++ t.rest = s.advance.rest := by
      rw [State.advance, ← hbefore, List.cons_append, List.tail_cons]
    obtain ⟨ht, hle, -⟩ := ih hanchored hsize hadvance
    exact ⟨ht, by omega, fun _ => by omega⟩

end Anchored
end Grammar.State

namespace Parser

/-- A program is read from the first significant lexeme of the source. -/
theorem anchored_start {p : Parser} (h : p.state.size = p.source.length) :
    p.start.Anchored p.source :=
  .of_significantFrom (s := p.start) h rfl

/-- Where a parser stops, it stands at a place of its source. -/
theorem anchored_parseProgram {p : Parser} (h : p.state.size = p.source.length) :
    p.parseProgram.2.state.Anchored p.source := by
  have hruns := Grammar.runs_perform p.preferences p.limits.maxDepth
    Grammar.productive_declarations p.start
  rw [p.state_parseProgram]
  exact ((anchored_start h).suffix hruns.size_eq hruns.suffix).1

end Parser
end Recognizer
