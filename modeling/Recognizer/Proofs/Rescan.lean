import Mathlib.Data.List.TakeWhile
import Recognizer.Proofs.Mending

/-!
# Scanning what is written behind a source

A line feed never joins the bytes before it, so the lexemes of a source stay as they
are when a line feed and more text follow, and the text has the pieces that it has
alone. Pieces that are written on lines of their own are read back one by one, and
every name that a source holds can be written so.
-/
namespace Recognizer

namespace Lexeme

/-- The lexemes of the bytes, of which the first one has the offset given. -/
inductive Scans : Nat → Bytes → List Lexeme → Prop where
  | nil {offset} : Scans offset [] []
  | cons {offset bytes rest x xs} (h : next? offset bytes = some (x, rest)) :
      Scans x.stop rest xs → Scans offset bytes (x :: xs)

namespace Scans

variable {offset : Nat} {bytes : Bytes} {xs : List Lexeme}

/-- Enough steps read all lexemes. -/
theorem scanLoop_eq (h : Scans offset bytes xs) {steps : Nat} (hsteps : bytes.length ≤ steps)
    (read : List Lexeme) : scanLoop steps offset bytes read = read.reverse ++ xs := by
  induction h generalizing steps read with
  | nil => cases steps <;> simp [scanLoop]
  | @cons offset bytes rest x xs hx _ ih =>
    obtain ⟨-, hne, rfl⟩ := next?_eq_some hx
    have hpos := List.length_pos_iff.2 hne
    rw [List.length_append] at hsteps
    cases steps with
    | zero => omega
    | succ steps =>
      simp [scanLoop, hx, ih (Nat.le_of_lt_succ (by omega : rest.length < steps + 1))]

theorem exists_of_length (n : Nat) (offset : Nat) (bytes : Bytes) (hn : bytes.length ≤ n) :
    ∃ xs, Scans offset bytes xs := by
  induction n generalizing offset bytes with
  | zero =>
    obtain rfl : bytes = [] := List.length_eq_zero_iff.1 (by omega)
    exact ⟨[], .nil⟩
  | succ n ih =>
    cases hx : next? offset bytes with
    | none =>
      cases bytes with
      | nil => exact ⟨[], .nil⟩
      | cons b bs => simp [next?] at hx
    | some p =>
      obtain ⟨x, rest⟩ := p
      obtain ⟨-, hne, rfl⟩ := next?_eq_some hx
      have hpos := List.length_pos_iff.2 hne
      rw [List.length_append] at hn
      obtain ⟨xs, hxs⟩ := ih x.stop rest (by omega)
      exact ⟨x :: xs, .cons hx hxs⟩

/-- Scanning a source gives its lexemes. -/
theorem scan_eq {source : Bytes} (h : Scans 0 source xs) : scan source = xs := by
  simpa [scan, scanFrom] using h.scanLoop_eq (Nat.le_refl _) []

theorem scan (source : Bytes) : Scans 0 source (Lexeme.scan source) := by
  obtain ⟨xs, h⟩ := exists_of_length source.length 0 source (Nat.le_refl _)
  rwa [h.scan_eq]

end Scans

theorem takeWhile_newline {p : UInt8 → Bool} (hp : p 10 = false) (bs r : Bytes) :
    (bs ++ 10 :: r).takeWhile p = bs.takeWhile p ∧
      (bs ++ 10 :: r).dropWhile p = bs.dropWhile p ++ 10 :: r := by
  induction bs with
  | nil => simp [hp]
  | cons b bs ih => cases hb : p b <;> simp [hb, ih]

/-- No line feed ends a pair, and no pair is a name. -/
theorem pair?_eq_some {b second : UInt8} {double alone : Kind}
    (h : pair? b = some (second, double, alone)) :
    second ≠ 10 ∧ double ≠ .identifier ∧ alone ≠ .identifier := by
  unfold pair? at h
  split at h <;> simp only [Option.some.injEq, Prod.mk.injEq, reduceCtorEq] at h
  all_goals
    rw [← h.1, ← h.2.1, ← h.2.2]
    decide

/-- A line feed does not join the lexeme before it. -/
theorem first_newline (b : UInt8) (bs r : Bytes) : first b (bs ++ 10 :: r) =
    ((first b bs).1, (first b bs).2.1, (first b bs).2.2 ++ 10 :: r) := by
  have hname := takeWhile_newline (p := isNamePart) rfl bs r
  have hdigit (bs : Bytes) := takeWhile_newline (p := isDigit) rfl bs r
  have hline (bs : Bytes) := takeWhile_newline (p := (· != 10)) rfl bs r
  unfold first
  split
  · simp [hname]
  split
  · dsimp only
    rw [(hdigit bs).2, (hdigit bs).1]
    cases hrest : bs.dropWhile isDigit with
    | nil => simp
    | cons c t =>
      by_cases hc : c = 46
      · subst hc
        simp [hdigit]
      · simp [hc]
  split
  · cases bs with
    | nil => simp [isDigit]
    | cons d bs =>
      simp only [List.cons_append]
      split
      · have := hdigit (d :: bs)
        simp only [List.cons_append] at this
        simp [this]
      · simp
  split
  · cases bs with
    | nil => simp
    | cons c bs =>
      by_cases hc : c = 47
      · subst hc
        simp [hline]
      · simp [hc]
  split
  · next second double alone hpair =>
    cases bs with
    | nil => simp [(pair?_eq_some hpair).1.symm]
    | cons c bs =>
      simp only [List.cons_append]
      split <;> simp
  · simp

theorem next?_newline {offset : Nat} {bytes rest : Bytes} {x : Lexeme}
    (h : next? offset bytes = some (x, rest)) (r : Bytes) :
    next? offset (bytes ++ 10 :: r) = some (x, rest ++ 10 :: r) := by
  cases bytes with
  | nil => simp at h
  | cons b bs =>
    simp only [next?, Option.some.injEq, Prod.mk.injEq] at h
    obtain ⟨rfl, rfl⟩ := h
    simp [next?, first_newline]

/-- What follows a line feed is scanned on its own. -/
theorem Scans.append {offset : Nat} {bytes r : Bytes} {xs ys : List Lexeme}
    (h : Scans offset bytes xs) (hr : Scans (offset + bytes.length) (10 :: r) ys) :
    Scans offset (bytes ++ 10 :: r) (xs ++ ys) := by
  induction h with
  | nil => simpa using hr
  | @cons offset bytes rest x xs hx _ ih =>
    refine .cons (next?_newline hx r) (ih ?_)
    obtain ⟨hstart, -, rfl⟩ := next?_eq_some hx
    simpa [stop, hstart, Nat.add_assoc] using hr

/-- Identifiers begin with the bytes that begin a name. -/
theorem isNameStart_of_first {b : UInt8} {bs : Bytes} (h : (first b bs).1 = .identifier) :
    isNameStart b = true := by
  refine Decidable.byContradiction fun hb => ?_
  unfold first at h
  rw [if_neg hb] at h
  split at h
  · dsimp only at h
    split at h <;> simp at h
  split at h
  · split at h
    · split at h <;> simp at h
    · simp at h
  split at h
  · split at h <;> simp at h
  split at h
  · next second double alone hpair =>
    obtain ⟨-, hdouble, halone⟩ := pair?_eq_some hpair
    split at h
    · split at h
      · exact hdouble h
      · exact halone h
    · exact halone h
  · unfold single at h
    split at h <;> simp at h

/-- A line feed is a lexeme of its own. -/
theorem next?_line (offset : Nat) (r : Bytes) :
    next? offset (10 :: r) = some (⟨.newline, offset, [10]⟩, r) := rfl

/-- What is read does not depend on where it stands. -/
theorem next?_relocate {offset : Nat} {bytes rest : Bytes} {x : Lexeme}
    (h : next? offset bytes = some (x, rest)) (place : Nat) :
    next? place bytes = some ({ x with start := place }, rest) := by
  cases bytes with
  | nil => simp at h
  | cons b bs =>
    simp only [next?, Option.some.injEq, Prod.mk.injEq] at h
    obtain ⟨rfl, rfl⟩ := h
    rfl

/-- The lexeme as it stands behind so many more bytes. -/
def shift (d : Nat) (x : Lexeme) : Lexeme := { x with start := x.start + d }

/-- The bytes hold the same lexemes further on. -/
theorem Scans.shift {offset : Nat} {bytes : Bytes} {xs : List Lexeme} (h : Scans offset bytes xs)
    (d : Nat) : Scans (offset + d) bytes (xs.map (Lexeme.shift d)) := by
  induction h with
  | nil => exact .nil
  | @cons offset bytes rest x xs hx _ ih =>
    obtain ⟨rfl, -⟩ := next?_eq_some hx
    have hstop : (x.shift d).stop = x.stop + d := Nat.add_right_comm ..
    exact .cons (next?_relocate hx (x.start + d)) (hstop ▸ ih)

/-- The bytes before and behind a line feed are scanned separately. -/
theorem scan_newline (a b : Bytes) : scan (a ++ 10 :: b) =
    scan a ++ ⟨.newline, a.length, [10]⟩ :: (scan b).map (shift (a.length + 1)) := by
  have hbehind := (Scans.scan b).shift (a.length + 1)
  rw [Nat.zero_add] at hbehind
  have hline : Scans (0 + a.length) (10 :: b)
      (⟨.newline, a.length, [10]⟩ :: (scan b).map (shift (a.length + 1))) := by
    rw [Nat.zero_add]
    exact .cons (next?_line a.length b) hbehind
  exact ((Scans.scan a).append hline).scan_eq

/-- Which pieces are significant is decided by their kinds. -/
theorem map_piece_filter (xs : List Lexeme) : (xs.filter isSignificant).map piece =
    (xs.map piece).filter (·.1.isSignificant) := by
  rw [List.filter_map]
  rfl

/-- Behind a line feed the significant pieces of a text are its own. -/
theorem significant_newline (source text : Bytes) :
    ∃ e, significant (source ++ 10 :: text) = significant source ++ e ∧
      e.map piece = (significant text).map piece := by
  refine ⟨((scan text).map (shift (source.length + 1))).filter isSignificant, ?_, ?_⟩
  · have hblank : Kind.newline.isSignificant = false := rfl
    simpa [significant, significantFrom, scan, isSignificant, hblank] using
      congrArg (List.filter isSignificant) (scan_newline source text)
  · rw [map_piece_filter, List.map_map, significant, significantFrom, map_piece_filter]
    rfl

end Lexeme

namespace Piece

/-- The piece is a significant lexeme when its text is scanned alone. -/
def Scannable (p : Piece) : Prop :=
  p.1.isSignificant = true ∧ Lexeme.next? 0 p.2 = some (⟨p.1, 0, p.2⟩, [])

instance : DecidablePred Scannable := fun _ => inferInstanceAs (Decidable (_ ∧ _))

/-- Where the text stands does not matter. -/
theorem Scannable.next? {p : Piece} (h : p.Scannable) (offset : Nat) :
    Lexeme.next? offset p.2 = some (⟨p.1, offset, p.2⟩, []) := by
  obtain ⟨k, text⟩ := p
  obtain ⟨-, h⟩ := h
  cases text with
  | nil => simp at h
  | cons b bs => simpa [Lexeme.next?] using h

/-- The pieces, each on a new line. -/
def lines (ps : List Piece) : Bytes := ps.flatMap fun p => 10 :: p.2

/-- Pieces on lines of their own are read back behind any source. -/
theorem scans_lines {ps : List Piece} (hps : ∀ p ∈ ps, p.Scannable) {offset : Nat} {bytes : Bytes}
    {xs : List Lexeme} (h : Lexeme.Scans offset bytes xs) :
    ∃ ys, Lexeme.Scans offset (bytes ++ lines ps) (xs ++ ys) ∧
      (ys.filter Lexeme.isSignificant).map Lexeme.piece = ps := by
  induction ps generalizing offset bytes xs with
  | nil => exact ⟨[], by simpa [lines] using h, rfl⟩
  | cons p ps ih =>
    obtain ⟨hp, hps⟩ := List.forall_mem_cons.1 hps
    -- the line feed and the piece, which end where the remaining lines begin
    have hline (offset : Nat) : Lexeme.Scans offset (10 :: p.2)
        [⟨.newline, offset, [10]⟩, ⟨p.1, offset + 1, p.2⟩] :=
      .cons (Lexeme.next?_line offset p.2) (.cons (hp.next? _) .nil)
    obtain ⟨ys, hys, hpieces⟩ := ih hps (h.append (hline _))
    refine ⟨_ :: _ :: ys, by simpa [lines] using hys, ?_⟩
    have hblank : Kind.newline.isSignificant = false := rfl
    simp [Lexeme.isSignificant, hblank, hp.1, Lexeme.piece, hpieces]

theorem significant_lines (source : Bytes) {ps : List Piece} (hps : ∀ p ∈ ps, p.Scannable) :
    ∃ e, Lexeme.significant (source ++ lines ps) = Lexeme.significant source ++ e ∧
      e.map Lexeme.piece = ps := by
  obtain ⟨ys, hys, hpieces⟩ := scans_lines hps (Lexeme.Scans.scan source)
  refine ⟨ys.filter Lexeme.isSignificant, ?_, hpieces⟩
  have hscan : Lexeme.scan (source ++ lines ps) = Lexeme.scan source ++ ys := hys.scan_eq
  simpa [Lexeme.significant, Lexeme.significantFrom, Lexeme.scan] using
    congrArg (List.filter Lexeme.isSignificant) hscan

/-- A name that was read can be written. -/
theorem scannable_of_identifier {offset : Nat} {bytes rest : Bytes} {x : Lexeme}
    (h : Lexeme.next? offset bytes = some (x, rest)) (hx : x.kind = .identifier) :
    (name x.text).Scannable := by
  cases bytes with
  | nil => simp at h
  | cons b bs =>
    simp only [Lexeme.next?, Option.some.injEq, Prod.mk.injEq] at h
    obtain ⟨rfl, -⟩ := h
    have hb := Lexeme.isNameStart_of_first hx
    have hparts : ∀ c ∈ bs.takeWhile isNamePart, isNamePart c = true :=
      List.all_eq_true.1 List.all_takeWhile
    have hdrop : (bs.takeWhile isNamePart).dropWhile isNamePart = [] :=
      List.dropWhile_eq_nil_iff.2 hparts
    refine ⟨rfl, ?_⟩
    simp [name, Lexeme.first, hb, Lexeme.next?, List.takeWhile_idem, hdrop]

/-- So can every name that a source holds. -/
theorem scannable_of_mem {source : Bytes} {x : Lexeme} (h : x ∈ Lexeme.significant source)
    (hx : x.kind = .identifier) : (name x.text).Scannable := by
  have hmem : x ∈ Lexeme.scan source := (List.mem_filter.1 h).1
  have hscans := Lexeme.Scans.scan source
  clear h
  generalize Lexeme.scan source = xs, 0 = offset at hmem hscans
  induction hscans with
  | nil => simp at hmem
  | cons hnext _ ih =>
    rcases List.mem_cons.1 hmem with rfl | hmem
    · exact scannable_of_identifier hnext hx
    · exact ih hmem

end Piece
end Recognizer
