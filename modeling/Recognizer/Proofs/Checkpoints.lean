import Recognizer.Proofs.Program
import Recognizer.Proofs.Segmentation

/-!
# Checkpoints

A checkpoint is an offset and nothing else, and going back to it means reading the source
again from there, past whatever the grammar does not see. Nevertheless a cursor is no more
than an index into the significant lexemes of its source: an advance adds one to the index,
and going back to a checkpoint gives the index at which it was taken. This holds of the
scanner under a filter that reads lexemes when they are asked for, and of the parser.
-/
namespace Recognizer

open Grammar

/-- What is done to a cursor. Checkpoints are numbered in the order in which they are taken. -/
inductive Movement where
  | advance
  | checkpoint
  | restore (number : Nat)
  deriving DecidableEq, Repr

/-- What moves along lexemes, takes checkpoints and goes back to them. -/
structure Track (σ : Type) where
  current? : σ → Option Lexeme
  advance : σ → σ
  checkpoint : σ → Nat
  restore : σ → Nat → σ

namespace Track

variable {σ τ : Type} (tr : Track σ)

/-- One movement, beside the checkpoints taken so far, which are the only ones to go back to. -/
def move : Movement → σ × List Nat → Option (σ × List Nat)
  | .advance, (s, marks) => some (tr.advance s, marks)
  | .checkpoint, (s, marks) => some (s, marks ++ [tr.checkpoint s])
  | .restore number, (s, marks) => marks[number]?.map fun mark => (tr.restore s mark, marks)

/-- Movements in turn. -/
def walk : List Movement → σ × List Nat → Option (σ × List Nat)
  | [], s => some s
  | m :: ms, s => (tr.move m s).bind (walk ms)

/-- The track of an index into lexemes. The index is its own checkpoint, and the end stays
the end. -/
def index (xs : List Lexeme) : Track Nat where
  current? i := xs[i]?
  advance i := min (i + 1) xs.length
  checkpoint i := i
  restore _ i := i

/-- The places of one track stand for those of another, as their checkpoints do. -/
structure Carries (tr : Track σ) (tr' : Track τ) (f : σ → τ) (mark : Nat → Nat) : Prop where
  current? : ∀ s, tr'.current? (f s) = tr.current? s
  advance : ∀ s, tr'.advance (f s) = f (tr.advance s)
  checkpoint : ∀ s, tr'.checkpoint (f s) = mark (tr.checkpoint s)
  restore : ∀ s c, tr'.restore (f s) (mark c) = f (tr.restore s c)

section Carries

variable {tr} {tr' : Track τ} {f : σ → τ} {mark : Nat → Nat} (h : Carries tr tr' f mark)
include h

theorem Carries.move (m : Movement) (s : σ) (marks : List Nat) :
    tr'.move m (f s, marks.map mark) = (tr.move m (s, marks)).map (Prod.map f (List.map mark)) := by
  cases m with
  | advance => simp [Track.move, h.advance]
  | checkpoint => simp [Track.move, h.checkpoint]
  | restore number => cases hmark : marks[number]? <;> simp [Track.move, h.restore, hmark]

theorem Carries.walk (ms : List Movement) (s : σ) (marks : List Nat) :
    tr'.walk ms (f s, marks.map mark) =
      (tr.walk ms (s, marks)).map (Prod.map f (List.map mark)) := by
  induction ms generalizing s marks with
  | nil => rfl
  | cons m ms ih =>
    rw [Track.walk, Track.walk, h.move]
    cases tr.move m (s, marks) with
    | none => rfl
    | some moved => exact ih moved.1 moved.2

theorem Carries.iterate (j : Nat) (s : σ) : tr'.advance^[j] (f s) = f (tr.advance^[j] s) :=
  (Function.Semiconj.iterate_right (fun s => (h.advance s).symm) j s).symm

end Carries

section Index

variable {xs : List Lexeme}

theorem move_index_le {m : Movement} {a b : Nat × List Nat} (h : (index xs).move m a = some b)
    (ha : a.1 ≤ xs.length ∧ ∀ mark ∈ a.2, mark ≤ xs.length) :
    b.1 ≤ xs.length ∧ ∀ mark ∈ b.2, mark ≤ xs.length := by
  cases m with
  | advance =>
    cases h
    exact ⟨Nat.min_le_right .., ha.2⟩
  | checkpoint =>
    cases h
    refine ⟨ha.1, fun mark hmark => ?_⟩
    rcases List.mem_append.1 hmark with hmark | hmark
    · exact ha.2 mark hmark
    · exact List.mem_singleton.1 hmark ▸ ha.1
  | restore number =>
    obtain ⟨mark, hmark, rfl⟩ := Option.map_eq_some_iff.1 h
    exact ⟨ha.2 mark (List.mem_of_getElem? hmark), ha.2⟩

/-- An index does not pass the end, and neither do the indices to go back to. -/
theorem walk_index_le {ms : List Movement} {a b : Nat × List Nat}
    (h : (index xs).walk ms a = some b)
    (ha : a.1 ≤ xs.length ∧ ∀ mark ∈ a.2, mark ≤ xs.length) : b.1 ≤ xs.length := by
  induction ms generalizing a with
  | nil =>
    cases h
    exact ha.1
  | cons m ms ih =>
    obtain ⟨moved, hmove, hwalk⟩ := Option.bind_eq_some_iff.1 h
    exact ih hwalk (move_index_le hmove ha)

theorem advance_index_of_lt {i : Nat} (hi : i < xs.length) : (index xs).advance i = i + 1 :=
  Nat.min_eq_left hi

theorem advance_index_of_le {i : Nat} (hi : xs.length ≤ i) :
    (index xs).advance i = xs.length := Nat.min_eq_right (by omega)

/-- From an index on, the lexemes appear in turn. -/
theorem current?_index_iterate (i j : Nat) :
    (index xs).current? ((index xs).advance^[j] i) = xs[i + j]? := by
  induction j generalizing i with
  | zero => rfl
  | succ j ih =>
    rw [Function.iterate_succ_apply, ih]
    rcases Nat.lt_or_ge i xs.length with hi | hi
    · rw [advance_index_of_lt hi, Nat.add_right_comm, Nat.add_assoc]
    · rw [advance_index_of_le hi, List.getElem?_eq_none (by omega),
        List.getElem?_eq_none (by omega)]

/-- Both in lexemes and in their indices, an advance leaves out the first one. -/
theorem drop_advance_index (i : Nat) : xs.drop ((index xs).advance i) = (xs.drop i).tail := by
  rw [List.tail_drop]
  rcases Nat.lt_or_ge i xs.length with hi | hi
  · rw [advance_index_of_lt hi]
  · rw [advance_index_of_le hi, List.drop_length, List.drop_eq_nil_of_le (by omega)]

end Index

/-- The offset of the lexeme with the index, or of the end of the source. -/
def place (size : Nat) (xs : List Lexeme) (i : Nat) : Nat := (xs[i]?.map Lexeme.start).getD size

/-- The place of a lexeme is that of the first one of it and those after it. -/
theorem place_eq_place_drop (size : Nat) (xs : List Lexeme) (i : Nat) :
    place size xs i = place size (xs.drop i) 0 := by
  rw [place, place, List.getElem?_drop, Nat.add_zero]

/-- A place stands at an index: it yields the lexemes from the index on, lies where the
first of them starts, keeps the places of the indices to go back to, and going back to where
it stands changes nothing. -/
structure StandsAt (size : Nat) (xs : List Lexeme) (s : σ × List Nat) (i : Nat × List Nat) :
    Prop where
  le_length : i.1 ≤ xs.length
  yields : ∀ j, tr.current? (tr.advance^[j] s.1) = xs[i.1 + j]?
  position : tr.checkpoint s.1 = place size xs i.1
  marks : s.2 = i.2.map (place size xs)
  again : tr.restore s.1 (tr.checkpoint s.1) = s.1

/-- Whatever is done from a place on, it stands where the same movements lead an index
from the first of the lexemes. -/
def Refines (size : Nat) (xs : List Lexeme) (s : σ) : Prop :=
  ∀ ms, Option.Rel (tr.StandsAt size xs) (tr.walk ms (s, [])) ((index xs).walk ms (0, []))

theorem Carries.refines {size : Nat} {xs : List Lexeme} {f : Nat → σ}
    (h : Carries (index xs) tr f (place size xs)) : tr.Refines size xs (f 0) := by
  intro ms
  have hwalk := h.walk ms 0 []
  rw [List.map_nil] at hwalk
  rw [hwalk]
  cases hindex : (index xs).walk ms (0, []) with
  | none => exact .none
  | some i =>
    refine .some ⟨walk_index_le hindex ⟨Nat.zero_le _, by simp⟩, fun j => ?_, ?_, rfl, ?_⟩
    · rw [Prod.map_fst, h.iterate, h.current?, current?_index_iterate]
    · exact h.checkpoint i.1
    · rw [Prod.map_fst, h.checkpoint, h.restore]
      rfl

end Track

open Track

namespace Lexeme

variable {source : Bytes} {offset : Nat} {x : Lexeme} {xs : List Lexeme}

theorem significantFrom_of_drop {i : Nat} {after : List Lexeme}
    (h : significantFrom source offset = xs) (hdrop : xs.drop i = x :: after) :
    significantFrom source x.start = x :: after := by
  induction i generalizing offset xs with
  | zero =>
    rw [List.drop_zero] at hdrop
    exact (significantFrom_eq_cons (h.trans hdrop)).2.2.2.1
  | succ i ih =>
    cases xs with
    | nil => cases hdrop
    | cons y ys => exact ih (significantFrom_eq_cons h).2.2.2.2 hdrop

/-- Reading again from the place of a lexeme gives that lexeme and those after it. -/
theorem significantFrom_place (source : Bytes) (offset i : Nat) :
    significantFrom source (place source.length (significantFrom source offset) i) =
      (significantFrom source offset).drop i := by
  rw [place, ← List.head?_drop]
  cases hdrop : (significantFrom source offset).drop i with
  | nil => exact significantFrom_of_le (Nat.le_refl _)
  | cons x after => exact significantFrom_of_drop rfl hdrop

end Lexeme

theorem Grammar.State.position_eq (s : State) :
    s.position = (s.rest.head?.map Lexeme.start).getD s.size := by
  unfold position
  split <;> simp [*]

namespace Parser

/-- The movements of a parser. -/
def track : Track Parser where
  current? := current?
  advance := advance
  checkpoint := position
  restore := restore

/-- The places of a parser stand for the indices into the lexemes from an offset on. -/
theorem carries_reading {p : Parser} (h : p.state.size = p.source.length) (offset : Nat) :
    Carries (index (Lexeme.significantFrom p.source offset)) track
      (fun i => p.reading ((Lexeme.significantFrom p.source offset).drop i))
      (place p.source.length (Lexeme.significantFrom p.source offset)) where
  current? i := List.head?_drop
  advance i := congrArg p.reading (drop_advance_index i).symm
  checkpoint i := by
    simp only [track, position, State.position_eq, reading, h, List.head?_drop]
    rfl
  restore i j := congrArg p.reading (Lexeme.significantFrom_place p.source offset j)

end Parser

namespace Cursor

variable {source : Bytes}

/-- The cursor on the significant lexemes, reading again where it goes back to. -/
def track (source : Bytes) : Track Cursor where
  current? := current?
  advance := advance
  checkpoint := position
  restore _ := openAt [Lexeme.isSignificant] source

theorem place_eq_front (size : Nat) (xs : List Lexeme) (i : Nat) :
    place size xs i = Lexeme.front size (xs.drop i) := by
  rw [place, Lexeme.front, List.head?_drop]

/-- The filter for significant lexemes visits them. -/
theorem visits_significantFrom (source : Bytes) (offset : Nat) :
    Visits (moveThrough [Lexeme.isSignificant]) source (Lexeme.significantFrom source offset) := by
  rw [← visible_isSignificant]
  exact visits_visible [Lexeme.isSignificant] source offset

/-- A cursor opened at an offset rests on the first significant lexeme behind it. -/
theorem openAt_eq (source : Bytes) (offset : Nat) :
    openAt [Lexeme.isSignificant] source offset = ⟨[Lexeme.isSignificant],
      Scanner.resumeAt source (place source.length (Lexeme.significantFrom source offset) 0)⟩ := by
  rw [openAt_eq_before, visible_isSignificant, place_eq_front]
  rfl

/-- A scanner resumed at the place of a lexeme has that lexeme under it, and moving past it
leads to the place of the next one. -/
theorem resumeAt_place (source : Bytes) (offset i : Nat) :
    let xs := Lexeme.significantFrom source offset
    let s := Scanner.resumeAt source (place source.length xs i)
    s.current? = xs[i]? ∧ moveThrough [Lexeme.isSignificant] s =
      Scanner.resumeAt source (place source.length xs ((index xs).advance i)) := by
  intro xs s
  have hvisits := (visits_significantFrom source offset).drop i
  have hcurrent := hvisits.current?
  have hadvance := congrArg scanner (advance_before hvisits)
  rw [← place_eq_front, List.head?_drop] at hcurrent
  rw [before, before, ← drop_advance_index, ← place_eq_front, ← place_eq_front] at hadvance
  exact ⟨hcurrent, hadvance⟩

/-- The places of a cursor stand for the indices into the lexemes from an offset on. -/
theorem carries_resumeAt (source : Bytes) (offset : Nat) :
    Carries (index (Lexeme.significantFrom source offset)) (track source)
      (fun i => ⟨[Lexeme.isSignificant], Scanner.resumeAt source
        (place source.length (Lexeme.significantFrom source offset) i)⟩)
      (place source.length (Lexeme.significantFrom source offset)) where
  current? i := (resumeAt_place source offset i).1
  advance i := congrArg (Cursor.mk _) (resumeAt_place source offset i).2
  checkpoint i := by
    simp only [track, position, Scanner.position_eq, (resumeAt_place source offset i).1,
      Scanner.size_resumeAt]
    rfl
  restore i j := by
    simp only [track, openAt_eq, Lexeme.significantFrom_place, ← place_eq_place_drop]
    rfl

end Cursor

/-- A cursor refines an index into the significant lexemes of its source: whatever advances,
checkpoints and returns to checkpoints are made, a parser and a cursor stand at the index to
which the same movements lead. The same holds from an offset at which no lexeme starts, of
the lexemes that are read from there. -/
theorem refines_index (limits : Limits) (prefs : GrammarPreferences) (source : Bytes) :
    Parser.track.Refines source.length (Lexeme.significant source)
        (Parser.new limits prefs source) ∧
      (Cursor.track source).Refines source.length (Lexeme.significant source)
        (Cursor.openAt [Lexeme.isSignificant] source 0) ∧
      ∀ offset, Parser.track.Refines source.length (Lexeme.significantFrom source offset)
          ((Parser.new limits prefs source).restore offset) ∧
        (Cursor.track source).Refines source.length (Lexeme.significantFrom source offset)
          (Cursor.openAt [Lexeme.isSignificant] source offset) := by
  have hparser (offset : Nat) : Parser.track.Refines source.length
      (Lexeme.significantFrom source offset) ((Parser.new limits prefs source).restore offset) :=
    (Parser.carries_reading (p := Parser.new limits prefs source) rfl offset).refines
  have hcursor (offset : Nat) : (Cursor.track source).Refines source.length
      (Lexeme.significantFrom source offset)
      (Cursor.openAt [Lexeme.isSignificant] source offset) := by
    rw [Cursor.openAt_eq]
    exact (Cursor.carries_resumeAt source offset).refines
  exact ⟨hparser 0, hcursor 0, fun offset => ⟨hparser offset, hcursor offset⟩⟩

/-- An offset inside a name is where its last letters are read as a name. -/
example : (Lexeme.significantFrom (Bytes.ofAscii "ab // c".toList) 1).map Lexeme.text =
    [Bytes.ofAscii ['b']] := by
  decide

end Recognizer
