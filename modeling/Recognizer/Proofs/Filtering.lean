import Mathlib.Logic.Function.Iterate
import Recognizer.Proofs.Places
import Recognizer.Token.Cursor

/-!
# Filtered cursors

A cursor stores and compares offsets, and moves by reading on. Nevertheless what it shows is a
list: the lexemes that are read from its offset on, without those that one of its filters
hides. A move through a stack of filters visits the lexemes of that list in turn, and the
offset of a cursor determines which of them are left.
-/
namespace Recognizer

/-- The offset of the first lexeme, or of the end of the source. -/
def Lexeme.front (size : Nat) (xs : List Lexeme) : Nat := (xs.head?.map start).getD size

open Lexeme (front)

namespace Scanner

variable {source rest : Bytes} {offset : Nat} {x : Lexeme}

theorem position_eq (s : Scanner) :
    s.position = (s.current?.map Lexeme.start).getD s.size := by
  unfold position
  split <;> simp [*]

theorem size_resumeAt (source : Bytes) (offset : Nat) :
    (resumeAt source offset).size = source.length := size_read ..

theorem resumeAt_of_le (h : source.length ≤ offset) : resumeAt source offset = endOf source := by
  rw [resumeAt, List.drop_eq_nil_of_le h]
  rfl

theorem resumeAt_size (source : Bytes) : resumeAt source source.length = endOf source :=
  resumeAt_of_le (Nat.le_refl _)

theorem resumeAt_of_next? (h : Lexeme.next? offset (source.drop offset) = some (x, rest)) :
    resumeAt source offset = ⟨source.length, some x, rest⟩ := by
  rw [resumeAt, read, h]

theorem resumeAt_of_placed (hx : x.Placed source) :
    resumeAt source x.start = ⟨source.length, some x, source.drop x.stop⟩ :=
  resumeAt_of_next? (Lexeme.scanFrom_eq_cons hx.again).1

/-- Moving past a lexeme is reading on from where it stops. -/
theorem advance_resumeAt (hx : x.Placed source) :
    (resumeAt source x.start).advance = resumeAt source x.stop := by
  rw [resumeAt_of_placed hx]
  rfl

/-- The lexeme at an offset takes a byte from those behind the offset. -/
theorem length_rest_resumeAt (source : Bytes) (offset : Nat) :
    (resumeAt source offset).rest.length ≤ source.length - offset - 1 := by
  unfold resumeAt read
  split
  · next x rest h =>
    obtain ⟨hstart, hne, -, rfl, -⟩ := Lexeme.next?_drop h
    rw [List.length_drop]
    omega
  · exact Nat.zero_le _

end Scanner

namespace Cursor

section Skip

variable {step : Scanner → Scanner} {keep : Filter} {s : Scanner}

theorem skip_of_current?_eq_none (h : s.current? = none) (clock : Bytes) :
    skip step keep clock s = s := by
  cases clock <;> simp [skip, h]

theorem skip_of_keep {x : Lexeme} (h : s.current? = some x) (hkeep : keep x = true)
    (clock : Bytes) : skip step keep clock s = s := by
  cases clock <;> simp [skip, h, hkeep]

/-- A hidden lexeme is moved past. Without a clock that is the last move. -/
theorem skip_of_not_keep {x : Lexeme} {clock : Bytes} (h : s.current? = some x)
    (hkeep : ¬ keep x = true) (hend : clock = [] → (step s).current? = none) :
    skip step keep clock s = skip step keep clock.tail (step s) := by
  cases clock with
  | nil =>
    rw [List.tail_nil, skip_of_current?_eq_none (hend rfl)]
    simp [skip, h, hkeep]
  | cons b clock => simp [skip, h, hkeep]

end Skip

end Cursor

/-- A step visits lexemes of a source in turn: it leads from each one to where the next one
starts, and from the last one to the end. -/
inductive Visits (step : Scanner → Scanner) (source : Bytes) : List Lexeme → Prop where
  | nil : Visits step source []
  | cons {x : Lexeme} {xs : List Lexeme} (hx : x.Placed source)
      (hnext : x.stop ≤ front source.length xs)
      (hstep : step (Scanner.resumeAt source x.start) =
        Scanner.resumeAt source (front source.length xs)) :
      Visits step source xs → Visits step source (x :: xs)

namespace Visits

variable {step : Scanner → Scanner} {source clock : Bytes} {xs : List Lexeme} {keep : Filter}

/-- Where visited lexemes are to be read, the first of them is the current one. -/
theorem current? (h : Visits step source xs) :
    (Scanner.resumeAt source (front source.length xs)).current? = xs.head? := by
  cases h with
  | nil => exact congrArg Scanner.current? (Scanner.resumeAt_size source)
  | cons hx => exact congrArg Scanner.current? (Scanner.resumeAt_of_placed hx)

/-- The visited lexemes that a filter keeps are not reached before all of them are. -/
theorem front_le_front_filter (h : Visits step source xs) (keep : Filter) :
    front source.length xs ≤ front source.length (xs.filter keep) := by
  induction h with
  | nil => exact Nat.le_refl _
  | @cons x xs hx hnext _ _ ih =>
    by_cases hkeep : keep x = true
    · rw [List.filter_cons_of_pos hkeep]
      exact Nat.le_refl x.start
    · rw [List.filter_cons_of_neg hkeep]
      calc x.start ≤ x.stop := hx.nonempty.le
        _ ≤ front source.length xs := hnext
        _ ≤ _ := ih

theorem eq_nil_of_le (h : Visits step source xs)
    (hle : source.length ≤ front source.length xs) : xs = [] := by
  have hcurrent := h.current?
  rw [Scanner.resumeAt_of_le hle] at hcurrent
  exact List.head?_eq_none_iff.1 hcurrent.symm

/-- What is left of visited lexemes is visited. -/
theorem drop (h : Visits step source xs) (n : Nat) : Visits step source (xs.drop n) := by
  induction n generalizing xs with
  | zero => exact h
  | succ n ih =>
    cases h with
    | nil => exact .nil
    | cons _ _ _ hxs => exact ih hxs

/-- Steps past hidden lexemes end where the first visible one starts. -/
theorem skip_eq (h : Visits step source xs) (hclock :
      (Scanner.resumeAt source (front source.length xs)).rest.length ≤ clock.length) :
    Cursor.skip step keep clock (Scanner.resumeAt source (front source.length xs)) =
      Scanner.resumeAt source (front source.length (xs.filter keep)) := by
  induction h generalizing clock with
  | nil =>
    have hend : Visits step source [] := .nil
    exact Cursor.skip_of_current?_eq_none hend.current? clock
  | @cons x xs hx hnext hstep hxs ih =>
    have hresume := Scanner.resumeAt_of_placed hx
    have hcurrent := congrArg Scanner.current? hresume
    by_cases hkeep : keep x = true
    · rw [List.filter_cons_of_pos hkeep]
      exact Cursor.skip_of_keep hcurrent hkeep clock
    · have hlength := Scanner.length_rest_resumeAt source (front source.length xs)
      have hrest : (source.drop x.stop).length ≤ clock.length := by
        exact (congrArg (·.rest.length) hresume).symm.le.trans hclock
      rw [List.length_drop] at hrest
      -- without a clock nothing is left behind the hidden lexeme
      have hend : clock = [] → (step (Scanner.resumeAt source x.start)).current? = none := by
        rintro rfl
        have hle : source.length ≤ x.stop := Nat.sub_eq_zero_iff_le.1 (Nat.le_zero.1 hrest)
        rw [hstep, Scanner.resumeAt_of_le (hle.trans hnext)]
        rfl
      have htail : (Scanner.resumeAt source (front source.length xs)).rest.length ≤
          clock.tail.length := by
        rw [List.length_tail]
        omega
      rw [List.filter_cons_of_neg hkeep]
      exact (Cursor.skip_of_not_keep hcurrent hkeep hend).trans (hstep ▸ ih htail)

/-- A move through one more filter visits the lexemes that the filter keeps. -/
theorem filter {inner : List Filter} (h : Visits (Cursor.moveThrough inner) source xs)
    (keep : Filter) : Visits (Cursor.moveThrough (keep :: inner)) source (xs.filter keep) := by
  induction h with
  | nil => exact .nil
  | @cons x xs hx hnext hstep hxs ih =>
    by_cases hkeep : keep x = true
    · rw [List.filter_cons_of_pos hkeep]
      refine .cons hx (hnext.trans (hxs.front_le_front_filter keep)) ?_ ih
      have hcurrent := congrArg Scanner.current? (Scanner.resumeAt_of_placed hx)
      simp only [Cursor.moveThrough, hcurrent, hstep]
      exact hxs.skip_eq (Nat.le_refl _)
    · rwa [List.filter_cons_of_neg hkeep]

end Visits

namespace Cursor

variable {filters : List Filter} {source clock : Bytes} {offset : Nat} {xs : List Lexeme}

/-- The lexemes behind an offset that every filter keeps. -/
def visible (filters : List Filter) (source : Bytes) (offset : Nat) : List Lexeme :=
  (Lexeme.scanFrom source offset).filter fun x => filters.all (· x)

theorem visible_nil (source : Bytes) (offset : Nat) :
    visible [] source offset = Lexeme.scanFrom source offset := by
  simp [visible]

theorem visible_cons (keep : Filter) (filters : List Filter) (source : Bytes) (offset : Nat) :
    visible (keep :: filters) source offset = (visible filters source offset).filter keep := by
  simp [visible, List.filter_filter]

/-- The parser sees the significant lexemes. -/
theorem visible_isSignificant (source : Bytes) (offset : Nat) :
    visible [Lexeme.isSignificant] source offset = Lexeme.significantFrom source offset := by
  simp [visible, Lexeme.significantFrom]

theorem visible_of_le (h : source.length ≤ offset) : visible filters source offset = [] := by
  rw [visible, Lexeme.scanFrom_eq_nil_iff.2 h, List.filter_nil]

theorem resumeAt_front (source : Bytes) (offset : Nat) :
    Scanner.resumeAt source (front source.length (Lexeme.scanFrom source offset)) =
      Scanner.resumeAt source offset := by
  cases hscan : Lexeme.scanFrom source offset with
  | nil =>
    rw [Scanner.resumeAt_of_le (Lexeme.scanFrom_eq_nil_iff.1 hscan)]
    exact Scanner.resumeAt_size source
  | cons x xs =>
    obtain ⟨rfl, -⟩ := Lexeme.next?_drop (Lexeme.scanFrom_eq_cons hscan).1
    rfl

/-- A scanner visits everything that is read. -/
theorem visits_scanFrom (source : Bytes) (offset : Nat) :
    Visits Scanner.advance source (Lexeme.scanFrom source offset) := by
  generalize hscan : Lexeme.scanFrom source offset = xs
  induction xs generalizing offset with
  | nil => exact .nil
  | cons x xs ih =>
    obtain ⟨hnext, rfl⟩ := Lexeme.scanFrom_eq_cons hscan
    have hx := Lexeme.placed_of_next? hnext
    refine .cons hx ?_ ?_ (ih x.stop rfl)
    · cases hrest : Lexeme.scanFrom source x.stop with
      | nil => exact hx.within
      | cons y ys => exact (Lexeme.next?_drop (Lexeme.scanFrom_eq_cons hrest).1).1.ge
    · rw [resumeAt_front]
      exact Scanner.advance_resumeAt hx

/-- A move through filters visits the visible lexemes. -/
theorem visits_visible (filters : List Filter) (source : Bytes) (offset : Nat) :
    Visits (moveThrough filters) source (visible filters source offset) := by
  induction filters with
  | nil =>
    rw [visible_nil]
    exact visits_scanFrom source offset
  | cons keep filters ih =>
    rw [visible_cons]
    exact ih.filter keep

/-- Filters settle on the first visible lexeme. -/
theorem settle_resumeAt (filters : List Filter) (source : Bytes) (offset : Nat) :
    settle filters (Scanner.resumeAt source offset) =
      Scanner.resumeAt source (front source.length (visible filters source offset)) := by
  induction filters with
  | nil => rw [visible_nil, resumeAt_front, settle]
  | cons keep filters ih =>
    rw [visible_cons]
    simp only [settle, ih]
    exact (visits_visible filters source offset).skip_eq (Nat.le_refl _)

/-- What a cursor shows are the lexemes: the first of them is under it, iterating yields all of
them and comes to the end, it stands where the first one starts, and when none is left an
advance changes nothing. -/
structure Shows (source : Bytes) (c : Cursor) (xs : List Lexeme) : Prop where
  current? : c.current? = xs.head?
  drain : c.drain = (xs, ⟨c.filters, Scanner.endOf source⟩)
  position : c.position = front source.length xs
  exhausted : c.isExhausted = xs.isEmpty
  stays : xs = [] → c.advance = c

/-- The cursor that stands where visible lexemes are to be read. -/
def before (filters : List Filter) (source : Bytes) (xs : List Lexeme) : Cursor :=
  ⟨filters, Scanner.resumeAt source (front source.length xs)⟩

theorem before_nil (filters : List Filter) (source : Bytes) :
    before filters source [] = ⟨filters, Scanner.endOf source⟩ :=
  congrArg (Cursor.mk filters) (Scanner.resumeAt_size source)

theorem openAt_eq_before (filters : List Filter) (source : Bytes) (offset : Nat) :
    openAt filters source offset = before filters source (visible filters source offset) :=
  congrArg (Cursor.mk filters) (settle_resumeAt filters source offset)

section Before

variable (h : Visits (moveThrough filters) source xs)
include h

/-- An advance leaves out the first lexeme. -/
theorem advance_before : (before filters source xs).advance = before filters source xs.tail := by
  cases h with
  | nil => exact advance_of_isExhausted (by rw [before_nil]; rfl)
  | cons _ _ hstep => exact congrArg (Cursor.mk filters) hstep

theorem iterate_advance_before (n : Nat) :
    advance^[n] (before filters source xs) = before filters source (xs.drop n) := by
  induction n generalizing xs with
  | zero => rfl
  | succ n ih =>
    rw [Function.iterate_succ_apply, advance_before h]
    cases h with
    | nil => rw [List.tail_nil, ih .nil, List.drop_nil, List.drop_nil]
    | cons _ _ _ hxs => exact ih hxs

theorem drainLoop_before (read : List Lexeme)
    (hclock : (before filters source xs).scanner.rest.length ≤ clock.length) :
    drainLoop clock (before filters source xs) read =
      (read.reverse ++ xs, before filters source []) := by
  induction h generalizing clock read with
  | nil => cases clock <;> simp [drainLoop, before_nil, current?, Scanner.endOf]
  | @cons x xs hx hnext hstep hxs ih =>
    have hcurrent : (before filters source (x :: xs)).current? = some x :=
      (Visits.cons hx hnext hstep hxs).current?
    have hadvance := advance_before (.cons hx hnext hstep hxs)
    have hlength := Scanner.length_rest_resumeAt source (front source.length xs)
    have hrest : source.length - x.stop ≤ clock.length := by
      rw [← List.length_drop]
      exact (congrArg (·.rest.length) (Scanner.resumeAt_of_placed hx)).symm.le.trans hclock
    cases clock with
    | nil =>
      -- without a clock nothing is left behind the lexeme
      obtain rfl : xs = [] := hxs.eq_nil_of_le (by rw [List.length_nil] at hrest; omega)
      simp [drainLoop, hcurrent, hadvance]
    | cons b clock =>
      have hclock : (before filters source xs).scanner.rest.length ≤ clock.length := by
        rw [List.length_cons] at hrest
        exact hlength.trans (by omega)
      simp [drainLoop, hcurrent, hadvance, ih (x :: read) hclock]

/-- The cursor before visited lexemes shows them. -/
theorem shows_before : Shows source (before filters source xs) xs where
  current? := h.current?
  drain := by
    rw [drain, drainLoop_before h [] (Nat.le_refl _), before_nil]
    rfl
  position := by
    rw [position, Scanner.position_eq, before, h.current?, Scanner.size_resumeAt, front]
  exhausted := by
    rw [isExhausted, current?, before, h.current?]
    cases xs <;> rfl
  stays := by
    rintro rfl
    exact advance_before h

end Before

theorem Shows.toList {c : Cursor} (h : Shows source c xs) : c.toList = xs :=
  congrArg Prod.fst h.drain

/-- The offset determines the lexemes that are left. -/
theorem Shows.samePlace_iff {c d : Cursor} {ys : List Lexeme} (hc : Shows source c xs)
    (hd : Shows source d ys) (hxs : Visits (moveThrough filters) source xs)
    (hys : Visits (moveThrough filters) source ys) : c.samePlace d = true ↔ xs = ys := by
  rw [samePlace, beq_iff_eq, hc.position, hd.position]
  constructor
  · intro hplace
    have hbefore : before filters source xs = before filters source ys := by
      rw [before, before, hplace]
    rw [← (shows_before hxs).toList, hbefore, (shows_before hys).toList]
  · rintro rfl
    rfl

/-- After any number of advances a cursor shows what is left of the visible lexemes. -/
theorem shows_iterate (filters : List Filter) (source : Bytes) (offset n : Nat) :
    Shows source (advance^[n] (openAt filters source offset))
      ((visible filters source offset).drop n) := by
  have hvisits := visits_visible filters source offset
  rw [openAt_eq_before, iterate_advance_before hvisits]
  exact shows_before (hvisits.drop n)

theorem toList_openAt (filters : List Filter) (source : Bytes) (offset : Nat) :
    (openAt filters source offset).toList = visible filters source offset :=
  (shows_iterate filters source offset 0).toList

/-- Without filters everything is shown. -/
theorem toList_openAt_nil (source : Bytes) (offset : Nat) :
    (openAt [] source offset).toList = Lexeme.scanFrom source offset := by
  rw [toList_openAt, visible_nil]

/-- Filtering a cursor is filtering a list, and comparing cursors is comparing what they show.
A cursor opened at an offset under a stack of filters shows the lexemes that are read from
there and kept by all of the filters, and after any number of advances those that are left.
Two such cursors stand at the same place exactly when the same lexeme is under them and the
same lexemes are still to come, and a cursor stands at the end exactly when it is exhausted. -/
theorem shows_filtered (filters : List Filter) (source : Bytes) (offset : Nat) :
    let scanned := (openAt [] source offset).toList
    let kept := scanned.filter fun x => filters.all (· x)
    scanned = Lexeme.scanFrom source offset ∧
    (∀ keep, (openAt (keep :: filters) source offset).toList =
      (openAt filters source offset).toList.filter keep) ∧
    ∀ n, let c := advance^[n] (openAt filters source offset)
      Shows source c (kept.drop n) ∧
      c.samePlace ⟨filters, settle filters (Scanner.endOf source)⟩ = c.isExhausted ∧
      ∀ offset' m, let d := advance^[m] (openAt filters source offset')
        c.samePlace d = true ↔ c.current? = d.current? ∧ c.toList = d.toList := by
  have hscan := toList_openAt_nil source offset
  intro scanned kept
  have hkept : kept = visible filters source offset := by
    simp only [kept, scanned, hscan, visible]
  refine ⟨hscan, fun keep => by rw [toList_openAt, toList_openAt, visible_cons], fun n => ?_⟩
  intro c
  have hvisits := (visits_visible filters source offset).drop n
  have hshows := shows_iterate filters source offset n
  refine ⟨by rwa [hkept], ?_, fun offset' m => ?_⟩
  · have hend : (⟨filters, settle filters (Scanner.endOf source)⟩ : Cursor) =
        before filters source [] := by
      rw [← Scanner.resumeAt_size, settle_resumeAt, visible_of_le (Nat.le_refl _)]
      rfl
    rw [Bool.eq_iff_iff, hend, hshows.samePlace_iff (shows_before .nil) hvisits .nil,
      hshows.exhausted, List.isEmpty_iff]
  · intro d
    have hshows' := shows_iterate filters source offset' m
    rw [hshows.samePlace_iff hshows' hvisits ((visits_visible filters source offset').drop m),
      hshows.current?, hshows'.current?, hshows.toList, hshows'.toList]
    exact ⟨fun h => ⟨congrArg List.head? h, h⟩, And.right⟩

/-- Operators and names behind the first name, of which the second filter hides the names. -/
example : (openAt [fun x => x.kind != .identifier, Lexeme.isSignificant]
      (Bytes.ofAscii "ab + c // d".toList) 1).toList.map Lexeme.text = [Bytes.ofAscii ['+']] := by
  decide

end Cursor
end Recognizer
