import Mathlib.Data.List.Induction
import Recognizer.Proofs.Lines

/-!
# The position of an offset

The line of an offset is told by the line feeds before it, and its column by the bytes since
the last of them. A later offset has a later position, in a later line or farther on in the
same one, so positions tell offsets apart and are in their order.
-/
namespace Recognizer

/-- The number of bytes since the last line feed. -/
def Bytes.trailing (bytes : Bytes) : Nat := (bytes.reverse.takeWhile (· ≠ 10)).length

open Bytes (trailing)

namespace Bytes

@[simp] theorem trailing_concat_newline (bytes : Bytes) : trailing (bytes ++ [10]) = 0 := by
  simp [trailing]

theorem trailing_le_length (bytes : Bytes) : trailing bytes ≤ bytes.length :=
  (List.takeWhile_sublist _).length_le.trans_eq List.length_reverse

/-- Without a line feed among them all further bytes are in the same line. -/
theorem trailing_append {as bs : Bytes} (h : 10 ∉ bs) :
    trailing (as ++ bs) = trailing as + bs.length := by
  have hall : ∀ b ∈ bs.reverse, decide (b ≠ 10) = true := by
    intro b hb
    simpa using ne_of_mem_of_not_mem (List.mem_reverse.1 hb) h
  rw [trailing, trailing, List.reverse_append, List.takeWhile_append_of_pos hall,
    List.length_append, List.length_reverse, Nat.add_comm]

/-- A longer front part of a source ends in a later line or farther on in the same one. -/
theorem count_lt_or_trailing_lt {source : Bytes} {o₁ o₂ : Nat} (h : o₁ < o₂)
    (hlength : o₂ ≤ source.length) :
    (source.take o₁).count 10 < (source.take o₂).count 10 ∨
      (source.take o₁).count 10 = (source.take o₂).count 10 ∧
        trailing (source.take o₁) < trailing (source.take o₂) := by
  obtain ⟨between, hbetween⟩ : ∃ between, source.take o₂ = source.take o₁ ++ between :=
    (List.take_prefix_take_left h.le).imp fun _ => Eq.symm
  have hlengths := congrArg List.length hbetween
  simp only [List.length_append, List.length_take] at hlengths
  rw [hbetween, List.count_append]
  rcases Nat.eq_zero_or_pos (between.count 10) with hnone | hsome
  · rw [trailing_append (List.count_eq_zero.1 hnone)]
    omega
  · omega

end Bytes

namespace LineMap

variable {source bytes : Bytes} {o a : Nat}

theorem breaks_append (o : Nat) (as bs : Bytes) :
    breaks o (as ++ bs) = breaks o as ++ breaks (o + as.length) bs := by
  induction as generalizing o with
  | nil => rfl
  | cons a as ih =>
    simp only [List.cons_append, breaks, ih, List.length_cons, Nat.add_assoc, Nat.add_comm 1]
    split <;> rfl

theorem le_of_mem_breaks (h : a ∈ breaks o bytes) : a ≤ o + bytes.length := by
  induction bytes generalizing o with
  | nil => cases h
  | cons b bs ih =>
    have hrest (h : a ∈ breaks (o + 1) bs) : a ≤ o + (b :: bs).length := by
      have := ih h
      rw [List.length_cons]
      omega
    rw [breaks] at h
    split at h
    · rcases List.mem_cons.1 h with rfl | h
      · rw [List.length_cons]
        omega
      · exact hrest h
    · exact hrest h

/-- The line feeds before an offset end the lines that are left behind. -/
theorem takeWhile_breaks (h : o ≤ source.length) :
    (breaks 0 source).takeWhile (· ≤ o) = breaks 0 (source.take o) := by
  have hlength : (source.take o).length = o := List.length_take_of_le h
  have hbefore : ∀ a ∈ breaks 0 (source.take o), decide (a ≤ o) = true := by
    intro a ha
    have := le_of_mem_breaks ha
    simp only [decide_eq_true_eq]
    omega
  have hbehind : (breaks o (source.drop o)).takeWhile (· ≤ o) = [] := by
    cases hrest : breaks o (source.drop o) with
    | nil => rfl
    | cons a rest =>
      have ha : o < a := lt_of_mem_breaks (hrest ▸ List.mem_cons_self)
      exact List.takeWhile_cons_of_neg (by simpa using ha)
  have hsplit := breaks_append 0 (source.take o) (source.drop o)
  rw [List.take_append_drop, hlength, Nat.zero_add] at hsplit
  rw [hsplit, List.takeWhile_append_of_pos hbefore, hbehind, List.append_nil]

/-- The last line starts as far before the end as there are bytes since the last line feed. -/
theorem getLast?_breaks (bytes : Bytes) :
    (breaks 0 bytes).getLast?.getD 0 + trailing bytes = bytes.length := by
  induction bytes using List.reverseRecOn with
  | nil => rfl
  | append_singleton bytes b ih =>
    rw [breaks_append, List.length_append]
    by_cases hb : b = 10
    · rw [hb, Bytes.trailing_concat_newline]
      simp [breaks]
    · rw [Bytes.trailing_append (by simpa using Ne.symm hb)]
      simp only [breaks, if_neg hb, List.append_nil]
      omega

/-- The position of an offset, told by the bytes before it. -/
theorem positionAt_eq (source : Bytes) (offset : Nat) :
    let before := source.take (min offset source.length)
    (ofSource source).positionAt offset = ⟨min offset source.length,
      (before.count 10 + 1).toUInt32, (trailing before + 1).toUInt32⟩ := by
  intro before
  have hle : min offset source.length ≤ source.length := Nat.min_le_right ..
  have hreached : (ofSource source).starts.takeWhile (· ≤ min offset source.length) =
      0 :: breaks 0 before := by
    rw [ofSource, List.takeWhile_cons_of_pos (by simp), takeWhile_breaks hle]
  have hlast : (0 :: breaks 0 before).getLast?.getD 0 + trailing before =
      min offset source.length := by
    rw [List.getLast?_cons, Option.getD_some, getLast?_breaks, List.length_take_of_le hle]
  rw [positionAt, size_ofSource]
  simp only [hreached, List.length_cons, length_breaks]
  congr 2
  omega

/-- What a search for an offset in an increasing list answers: the index at which it stands, or
else the index at which it would have to be inserted. -/
def Answers (starts : List Nat) (o : Nat) : Except Nat Nat → Prop
  | .ok i => starts[i]? = some o
  | .error i => i ≤ starts.length ∧ (∀ a ∈ starts.take i, a < o) ∧ ∀ a ∈ starts.drop i, o < a

/-- The search leads to the last line that is reached, which is one before the place of an
insertion. -/
theorem Answers.reached {starts : List Nat} (hstarts : starts.Pairwise (· < ·))
    {answer : Except Nat Nat} (h : Answers starts o answer) :
    answer = .ok (LineMap.reached starts o - 1) ∨ answer = .error (LineMap.reached starts o) := by
  cases answer with
  | ok i =>
    rw [reached_eq hstarts h]
    exact .inl rfl
  | error i =>
    obtain ⟨hi, hbefore, hbehind⟩ := h
    have hdrop : (starts.drop i).takeWhile (· ≤ o) = [] := by
      cases hrest : starts.drop i with
      | nil => rfl
      | cons a rest =>
        have ha := hbehind a (hrest ▸ List.mem_cons_self)
        exact List.takeWhile_cons_of_neg (by simpa using ha)
    have hall : ∀ a ∈ starts.take i, decide (a ≤ o) = true := fun a ha =>
      decide_eq_true (hbefore a ha).le
    right
    rw [LineMap.reached, ← List.take_append_drop i starts, List.takeWhile_append_of_pos hall, hdrop,
      List.append_nil, List.length_take_of_le hi]

/-- Whichever way the line of an offset is searched, the position is that of the line found. -/
theorem positionAt_of_answers {offset : Nat} {answer : Except Nat Nat}
    (h : Answers (ofSource source).starts (min offset source.length) answer) :
    ∃ line start, (answer = .ok line ∨ answer = .error (line + 1)) ∧
      (ofSource source).starts[line]? = some start ∧ start ≤ min offset source.length ∧
      (ofSource source).positionAt offset = ⟨min offset source.length, (line + 1).toUInt32,
        (min offset source.length - start + 1).toUInt32⟩ := by
  have hstarts := pairwise_starts source
  have hfirst : 0 < reached (ofSource source).starts (min offset source.length) :=
    (lt_reached_iff hstarts rfl).2 (Nat.zero_le _)
  obtain ⟨start, hstart, hlast, hle⟩ := exists_last_reached hstarts hfirst
  refine ⟨_, start, ?_, hstart, hle, ?_⟩
  · rw [Nat.sub_add_cancel hfirst]
    exact h.reached hstarts
  · rw [positionAt, size_ofSource, Nat.sub_add_cancel hfirst]
    simp only [hlast, Option.getD_some]
    rfl

end LineMap

namespace Position

/-- A position is before another one in reading order: in an earlier line, or to the left in the
same line. -/
def Before (p q : Position) : Prop := p.line < q.line ∨ p.line = q.line ∧ p.column < q.column

/-- The order of lines, and of columns within a line. -/
def readingOrder (p q : Position) : Ordering :=
  (compare p.line.toNat q.line.toNat).then (compare p.column.toNat q.column.toNat)

end Position

namespace LineMap

variable {source : Bytes}

/-- Lines and columns are counted in words. -/
theorem toNat_positionAt (source : Bytes) (offset : Nat) :
    let before := source.take (min offset source.length)
    ((ofSource source).positionAt offset).line.toNat = (1 + before.count 10) % UInt32.size ∧
      ((ofSource source).positionAt offset).column.toNat =
        (1 + trailing before) % UInt32.size := by
  intro before
  rw [positionAt_eq, Nat.add_comm 1, Nat.add_comm 1]
  exact ⟨UInt32.toNat_ofNat', UInt32.toNat_ofNat'⟩

/-- In a source that words can count, every position is exact. -/
theorem toNat_positionAt_of_lt (hsource : source.length < UInt32.size - 1) (offset : Nat) :
    let before := source.take (min offset source.length)
    ((ofSource source).positionAt offset).line.toNat = 1 + before.count 10 ∧
      ((ofSource source).positionAt offset).column.toNat = 1 + trailing before := by
  intro before
  have hlength : before.length ≤ source.length := List.length_take_le' ..
  have hcount : before.count 10 ≤ before.length := List.count_le_length
  have htrailing := Bytes.trailing_le_length before
  obtain ⟨hline, hcolumn⟩ := toNat_positionAt source offset
  constructor
  · exact hline.trans (Nat.mod_eq_of_lt (show 1 + before.count 10 < UInt32.size by omega))
  · exact hcolumn.trans (Nat.mod_eq_of_lt (show 1 + trailing before < UInt32.size by omega))

/-- A later offset has a later position. -/
theorem before_of_lt (hsource : source.length < UInt32.size - 1) {o₁ o₂ : Nat} (h : o₁ < o₂)
    (hlength : o₂ ≤ source.length) :
    ((ofSource source).positionAt o₁).Before ((ofSource source).positionAt o₂) := by
  obtain ⟨hline₁, hcolumn₁⟩ := toNat_positionAt_of_lt hsource o₁
  obtain ⟨hline₂, hcolumn₂⟩ := toNat_positionAt_of_lt hsource o₂
  rw [Nat.min_eq_left (h.le.trans hlength)] at hline₁ hcolumn₁
  rw [Nat.min_eq_left hlength] at hline₂ hcolumn₂
  rw [Position.Before, UInt32.lt_iff_toNat_lt, UInt32.lt_iff_toNat_lt, ← UInt32.toNat_inj,
    hline₁, hline₂, hcolumn₁, hcolumn₂]
  have := Bytes.count_lt_or_trailing_lt h hlength
  omega

end LineMap

namespace Position

variable {p q : Position}

theorem Before.ne (h : p.Before q) : (p.line, p.column) ≠ (q.line, q.column) := by
  intro heq
  obtain ⟨hline, hcolumn⟩ := Prod.mk.inj heq
  rcases h with h | ⟨-, h⟩
  · exact UInt32.lt_irrefl _ (hline ▸ h)
  · exact UInt32.lt_irrefl _ (hcolumn ▸ h)

theorem Before.asymm (h : p.Before q) : ¬q.Before p := by
  unfold Before at *
  rw [UInt32.lt_iff_toNat_lt, UInt32.lt_iff_toNat_lt, ← UInt32.toNat_inj] at *
  omega

theorem Before.readingOrder_eq (h : p.Before q) :
    p.readingOrder q = .lt ∧ q.readingOrder p = .gt := by
  unfold readingOrder
  rcases h with h | ⟨hline, h⟩
  · have h := UInt32.lt_iff_toNat_lt.1 h
    rw [Nat.compare_eq_lt.2 h, Nat.compare_eq_gt.2 h]
    exact ⟨rfl, rfl⟩
  · have h := UInt32.lt_iff_toNat_lt.1 h
    rw [hline, Nat.compare_eq_lt.2 h, Nat.compare_eq_gt.2 h, Nat.compare_eq_eq.2 rfl]
    exact ⟨rfl, rfl⟩

/-- Positions in reading order are ordered alike by their offsets. -/
theorem order_of_lt (h : p.offset < q.offset) : p.order q = .lt ∧ q.order p = .gt := by
  unfold order
  rw [Nat.compare_eq_lt.2 h, Nat.compare_eq_gt.2 h]
  exact ⟨rfl, rfl⟩

end Position

namespace LineMap

/-- The positions of a source are exact, they tell its offsets apart, and they are in the order of
its offsets. A position has the offset, which is cut to the end of the source; the line feeds
before it, counted from one; and the bytes since the last of them, counted from one. Lines and
columns are counted in words, so they are right as far as words reach. A search for the line
leads to the same position. In a source that words can count, of two offsets the smaller one
has the position that is read first, and positions are ordered alike with their offsets and
without them. -/
theorem positions_exact (source : Bytes) :
    let m := ofSource source
    m.lineCount = 1 + source.count 10 ∧
    (∀ offset,
      let o := min offset source.length
      let before := source.take o
      let p := m.positionAt offset
      p.offset = o ∧
      p.line.toNat = (1 + before.count 10) % UInt32.size ∧
      p.column.toNat = (1 + trailing before) % UInt32.size ∧
      (source.length < UInt32.size - 1 →
        p.line.toNat = 1 + before.count 10 ∧ p.column.toNat = 1 + trailing before) ∧
      ∀ answer, Answers m.starts o answer → ∃ line start,
        (answer = .ok line ∨ answer = .error (line + 1)) ∧ m.starts[line]? = some start ∧
        start ≤ o ∧ p = ⟨o, (line + 1).toUInt32, (o - start + 1).toUInt32⟩) ∧
    (source.length < UInt32.size - 1 → ∀ o₁ ≤ source.length, ∀ o₂ ≤ source.length,
      let p := m.positionAt o₁
      let q := m.positionAt o₂
      ((p.line, p.column) = (q.line, q.column) → o₁ = o₂) ∧
      (o₁ < o₂ ↔ p.Before q) ∧ p.order q = compare o₁ o₂ ∧ p.order q = p.readingOrder q) := by
  intro m
  refine ⟨(lineCount_ofSource source).trans (Nat.add_comm ..), fun offset => ?_,
    fun hsource o₁ h₁ o₂ h₂ => ?_⟩
  · obtain ⟨hline, hcolumn⟩ := toNat_positionAt source offset
    exact ⟨rfl, hline, hcolumn, fun hsource => toNat_positionAt_of_lt hsource offset,
      fun answer => positionAt_of_answers⟩
  · intro p q
    have hp : p.offset = o₁ := Nat.min_eq_left h₁
    have hq : q.offset = o₂ := Nat.min_eq_left h₂
    rcases Nat.lt_trichotomy o₁ o₂ with hlt | heq | hgt
    · have hbefore : p.Before q := before_of_lt hsource hlt h₂
      have horder : p.order q = .lt := (Position.order_of_lt (by omega)).1
      rw [horder, hbefore.readingOrder_eq.1, Nat.compare_eq_lt.2 hlt]
      exact ⟨fun h => absurd h hbefore.ne, iff_of_true hlt hbefore, rfl, rfl⟩
    · subst heq
      have hself : p.order p = .eq ∧ p.readingOrder p = .eq := by
        simp [Position.order, Position.readingOrder]
      rw [show q = p from rfl, hself.1, hself.2, Nat.compare_eq_eq.2 rfl]
      exact ⟨fun _ => rfl, iff_of_false (Nat.lt_irrefl _) fun h => h.asymm h, rfl, rfl⟩
    · have hbefore : q.Before p := before_of_lt hsource hgt h₁
      have horder : p.order q = .gt := (Position.order_of_lt (by omega)).2
      rw [horder, hbefore.readingOrder_eq.2, Nat.compare_eq_gt.2 hgt]
      exact ⟨fun h => absurd h.symm hbefore.ne, iff_of_false hgt.not_gt hbefore.asymm, rfl, rfl⟩

/-- Two lines with a blank one between them. -/
def blankLine : Bytes := Bytes.ofAscii "a\n\nb".toList

/-- The first line feed is the last byte of its line, and the second one is a line of its own. -/
theorem positions_exact_blankLine :
    let m := ofSource blankLine
    let p := m.positionAt 1
    let q := m.positionAt 2
    blankLine.length < UInt32.size - 1 ∧ Answers m.starts 1 (.error 1) ∧
    (p.line.toNat = 1 ∧ p.column.toNat = 2) ∧ (q.line.toNat = 2 ∧ q.column.toNat = 1) ∧
    p.Before q ∧ p.order q = .lt ∧ ∃ start, m.starts[0]? = some start ∧ start ≤ 1 := by
  intro m p q
  have hsource : blankLine.length < UInt32.size - 1 := by decide
  have hanswer : Answers m.starts 1 (.error 1) := ⟨by decide, by decide, by decide⟩
  obtain ⟨-, hexact, hordered⟩ := positions_exact blankLine
  obtain ⟨-, hbefore, horder, -⟩ := hordered hsource 1 (by decide) 2 (by decide)
  obtain ⟨line, start, hline, hstart, hle, -⟩ := (hexact 1).2.2.2.2 (.error 1) hanswer
  obtain rfl : line = 0 := by simpa using hline.symm
  exact ⟨hsource, hanswer, (hexact 1).2.2.2.1 hsource, (hexact 2).2.2.2.1 hsource,
    hbefore.1 (by decide), horder, start, hstart, hle⟩

end LineMap
end Recognizer
