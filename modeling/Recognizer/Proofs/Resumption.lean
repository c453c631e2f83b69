import Recognizer.Proofs.Segmentation

/-!
# Reading on from inside a lexeme

A cursor may be put on any byte of a source, also inside a lexeme, and what is read from there
need not be what the source has there. A byte outside the alphabet and a single vertical bar
are met all the same: the lexemes that hold such a byte hold no other one, comments apart,
and a comment ends where it ends in the source.
-/
namespace Recognizer

namespace Kind

/-- The kinds that matter to the grammar and stand in none of its productions. -/
def foreign : List Kind := [.invalid, .pipe]

/-- The kinds of the lexemes that may hold the byte of a foreign lexeme, comments apart. -/
def secluded : List Kind := .doublePipe :: foreign

@[simp] theorem mem_secluded {k : Kind} :
    k ∈ secluded ↔ k = .doublePipe ∨ k = .invalid ∨ k = .pipe := by
  simp [secluded, foreign]

/-- The texts that hold the byte hold no other one, comments apart. -/
def Secludes (c : UInt8) : Prop :=
  ∀ ⦃k : Kind⦄ ⦃text : Bytes⦄, k.Form text → c ∈ text → k ≠ .comment →
    k ∈ secluded ∧ ∀ d ∈ text, d = c

theorem spells_of_spelling? {k : Kind} {w : List Char} (h : k.spelling? = some w) :
    k.Spells (Bytes.ofAscii w) := by
  cases k with
  | invalid | identifier | integer | real | comment => cases h
  | _ => exact ⟨w, h, rfl⟩

/-- Each character of a fixed spelling is one by itself. -/
theorem exists_spelling? {k : Kind} {w : List Char} {c : Char} (h : k.spelling? = some w)
    (hc : c ∈ w) : ∃ l : Kind, l.spelling? = some [c] := by
  have hall : w.all (fun c => all.any fun l => l.spelling? == some [c]) = true := by
    cases k <;> cases h <;> rfl
  obtain ⟨l, -, hl⟩ := List.any_eq_true.1 (List.all_eq_true.1 hall c hc)
  exact ⟨l, eq_of_beq hl⟩

/-- Each byte of a text is a text by itself, comments apart. -/
theorem Spells.exists_byte {k : Kind} {text : Bytes} {b : UInt8} (h : k.Spells text)
    (hk : k ≠ .comment) (hb : b ∈ text) : ∃ l : Kind, l.Spells [b] := by
  have hdigit {c : UInt8} (hc : isDigit c = true) : integer.Spells [c] := by simpa [Spells] using hc
  have hname {c : UInt8} (hc : isNameStart c = true) : identifier.Spells [c] :=
    ⟨c, [], rfl, hc, by simp⟩
  have hfixed {w : List Char} (hw : k.spelling? = some w) (hb : b ∈ Bytes.ofAscii w) :
      ∃ l : Kind, l.Spells [b] := by
    obtain ⟨c, hc, rfl⟩ := List.mem_map.1 hb
    obtain ⟨l, hl⟩ := exists_spelling? hw hc
    exact ⟨l, spells_of_spelling? hl⟩
  cases k with
  | invalid => exact h.elim
  | comment => exact absurd rfl hk
  | identifier =>
    obtain ⟨c, cs, rfl, hc, hcs⟩ := h
    rcases List.mem_cons.1 hb with rfl | hb
    · exact ⟨_, hname hc⟩
    · rcases Bool.or_eq_true_iff.1 (hcs b hb) with hb | hb
      · exact ⟨_, hname hb⟩
      · exact ⟨_, hdigit hb⟩
  | integer => exact ⟨_, hdigit (h.2 b hb)⟩
  | real =>
    obtain ⟨whole, fraction, rfl, -, hwhole, hfraction⟩ := h
    rcases List.mem_append.1 hb with hb | hb
    · exact ⟨_, hdigit (hwhole b hb)⟩
    · rcases List.mem_cons.1 hb with rfl | hb
      · exact ⟨.dot, spells_of_spelling? (w := ['.']) rfl⟩
      · exact ⟨_, hdigit (hfraction b hb)⟩
  | _ =>
    obtain ⟨w, hw, rfl⟩ := h
    exact hfixed hw hb

/-- A byte outside the alphabet stands in no text of another kind. -/
theorem secludes_of_forall_not_spells {c : UInt8}
    (h : ∀ (k : Kind) (bs : Bytes), ¬ k.Spells (c :: bs)) : Secludes c := by
  intro k text hform hc hk
  by_cases hinvalid : k = .invalid
  · subst hinvalid
    obtain ⟨b, rfl, -⟩ := hform
    rw [List.mem_singleton.1 hc]
    exact ⟨by decide, by simp⟩
  · obtain ⟨l, hl⟩ := (hform.spells hinvalid).exists_byte hk hc
    exact absurd hl (h l [])

/-- A text that holds a byte of a fixed spelling is one, if the byte is not part of a name or a
number. -/
theorem Form.fixed {k l : Kind} {text : Bytes} {c : UInt8} (h : k.Form text) (hc : c ∈ text)
    (hk : k ≠ .comment) (hl : l.Spells [c]) (hpart : isNamePart c = false) (hdot : c ≠ 46) :
    ∃ w, k.spelling? = some w ∧ text = Bytes.ofAscii w := by
  have hdigit : isDigit c = false := (Bool.or_eq_false_iff.1 hpart).2
  cases k with
  | comment => exact absurd rfl hk
  | invalid =>
    obtain ⟨b, rfl, hb⟩ := h
    rw [← List.mem_singleton.1 hc] at hb
    exact absurd hl (hb l [])
  | identifier =>
    obtain ⟨b, bs, rfl, hb, hbs⟩ := h
    rcases List.mem_cons.1 hc with rfl | hc
    · simp [isNamePart, hb] at hpart
    · simp [hbs c hc] at hpart
  | integer => simp [h.2 c hc] at hdigit
  | real =>
    obtain ⟨whole, fraction, rfl, -, hwhole, hfraction⟩ := h
    rcases List.mem_append.1 hc with hc | hc
    · simp [hwhole c hc] at hdigit
    · rcases List.mem_cons.1 hc with hc | hc
      · exact absurd hc hdot
      · simp [hfraction c hc] at hdigit
  | _ => exact h

/-- A vertical bar stands in the texts of bars alone. -/
theorem secludes_bar : Secludes 124 := by
  intro k text hform hc hk
  obtain ⟨w, hw, rfl⟩ := hform.fixed hc hk (spells_of_spelling? (k := .pipe) rfl) rfl (by decide)
  cases k <;> cases hw <;> revert hc <;> decide +kernel

/-- A solidus stands in comments and by itself. -/
theorem Form.eq_slash {k : Kind} {text : Bytes} (h : k.Form text) (hc : 47 ∈ text)
    (hk : k ≠ .comment) : k = .slash ∧ text = [47] := by
  obtain ⟨w, hw, rfl⟩ := h.fixed hc hk (spells_of_spelling? (k := .slash) rfl) rfl (by decide)
  cases k <;> cases hw <;> revert hc <;> decide

/-- A foreign lexeme is one byte, which only such lexemes and pairs of bars hold. -/
theorem Form.of_foreign {k : Kind} {text : Bytes} (h : k.Form text) (hk : k ∈ foreign) :
    ∃ c, text = [c] ∧ Secludes c := by
  simp only [foreign, List.mem_cons, List.not_mem_nil, or_false] at hk
  rcases hk with rfl | rfl
  · obtain ⟨c, rfl, hc⟩ := h
    exact ⟨c, rfl, secludes_of_forall_not_spells hc⟩
  · obtain ⟨w, hw, rfl⟩ := h
    cases hw
    exact ⟨124, rfl, secludes_bar⟩

theorem Secludes.ne_newline {c : UInt8} (h : Secludes c) : c ≠ 10 := by
  rintro rfl
  exact absurd (h (k := .newline) ⟨_, rfl, rfl⟩ (by decide) (by decide)).1 (by decide)

end Kind

namespace Lexeme

variable {source : Bytes} {offset i j : Nat} {x y : Lexeme} {c : UInt8}

/-- The byte at an offset belongs to the lexeme. -/
def Covers (x : Lexeme) (i : Nat) : Prop := x.start ≤ i ∧ i < x.stop

/-- The bytes of the source from where a lexeme starts are its text. -/
theorem Placed.getElem? (h : x.Placed source) (hj : x.start + j < x.stop) :
    source[x.start + j]? = x.text[j]? := by
  have htext := h.text
  simp only [Span.slice?, span, h.nonempty.le, h.within, and_self, if_true,
    Option.some.injEq] at htext
  rw [← htext, List.getElem?_take_of_lt (by omega), List.getElem?_drop]

/-- A lexeme holds the bytes that it covers. -/
theorem Placed.mem_text (h : x.Placed source) (hi : x.Covers i) (hc : source[i]? = some c) :
    c ∈ x.text := by
  obtain ⟨j, rfl⟩ := Nat.exists_eq_add_of_le hi.1
  exact List.mem_of_getElem? ((h.getElem? hi.2).symm.trans hc)

/-- Reading on from where a lexeme starts gives the lexemes from it on. -/
theorem suffix_of_mem (h : x ∈ scanFrom source offset) :
    scanFrom source x.start <:+ scanFrom source offset := by
  obtain ⟨before, after, hscan⟩ := List.append_of_mem h
  obtain ⟨-, hx, rfl⟩ := scanFrom_eq_append hscan
  exact ⟨before, by rw [hx.again, hscan]⟩

theorem start_le_of_mem (h : x ∈ scanFrom source offset) : offset ≤ x.start := by
  obtain ⟨before, after, hscan⟩ := List.append_of_mem h
  exact (scanFrom_eq_append hscan).1

/-- Every byte behind an offset is covered by one of the lexemes read from there. -/
theorem exists_covers (hoffset : offset ≤ i) (hi : i < source.length) :
    ∃ x ∈ scanFrom source offset, x.Covers i := by
  generalize hxs : scanFrom source offset = xs
  induction xs generalizing offset with
  | nil =>
    have := scanFrom_eq_nil_iff.1 hxs
    omega
  | cons x xs ih =>
    obtain ⟨hnext, hrest⟩ := scanFrom_eq_cons hxs
    obtain ⟨rfl, -⟩ := next?_drop hnext
    by_cases hstop : i < x.stop
    · exact ⟨x, by simp, hoffset, hstop⟩
    · obtain ⟨y, hy, hcovers⟩ := ih (by omega) hrest.symm
      exact ⟨y, List.mem_cons_of_mem x hy, hcovers⟩

/-- What is read before an offset from which reading on gives the last lexemes ends before it. -/
theorem stop_le_of_append {before : List Lexeme}
    (h : before ++ scanFrom source i = scanFrom source offset) (hx : x ∈ before) : x.stop ≤ i := by
  obtain ⟨left, right, rfl⟩ := List.append_of_mem hx
  rw [List.append_assoc, List.cons_append] at h
  obtain ⟨-, hplaced, hright⟩ := scanFrom_eq_append h.symm
  cases hi : scanFrom source i with
  | nil => exact hplaced.within.trans (scanFrom_eq_nil_iff.1 hi)
  | cons y after =>
    have hstart := (next?_drop (scanFrom_eq_cons hi).1).1
    have hlater : y ∈ scanFrom source x.stop := by simp [← hright, hi]
    exact (start_le_of_mem hlater).trans hstart.le

/-- Where reading on gives the last of the lexemes, it gives those that do not start before. -/
theorem mem_of_suffix (h : scanFrom source i <:+ scanFrom source offset)
    (hx : x ∈ scanFrom source offset) (hle : i ≤ x.start) : x ∈ scanFrom source i := by
  obtain ⟨before, hscan⟩ := h
  rw [← hscan] at hx
  refine (List.mem_append.1 hx).resolve_left fun hbefore => ?_
  have hstop := stop_le_of_append hscan hbefore
  have hlt := (placed_of_mem (hscan ▸ hx)).nonempty
  omega

/-- A byte is covered by one lexeme only. -/
theorem eq_of_covers (hx : x ∈ scanFrom source offset) (hy : y ∈ scanFrom source offset)
    (hxi : x.Covers i) (hyi : y.Covers i) : x = y := by
  have hfirst {x y : Lexeme} (hx : x ∈ scanFrom source offset) (hy : y ∈ scanFrom source offset)
      (hxi : x.Covers i) (hyi : y.Covers i) (hle : x.start ≤ y.start) : y = x := by
    have hmem := mem_of_suffix (suffix_of_mem hx) hy hle
    rw [(placed_of_mem hx).again] at hmem
    refine (List.mem_cons.1 hmem).resolve_right fun hlater => ?_
    exact absurd (start_le_of_mem hlater) (Nat.not_le.2 (Nat.lt_of_le_of_lt hyi.1 hxi.2))
  rcases Nat.le_total x.start y.start with hle | hle
  · exact (hfirst hx hy hxi hyi hle).symm
  · exact hfirst hy hx hyi hxi hle

theorem Placed.covers_start (h : x.Placed source) : x.Covers x.start := ⟨Nat.le_refl _, h.nonempty⟩

/-- What is read as a comment from somewhere is in a comment of the source. -/
theorem exists_comment (hy : y ∈ scanFrom source offset) (hyk : y.kind = .comment) :
    ∃ z ∈ scan source, z.kind = .comment ∧ z.Covers y.start := by
  have hplaced := placed_of_mem hy
  have hform := (fits_of_mem hy).1
  rw [hyk] at hform
  obtain ⟨line, htext, -⟩ := hform
  have hstop : y.stop = y.start + (line.length + 2) := by rw [stop, htext]; rfl
  have hfirst := hplaced.getElem? (j := 0) (by omega)
  have hsecond := hplaced.getElem? (j := 1) (by omega)
  rw [htext] at hfirst hsecond
  obtain ⟨z, hz, hcovers⟩ := exists_covers (Nat.zero_le y.start)
    (Nat.lt_of_lt_of_le hplaced.nonempty hplaced.within)
  refine ⟨z, hz, ?_, hcovers⟩
  -- a solidus outside a comment has none behind it
  obtain ⟨hzform, hzstops⟩ := fits_of_mem hz
  by_contra hne
  obtain ⟨hslash, hztext⟩ :=
    hzform.eq_slash ((placed_of_mem hz).mem_text hcovers hfirst) hne
  have hzstop : z.stop = y.start + 1 := by
    obtain ⟨hle, hlt⟩ := hcovers
    simp only [stop, hztext, List.length_singleton] at hlt ⊢
    omega
  rw [hslash, hzstop] at hzstops
  exact absurd (hzstops 47 hsecond) (by decide)

/-- A comment that covers a byte goes on to the end of the line. -/
theorem covers_of_comment (hx : x ∈ scanFrom source offset) (hk : x.kind = .comment)
    (hj : x.Covers j) (hji : j ≤ i)
    (hline : ∀ l, j < l → l ≤ i → ∃ b, source[l]? = some b ∧ b ≠ 10) : x.Covers i := by
  refine ⟨hj.1.trans hji, Nat.not_le.1 fun hle => ?_⟩
  obtain ⟨b, hb, hne⟩ := hline x.stop hj.2 hle
  have hstops := (fits_of_mem hx).2 b hb
  rw [hk] at hstops
  exact hne (eq_of_beq hstops)

/-- No comment that is read from somewhere covers a lexeme of another kind in the source. -/
theorem not_covers_of_comment (hx : x ∈ scan source) (hxk : x.kind ≠ .comment)
    (hy : y ∈ scanFrom source offset) (hyk : y.kind = .comment) : ¬ y.Covers x.start := by
  intro hcovers
  have hplaced := placed_of_mem hy
  have hform := (fits_of_mem hy).1
  rw [hyk] at hform
  obtain ⟨line, htext, hline⟩ := hform
  obtain ⟨z, hz, hzk, hzy⟩ := exists_comment hy hyk
  have hzx : z.Covers x.start := by
    refine covers_of_comment hz hzk hzy hcovers.1 fun l hyl hlx => ?_
    have hl : y.Covers l := ⟨hyl.le, Nat.lt_of_le_of_lt hlx hcovers.2⟩
    have hb := List.getElem?_eq_getElem (Nat.lt_of_lt_of_le hl.2 hplaced.within)
    refine ⟨_, hb, fun heq => ?_⟩
    have hmem := hplaced.mem_text hl hb
    rw [heq, htext] at hmem
    simp [hline] at hmem
  obtain rfl := eq_of_covers hz hx hzx (placed_of_mem hx).covers_start
  exact hxk hzk

section Run

variable (hx : x ∈ scan source) (hxk : x.kind ≠ .comment) (hc : Kind.Secludes c)
  (hj : j ≤ x.start) (hrun : ∀ i, j ≤ i → i ≤ x.start → source[i]? = some c)
include hx hxk hc hj hrun

/-- What covers the first byte of a run that leads up to a lexeme holds no other byte. -/
theorem secludes_of_run (hy : y ∈ scanFrom source offset) (hcovers : y.Covers j) :
    y.kind ∈ Kind.secluded ∧ ∀ d ∈ y.text, d = c := by
  have hmem := (placed_of_mem hy).mem_text hcovers (hrun j (Nat.le_refl _) hj)
  refine hc (fits_of_mem hy).1 hmem fun hyk => ?_
  refine not_covers_of_comment hx hxk hy hyk (covers_of_comment hy hyk hcovers hj ?_)
  exact fun l hjl hlx => ⟨c, hrun l hjl.le hlx, hc.ne_newline⟩

/-- Behind another byte the run begins with a lexeme, wherever reading has begun. -/
theorem suffix_of_run (hoffset : offset ≤ j) (hbefore : ∀ i, j = i + 1 → source[i]? ≠ some c) :
    scanFrom source j <:+ scanFrom source offset := by
  have hlength : j < source.length := (List.getElem?_eq_some_iff.1 (hrun j (Nat.le_refl _) hj)).1
  obtain ⟨y, hy, hcovers⟩ := exists_covers hoffset hlength
  suffices y.start = j from this ▸ suffix_of_mem hy
  refine hcovers.1.eq_or_lt.resolve_right fun hlt => ?_
  obtain ⟨i, rfl⟩ := Nat.exists_eq_add_one_of_ne_zero (Nat.ne_zero_of_lt hlt)
  have hi := List.getElem?_eq_getElem (Nat.lt_of_succ_lt hlength)
  have hyi : y.Covers i := ⟨Nat.le_of_lt_succ hlt, Nat.lt_of_succ_lt hcovers.2⟩
  have hmem := (placed_of_mem hy).mem_text hyi hi
  have heq := (secludes_of_run hx hxk hc hj hrun hy hcovers).2 _ hmem
  exact hbefore i rfl (heq ▸ hi)

/-- Wherever reading begins before or in the run, it comes to the lexeme or begins in the run. -/
theorem mem_or_secluded (hoffset : offset ≤ j) : x ∈ scanFrom source offset ∨
    ∃ y after, scanFrom source offset = y :: after ∧ y.kind ∈ Kind.secluded := by
  induction j, hoffset using Nat.le_induction with
  | base =>
    have hlength := (List.getElem?_eq_some_iff.1 (hrun offset (Nat.le_refl _) hj)).1
    obtain ⟨y, hy, hcovers⟩ := exists_covers (Nat.le_refl offset) hlength
    have hstart : y.start = offset := Nat.le_antisymm hcovers.1 (start_le_of_mem hy)
    have hagain := (placed_of_mem hy).again
    rw [hstart] at hagain
    exact .inr ⟨y, _, hagain, (secludes_of_run hx hxk hc hj hrun hy hcovers).1⟩
  | succ j hle ih =>
    by_cases hbyte : source[j]? = some c
    · refine ih (by omega) fun i hji hix => ?_
      rcases hji.eq_or_lt with rfl | hji
      · exact hbyte
      · exact hrun i hji hix
    · -- both the source and what is read have a lexeme that starts at the run
      have hsuffix {k : Nat} (hk : k ≤ j + 1) : scanFrom source (j + 1) <:+ scanFrom source k :=
        suffix_of_run hx hxk hc hj hrun hk fun i hi => Nat.succ.inj hi ▸ hbyte
      exact .inl ((hsuffix (by omega)).subset (mem_of_suffix (hsuffix (Nat.zero_le _)) hx hj))

end Run

/-- Reading on from before a foreign lexeme or at it comes to that lexeme, or begins with one
of a secluded kind. -/
theorem significantFrom_cases (hx : x ∈ significant source) (hk : x.kind ∈ Kind.foreign)
    (hle : offset ≤ x.start) : x ∈ significantFrom source offset ∨
      ∃ y after, significantFrom source offset = y :: after ∧ y.kind ∈ Kind.secluded := by
  obtain ⟨hscan, hsignificant⟩ := List.mem_filter.1 hx
  obtain ⟨c, htext, hc⟩ := (fits_of_mem hscan).1.of_foreign hk
  have hxk : x.kind ≠ .comment := ne_of_mem_of_not_mem hk (by decide)
  have hbyte : source[x.start]? = some c := by
    have hplaced := placed_of_mem hscan
    simpa [htext] using hplaced.getElem? (j := 0) hplaced.nonempty
  have hrun : ∀ i, x.start ≤ i → i ≤ x.start → source[i]? = some c := fun i hi hix => by
    rw [Nat.le_antisymm hix hi, hbyte]
  rcases mem_or_secluded hscan hxk hc (Nat.le_refl _) hrun hle with hmem | ⟨y, after, hy, hyk⟩
  · exact .inl (List.mem_filter.2 ⟨hmem, hsignificant⟩)
  · have hys : y.isSignificant = true := by
      have hall : ∀ k ∈ Kind.secluded, k.isSignificant = true := by decide
      exact hall _ hyk
    exact .inr ⟨y, _, by rw [significantFrom, hy, List.filter_cons_of_pos hys], hyk⟩

end Lexeme
end Recognizer
