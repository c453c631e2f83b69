import Recognizer.Proofs.Filtering

/-!
# The lexemes of a source are its only segmentation

Each kind has a lexical form, and a rule for the bytes that may follow a text of that form.
A source has exactly one partition into texts that have the form of their kind and are not
continued by what follows, and a cursor without filters visits the parts of that
partition. One lexeme is read from the front of the bytes, so the argument is about the
front: what is read there fits its kind, and what fits a kind there is what is read.
-/
namespace Recognizer

namespace Kind

/-- The texts that lexemes of a kind may have, apart from bytes outside the alphabet. -/
def Spells : Kind → Bytes → Prop
  | invalid, _ => False
  | identifier, text =>
    ∃ b bs, text = b :: bs ∧ isNameStart b = true ∧ ∀ c ∈ bs, isNamePart c = true
  | integer, text => text ≠ [] ∧ ∀ c ∈ text, isDigit c = true
  | real, text =>
    ∃ whole fraction, text = whole ++ 46 :: fraction ∧ (whole ≠ [] ∨ fraction ≠ []) ∧
      (∀ c ∈ whole, isDigit c = true) ∧ ∀ c ∈ fraction, isDigit c = true
  | comment, text => ∃ line, text = 47 :: 47 :: line ∧ 10 ∉ line
  | k, text => ∃ w, k.spelling? = some w ∧ text = Bytes.ofAscii w

/-- The lexical form of a kind. A byte outside the alphabet is one with which no text of
another kind begins. -/
def Form : Kind → Bytes → Prop
  | invalid, text => ∃ b, text = [b] ∧ ∀ (k : Kind) (bs : Bytes), ¬ k.Spells (b :: bs)
  | k, text => k.Spells text

/-- A lexeme of the kind may end before the byte. -/
def stopsBefore : Kind → UInt8 → Bool
  | identifier, b => !isNamePart b
  | integer, b => !isDigit b && b != 46
  | real, b | dot, b => !isDigit b
  | comment, b => b == 10
  | slash, b => b != 47
  | ampersand, b => b != 38
  | pipe, b => b != 124
  | equals, b | bang, b | less, b | greater, b => b != 61
  | _, _ => true

section Stops

variable {b : UInt8}

@[simp] theorem stopsBefore_identifier : identifier.stopsBefore b = !isNamePart b := rfl
@[simp] theorem stopsBefore_integer : integer.stopsBefore b = (!isDigit b && b != 46) := rfl
@[simp] theorem stopsBefore_real : real.stopsBefore b = !isDigit b := rfl
@[simp] theorem stopsBefore_dot : dot.stopsBefore b = !isDigit b := rfl
@[simp] theorem stopsBefore_comment : comment.stopsBefore b = (b == 10) := rfl
@[simp] theorem stopsBefore_slash : slash.stopsBefore b = (b != 47) := rfl

end Stops

theorem form_of_spells {k : Kind} {text : Bytes} (h : k.Spells text) : k.Form text := by
  cases k with
  | invalid => exact False.elim h
  | _ => exact h

theorem Form.spells {k : Kind} {text : Bytes} (h : k.Form text) (hk : k ≠ invalid) :
    k.Spells text := by
  cases k with
  | invalid => exact absurd rfl hk
  | _ => exact h

theorem lt_of_isNamePart {b : UInt8} (h : isNamePart b = true) : b < 0x80 := by
  simp only [isNamePart, isNameStart, isLetter, isDigit, Bool.or_eq_true, Bool.and_eq_true,
    decide_eq_true_eq, beq_iff_eq, UInt8.le_iff_toNat_le, ← UInt8.toNat_inj] at h
  rw [UInt8.lt_iff_toNat_lt]
  simp only [UInt8.toNat_ofNat] at h ⊢
  omega

theorem lt_of_isDigit {b : UInt8} (h : isDigit b = true) : b < 0x80 :=
  lt_of_isNamePart (by simp [isNamePart, h])

/-- The texts of a kind are ASCII, comments apart. -/
theorem Spells.ascii {k : Kind} {text : Bytes} (h : k.Spells text) (hk : k ≠ comment) :
    ∀ b ∈ text, b < 0x80 := by
  cases k with
  | invalid => exact h.elim
  | comment => exact absurd rfl hk
  | identifier =>
    obtain ⟨b, bs, rfl, hb, hbs⟩ := h
    refine List.forall_mem_cons.2 ⟨?_, fun c hc => lt_of_isNamePart (hbs c hc)⟩
    exact lt_of_isNamePart (by simp [isNamePart, hb])
  | integer => exact fun b hb => lt_of_isDigit (h.2 b hb)
  | real =>
    obtain ⟨whole, fraction, rfl, -, hwhole, hfraction⟩ := h
    refine List.forall_mem_append.2 ⟨fun b hb => lt_of_isDigit (hwhole b hb), ?_⟩
    exact List.forall_mem_cons.2 ⟨by decide, fun b hb => lt_of_isDigit (hfraction b hb)⟩
  | _ =>
    obtain ⟨w, hw, rfl⟩ := h
    have hall : (Bytes.ofAscii w).all (· < 0x80) = true := by
      cases hw
      rfl
    exact fun b hb => of_decide_eq_true (List.all_eq_true.1 hall b hb)

end Kind

namespace Lexeme

/-- The text has the form of the kind, and the bytes behind it do not continue it. -/
structure Fits (k : Kind) (text rest : Bytes) : Prop where
  form : k.Form text
  stops : ∀ b ∈ rest.head?, k.stopsBefore b = true

section Classes

variable {p : UInt8 → Bool} {text rest bs : Bytes} {b c : UInt8}

theorem head_dropWhile (h : c ∈ (bs.dropWhile p).head?) : p c = false := by
  have hnot := List.head?_dropWhile_not p bs
  rwa [Option.mem_def.1 h] at hnot

/-- A text of one class before a byte outside the class is split off again. -/
theorem split_class (htext : ∀ c ∈ text, p c = true) (hrest : ∀ c ∈ rest.head?, p c = false) :
    (text ++ rest).takeWhile p = text ∧ (text ++ rest).dropWhile p = rest := by
  rw [List.takeWhile_append_of_pos htext, List.dropWhile_append_of_pos htext]
  cases rest with
  | nil => simp
  | cons c rest => simp [hrest c (by simp)]

theorem mem_class (h : c ∈ bs.takeWhile p) : p c = true := List.mem_takeWhile_imp h

theorem head_ne (h : ∀ r, bs = c :: r → False) : ∀ d ∈ bs.head?, d ≠ c := by
  rintro d hd rfl
  obtain ⟨r, hr⟩ := List.head?_eq_some_iff.1 (Option.mem_def.1 hd)
  exact h r hr

/-- A byte is the ASCII spelling of the character that it denotes. -/
theorem ofAscii_of_char {letter : Char} (h : Char.ofNat b.toNat = letter) :
    [b] = Bytes.ofAscii [letter] := by
  have hvalid : b.toNat.isValidChar := .inl (Nat.lt_trans b.toNat_lt (by decide))
  have hnat : letter.toNat = b.toNat := by
    rw [← h, Char.ofNat, dif_pos hvalid]
    rfl
  simp [Bytes.ofAscii, hnat]

end Classes

theorem fits_name {b : UInt8} (hb : isNameStart b = true) (bs : Bytes) :
    Fits .identifier (b :: bs.takeWhile isNamePart) (bs.dropWhile isNamePart) := by
  refine ⟨⟨b, _, rfl, hb, fun c hc => mem_class hc⟩, fun c hc => ?_⟩
  simp [head_dropWhile hc]

section Numbers

variable {b : UInt8} (hb : isDigit b = true) (bs : Bytes)
include hb

theorem digits_cons : ∀ c ∈ b :: bs.takeWhile isDigit, isDigit c = true :=
  List.forall_mem_cons.2 ⟨hb, fun _ hc => mem_class hc⟩

theorem fits_decimal (r : Bytes) :
    Fits .real (b :: (bs.takeWhile isDigit ++ 46 :: r.takeWhile isDigit))
      (r.dropWhile isDigit) := by
  refine ⟨⟨b :: bs.takeWhile isDigit, r.takeWhile isDigit, rfl, .inl (by simp),
    digits_cons hb bs, fun c hc => mem_class hc⟩, fun c hc => ?_⟩
  simp [head_dropWhile hc]

theorem fits_integer (hdot : ∀ c ∈ (bs.dropWhile isDigit).head?, c ≠ 46) :
    Fits .integer (b :: bs.takeWhile isDigit) (bs.dropWhile isDigit) := by
  refine ⟨⟨by simp, digits_cons hb bs⟩, fun c hc => ?_⟩
  simp [head_dropWhile hc, hdot c hc]

theorem fits_fraction :
    Fits .real (46 :: (b :: bs).takeWhile isDigit) ((b :: bs).dropWhile isDigit) := by
  refine ⟨⟨[], (b :: bs).takeWhile isDigit, rfl, .inr (by simp [hb]), by simp,
    fun c hc => mem_class hc⟩, fun c hc => ?_⟩
  simp [head_dropWhile hc]

end Numbers

theorem fits_comment (r : Bytes) :
    Fits .comment (47 :: 47 :: r.takeWhile (· != 10)) (r.dropWhile (· != 10)) := by
  refine ⟨⟨r.takeWhile (· != 10), rfl, fun h => ?_⟩, fun c hc => ?_⟩
  · simpa using mem_class h
  · simpa using head_dropWhile hc

/-- A byte that never joins the next one spells its kind. -/
theorem spells_single {b : UInt8} (h : single b ≠ .invalid) : (single b).Spells [b] := by
  unfold single at h ⊢
  split
  case h_18 => simp at h
  all_goals exact ⟨_, rfl, ofAscii_of_char (by assumption)⟩

/-- A pair spells its kind, and so does its first byte where the second one does not follow. -/
theorem fits_pair {b second : UInt8} {double alone : Kind} {rest : Bytes}
    (h : pair? b = some (second, double, alone)) :
    Fits double [b, second] rest ∧
      ((∀ c ∈ rest.head?, c ≠ second) → Fits alone [b] rest) := by
  unfold pair? at h
  split at h
  case h_7 => cases h
  all_goals
    rename_i hchar
    obtain ⟨rfl⟩ := List.cons.inj (ofAscii_of_char hchar)
    cases h
    refine ⟨⟨⟨_, rfl, rfl⟩, fun _ _ => rfl⟩, fun hrest => ⟨⟨_, rfl, rfl⟩, fun c hc => ?_⟩⟩
    simpa [Kind.stopsBefore] using hrest c hc

/-- No text of another kind begins with a byte that is outside the alphabet. -/
theorem not_spells_of_single {b : UInt8} (hname : isNameStart b = false)
    (hdigit : isDigit b = false) (hdot : b ≠ 46) (hslash : b ≠ 47) (hpair : pair? b = none)
    (hsingle : single b = .invalid) (k : Kind) (bs : Bytes) : ¬ k.Spells (b :: bs) := by
  intro h
  cases k with
  | invalid => exact h
  | identifier =>
    obtain ⟨c, cs, hcs, hc, -⟩ := h
    cases hcs
    simp [hname] at hc
  | integer => simp [h.2 b (by simp)] at hdigit
  | real =>
    obtain ⟨whole, fraction, htext, -, hwhole, -⟩ := h
    cases whole with
    | nil => exact hdot (List.cons.inj htext).1
    | cons c whole =>
      obtain ⟨rfl, -⟩ := List.cons.inj htext
      simp [hwhole b (by simp)] at hdigit
  | comment =>
    obtain ⟨line, htext, -⟩ := h
    exact hslash (List.cons.inj htext).1
  | _ =>
    obtain ⟨w, hw, htext⟩ := h
    cases hw
    rw [(List.cons.inj htext).1] at hdot hslash hpair hsingle
    revert hdot hslash hpair hsingle
    decide

theorem fits_single {b : UInt8} (hname : isNameStart b = false) (hdigit : isDigit b = false)
    (hdot : b ≠ 46) (hslash : b ≠ 47) (hpair : pair? b = none) (rest : Bytes) :
    Fits (single b) [b] rest := by
  refine ⟨?_, fun c _ => ?_⟩
  · by_cases hsingle : single b = .invalid
    · rw [hsingle]
      exact ⟨b, rfl, not_spells_of_single hname hdigit hdot hslash hpair hsingle⟩
    · exact Kind.form_of_spells (spells_single hsingle)
  · unfold single
    split <;> rfl

/-- What is read has the form of its kind and is not continued by what follows. -/
theorem fits_first (b : UInt8) (bs : Bytes) :
    Fits (first b bs).1 (first b bs).2.1 (first b bs).2.2 := by
  unfold first
  split
  · next hname => exact fits_name hname bs
  split
  · next hdigit =>
    dsimp only
    split
    · next r hr => exact fits_decimal hdigit bs r
    · next hr => exact fits_integer hdigit bs (head_ne hr)
  split
  · next hdot =>
    obtain rfl := eq_of_beq hdot
    split
    · next d ds =>
      split
      · next hd => exact fits_fraction hd ds
      · next hd => exact ⟨⟨_, rfl, rfl⟩, by simp [hd]⟩
    · exact ⟨⟨_, rfl, rfl⟩, by simp⟩
  split
  · next hslash =>
    obtain rfl := eq_of_beq hslash
    split
    · next r => exact fits_comment r
    · next hr => exact ⟨⟨_, rfl, rfl⟩, fun c hc => by simp [head_ne hr c hc]⟩
  · next hname hdigit hdot hslash =>
    split
    · next second double alone hpair =>
      split
      · next c r =>
        split
        · next hc =>
          obtain rfl := eq_of_beq hc
          exact (fits_pair hpair).1
        · next hc => exact (fits_pair hpair).2 (by simpa using hc)
      · exact (fits_pair hpair).2 (by simp)
    · next hpair =>
      simp only [Bool.not_eq_true, beq_eq_false_iff_ne] at hname hdigit hdot hslash
      exact fits_single hname hdigit hdot hslash hpair bs

/-- A byte with which no text of a kind begins is read as one outside the alphabet. -/
theorem first_of_forall_not_spells {b : UInt8}
    (h : ∀ (k : Kind) (bs : Bytes), ¬ k.Spells (b :: bs)) (rest : Bytes) :
    first b rest = (.invalid, [b], rest) := by
  have hform := (fits_first b rest).form
  have hbytes := first_append b rest
  have hne := first_text_ne_nil b rest
  generalize first b rest = read at hform hbytes hne
  obtain ⟨k, text, after⟩ := read
  obtain ⟨c, text, rfl⟩ := List.exists_cons_of_ne_nil hne
  obtain ⟨rfl, rfl⟩ := List.cons.inj hbytes
  by_cases hk : k = .invalid
  · subst hk
    obtain ⟨d, hd, -⟩ := hform
    cases hd
    rfl
  · exact absurd (hform.spells hk) (h k text)

theorem isNameStart_of_isDigit {b : UInt8} (h : isDigit b = true) : isNameStart b = false := by
  simp only [isDigit, Bool.and_eq_true, decide_eq_true_eq, UInt8.le_iff_toNat_le] at h
  simp only [isNameStart, isLetter, Bool.or_eq_false_iff, Bool.and_eq_false_iff,
    decide_eq_false_iff_not, beq_eq_false_iff_ne, ne_eq, UInt8.le_iff_toNat_le,
    ← UInt8.toNat_inj, UInt8.toNat_ofNat] at h ⊢
  omega

section Digits

variable {b : UInt8} {ds : Bytes} (hds : ∀ c ∈ b :: ds, isDigit c = true)
include hds

theorem first_integer {rest : Bytes} (hrest : ∀ c ∈ rest.head?, isDigit c = false ∧ c ≠ 46) :
    first b (ds ++ rest) = (.integer, b :: ds, rest) := by
  obtain ⟨hb, hds⟩ := List.forall_mem_cons.1 hds
  obtain ⟨htake, hdrop⟩ := split_class hds fun c hc => (hrest c hc).1
  cases rest with
  | nil =>
    rw [List.append_nil] at htake hdrop ⊢
    simp [first, isNameStart_of_isDigit hb, hb, htake, hdrop]
  | cons c rest =>
    have hc : c ≠ 46 := (hrest c (by simp)).2
    simp [first, isNameStart_of_isDigit hb, hb, htake, hdrop, hc]

theorem first_decimal (r : Bytes) : first b (ds ++ 46 :: r) =
    (.real, b :: (ds ++ 46 :: r.takeWhile isDigit), r.dropWhile isDigit) := by
  obtain ⟨hb, hds⟩ := List.forall_mem_cons.1 hds
  have hpoint : ∀ c ∈ (46 :: r).head?, isDigit c = false := by simp [isDigit]
  have hsplit := split_class hds hpoint
  simp [first, isNameStart_of_isDigit hb, hb, hsplit]

end Digits

/-- Bytes that fit a kind are what is read. -/
theorem first_eq_of_fits {k : Kind} {text rest bs : Bytes} {b : UInt8} (h : Fits k text rest)
    (hbytes : text ++ rest = b :: bs) : first b bs = (k, text, rest) := by
  obtain ⟨hform, hstops⟩ := h
  cases k with
  | invalid =>
    obtain ⟨c, rfl, hother⟩ := hform
    obtain ⟨rfl, rfl⟩ := List.cons.inj hbytes
    exact first_of_forall_not_spells hother rest
  | identifier =>
    obtain ⟨c, cs, rfl, hc, hcs⟩ := hform
    obtain ⟨rfl, rfl⟩ := List.cons.inj hbytes
    simp only [Kind.stopsBefore_identifier, Bool.not_eq_true'] at hstops
    simp [first, hc, split_class hcs hstops]
  | integer =>
    obtain ⟨hne, hdigits⟩ := hform
    obtain ⟨c, cs, rfl⟩ := List.exists_cons_of_ne_nil hne
    obtain ⟨rfl, rfl⟩ := List.cons.inj hbytes
    exact first_integer hdigits fun d hd => by simpa using hstops d hd
  | real =>
    obtain ⟨whole, fraction, rfl, hne, hwhole, hfraction⟩ := hform
    simp only [Kind.stopsBefore_real, Bool.not_eq_true'] at hstops
    have hsplit := split_class hfraction hstops
    cases whole with
    | nil =>
      obtain ⟨c, cs, rfl⟩ := List.exists_cons_of_ne_nil (hne.resolve_left (by simp))
      obtain ⟨rfl, rfl⟩ := List.cons.inj hbytes
      have hc : isDigit c = true := hfraction c (by simp)
      have hpoint : isNameStart 46 = false ∧ isDigit 46 = false := ⟨rfl, rfl⟩
      simp only [List.cons_append] at hsplit
      simp [first, hpoint, hc, hsplit]
    | cons c whole =>
      rw [List.append_assoc] at hbytes
      obtain ⟨rfl, rfl⟩ := List.cons.inj hbytes
      simpa [hsplit] using first_decimal hwhole (fraction ++ rest)
  | comment =>
    obtain ⟨line, rfl, hline⟩ := hform
    obtain ⟨rfl, rfl⟩ := List.cons.inj hbytes
    have hbefore : ∀ c ∈ line, (c != 10) = true := fun c hc => by
      simpa using fun h : c = 10 => hline (h ▸ hc)
    have hbehind : ∀ c ∈ rest.head?, (c != 10) = false := by
      simpa using hstops
    have hslash : isNameStart 47 = false ∧ isDigit 47 = false := ⟨rfl, rfl⟩
    simp [first, hslash, split_class hbefore hbehind]
  | dot =>
    obtain ⟨w, hw, rfl⟩ := hform
    cases hw
    obtain ⟨rfl, rfl⟩ := List.cons.inj hbytes
    cases rest with
    | nil => rfl
    | cons c rest =>
      have hc : isDigit c = false := by simpa using hstops c
      have hpoint : isNameStart 46 = false ∧ isDigit 46 = false := ⟨rfl, rfl⟩
      simp [first, hc, Bytes.ofAscii, hpoint]
  | slash | ampersand | pipe | equals | bang | less | greater =>
    obtain ⟨w, hw, rfl⟩ := hform
    cases hw
    obtain ⟨rfl, rfl⟩ := List.cons.inj hbytes
    cases rest with
    | nil => rfl
    | cons c rest =>
      have hc := hstops c (by simp)
      simp only [Kind.stopsBefore, bne_iff_ne] at hc
      simp [first, hc, Bytes.ofAscii, isNameStart, isLetter, isDigit, pair?]
  | _ =>
    obtain ⟨w, hw, rfl⟩ := hform
    cases hw
    obtain ⟨rfl, rfl⟩ := List.cons.inj hbytes
    rfl

theorem Scans.flatMap_text {offset : Nat} {bytes : Bytes} {xs : List Lexeme}
    (h : Scans offset bytes xs) : xs.flatMap text = bytes := by
  induction h with
  | nil => rfl
  | cons hx _ ih =>
    obtain ⟨-, -, rfl⟩ := next?_eq_some hx
    rw [List.flatMap_cons, ih]

theorem fits_of_next? {offset : Nat} {bytes rest : Bytes} {x : Lexeme}
    (h : next? offset bytes = some (x, rest)) : Fits x.kind x.text rest := by
  cases bytes with
  | nil => simp at h
  | cons b bs =>
    simp only [next?, Option.some.injEq, Prod.mk.injEq] at h
    obtain ⟨rfl, rfl⟩ := h
    exact fits_first b bs

/-- Lexemes have the forms of their kinds, and are not continued by the bytes behind them. -/
theorem fits_of_mem {source : Bytes} {offset : Nat} {x : Lexeme} (h : x ∈ scanFrom source offset) :
    x.kind.Form x.text ∧ ∀ b ∈ source[x.stop]?, x.kind.stopsBefore b = true := by
  obtain ⟨hnext, -⟩ := scanFrom_eq_cons (placed_of_mem h).again
  obtain ⟨hform, hstops⟩ := fits_of_next? hnext
  rw [List.head?_drop] at hstops
  exact ⟨hform, hstops⟩

theorem next?_of_fits {k : Kind} {text rest : Bytes} (h : Fits k text rest) (hne : text ≠ [])
    (offset : Nat) : next? offset (text ++ rest) = some (⟨k, offset, text⟩, rest) := by
  obtain ⟨b, bs, rfl⟩ := List.exists_cons_of_ne_nil hne
  have hfirst : first b (bs ++ rest) = (k, b :: bs, rest) := first_eq_of_fits h rfl
  simp [next?, hfirst]

end Lexeme

/-- The bytes of a slice stand before those behind it. -/
theorem Span.slice_append {s : Span} {source bytes : Bytes} (h : s.slice? source = some bytes) :
    s.start + bytes.length = s.stop ∧ bytes ++ source.drop s.stop = source.drop s.start := by
  have hlength := length_slice h
  unfold slice? at h
  unfold length? at hlength
  split at h
  · next hs =>
    obtain rfl := Option.some.inj h
    rw [if_pos hs.1, Option.some.injEq] at hlength
    have hstop : s.stop = s.start + (s.stop - s.start) := by omega
    refine ⟨by omega, ?_⟩
    rw [congrArg source.drop hstop, ← List.drop_drop, List.take_append_drop]
  · cases h

/-- The token has the form of its kind and is not continued by the byte behind it. -/
structure Token.WellFormed (source : Bytes) (t : Token) : Prop where
  form : ∃ text, t.span.slice? source = some text ∧ t.kind.Form text
  maximal : ∀ b ∈ source[t.span.stop]?, t.kind.stopsBefore b = true

/-- The well-formed tokens are those that are read where they start. -/
theorem Token.wellFormed_iff {source : Bytes} {t : Token} :
    t.span.start < t.span.stop ∧ t.WellFormed source ↔
      ∃ x rest, Lexeme.next? t.span.start (source.drop t.span.start) = some (x, rest) ∧
        x.token = t := by
  constructor
  · rintro ⟨hne, ⟨text, hslice, hform⟩, hmaximal⟩
    obtain ⟨hlength, hbytes⟩ := Span.slice_append hslice
    have hpos : text ≠ [] := by
      rintro rfl
      rw [List.length_nil] at hlength
      omega
    rw [← List.head?_drop] at hmaximal
    refine ⟨⟨t.kind, t.span.start, text⟩, source.drop t.span.stop, ?_, ?_⟩
    · rw [← hbytes]
      exact Lexeme.next?_of_fits ⟨hform, hmaximal⟩ hpos _
    · simp [Lexeme.token, Lexeme.span, Lexeme.stop, hlength]
  · rintro ⟨x, rest, hnext, rfl⟩
    obtain ⟨hne, -, hslice, -⟩ := Lexeme.placed_of_next? hnext
    obtain ⟨-, -, -, rfl, -⟩ := Lexeme.next?_drop hnext
    obtain ⟨hform, hstops⟩ := Lexeme.fits_of_next? hnext
    rw [List.head?_drop] at hstops
    exact ⟨hne, ⟨x.text, hslice, hform⟩, hstops⟩

/-- The spans are non-empty and follow one another from one offset to another. -/
inductive Tiles : Nat → Nat → List Token → Prop where
  | nil {offset} : Tiles offset offset []
  | cons {finish t ts} : t.span.start < t.span.stop → Tiles t.span.stop finish ts →
      Tiles t.span.start finish (t :: ts)

/-- A partition of a source into tokens that have the form of their kinds, none of which
is continued by what follows. -/
structure Segmentation (source : Bytes) (ts : List Token) : Prop where
  tiles : Tiles 0 source.length ts
  wellFormed : ∀ t ∈ ts, t.WellFormed source

theorem Tiles.eq_scanFrom {source : Bytes} {offset : Nat} {ts : List Token}
    (h : Tiles offset source.length ts) (hts : ∀ t ∈ ts, t.WellFormed source) :
    ts = (Lexeme.scanFrom source offset).map Lexeme.token := by
  generalize hfinish : source.length = finish at h
  induction h with
  | nil => rw [Lexeme.scanFrom_eq_nil_iff.2 hfinish.le, List.map_nil]
  | cons hne _ ih =>
    obtain ⟨ht, hrest⟩ := List.forall_mem_cons.1 hts
    obtain ⟨x, rest, hnext, rfl⟩ := Token.wellFormed_iff.1 ⟨hne, ht⟩
    rw [Lexeme.scanFrom_of_next? hnext, List.map_cons, ih hrest hfinish]
    rfl

theorem tiles_scanFrom {source : Bytes} {offset : Nat} (h : offset ≤ source.length) :
    Tiles offset source.length ((Lexeme.scanFrom source offset).map Lexeme.token) ∧
      ∀ t ∈ (Lexeme.scanFrom source offset).map Lexeme.token, t.WellFormed source := by
  generalize hxs : Lexeme.scanFrom source offset = xs
  induction xs generalizing offset with
  | nil =>
    obtain rfl : offset = source.length := Nat.le_antisymm h (Lexeme.scanFrom_eq_nil_iff.1 hxs)
    exact ⟨.nil, by simp⟩
  | cons x xs ih =>
    obtain ⟨hnext, hrest⟩ := Lexeme.scanFrom_eq_cons hxs
    obtain ⟨rfl, -, hwithin, -⟩ := Lexeme.next?_drop hnext
    obtain ⟨htiles, hwell⟩ := ih hwithin hrest.symm
    obtain ⟨hne, hx⟩ := Token.wellFormed_iff.2 ⟨x, _, hnext, rfl⟩
    exact ⟨.cons hne htiles, List.forall_mem_cons.2 ⟨hx, hwell⟩⟩

/-- The lexemes of a source are its one segmentation. -/
theorem segmentation_iff {source : Bytes} {ts : List Token} :
    Segmentation source ts ↔ ts = (Lexeme.scan source).map Lexeme.token := by
  constructor
  · intro h
    exact h.tiles.eq_scanFrom h.wellFormed
  · rintro rfl
    obtain ⟨htiles, hwell⟩ := tiles_scanFrom (Nat.zero_le source.length)
    exact ⟨htiles, hwell⟩

namespace Cursor

theorem drain_openAt (source : Bytes) :
    (openAt [] source 0).drain = (Lexeme.scan source, ⟨[], Scanner.endOf source⟩) := by
  have hdrain := (shows_iterate [] source 0 0).drain
  rwa [List.drop_zero, visible_nil] at hdrain

/-- A cursor without filters yields the lexemes of the one segmentation of its source, each
with the bytes that its span covers, and comes to rest at the end. -/
theorem drain_openAt_segmentation (source : Bytes) :
    let (xs, c) := (openAt [] source 0).drain
    c.scanner = Scanner.endOf source ∧ xs.flatMap Lexeme.text = source ∧
      xs.map (fun x => x.span.slice? source) = xs.map (fun x => some x.text) ∧
      ∀ ts, Segmentation source ts ↔ ts = xs.map Lexeme.token := by
  rw [drain_openAt]
  refine ⟨rfl, (Lexeme.Scans.scan source).flatMap_text, ?_, fun ts => segmentation_iff⟩
  exact List.map_congr_left fun x hx => (Lexeme.placed_of_mem hx).text

/-- Adjacent numbers and points are split from the left, and a run of one operator in pairs. -/
example : ((openAt [] (Bytes.ofAscii "1.2.3===".toList) 0).drain.1.map fun x => (x.kind, x.text)) =
    [(.real, Bytes.ofAscii ['1', '.', '2']), (.real, Bytes.ofAscii ['.', '3']),
      (.doubleEquals, Bytes.ofAscii ['=', '=']), (.equals, Bytes.ofAscii ['='])] := by
  decide

end Cursor
end Recognizer
