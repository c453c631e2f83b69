import Mathlib.Data.List.Nodup
import Recognizer.Document.Json

/-!
# Written data are read back

A datum is written on one line, and that line is read as the same datum and as nothing else.
Each piece of a written datum is read back with any text behind it that does not go on with the
piece; the line is the case in which nothing is behind it. The steps of a reader last as long as
they outnumber the characters that are left.
-/
namespace Recognizer

/-- A datum whose numbers are natural and whose records name each field once. -/
inductive Datum.Plain : Datum → Prop where
  | null : Plain .null
  | bool (b : Bool) : Plain (.bool b)
  | natural (n : Nat) : Plain (.natural n)
  | text (s : String) : Plain (.text s)
  | list {items : List Datum} (hitems : ∀ d ∈ items, Plain d) : Plain (.list items)
  | record {fields : List (String × Datum)} (hnames : (fields.map Prod.fst).Nodup)
      (hfields : ∀ f ∈ fields, Plain f.2) : Plain (.record fields)

namespace Json

/-- What may stand behind a number without being taken for a part of it. -/
def Ends (rest : List Char) : Prop :=
  ∀ c ∈ rest.head?, c.isDigit = false ∧ c ≠ '.' ∧ c ≠ 'e' ∧ c ≠ 'E'

/-- What separates values or closes them is no part of a number. -/
theorem ends_cons {c : Char} {cs : List Char} (h : c ∈ [',', ']', '\x7d']) : Ends (c :: cs) := by
  simp only [List.mem_cons, List.not_mem_nil, or_false] at h
  rcases h with rfl | rfl | rfl <;> simp [Ends]

section Numbers

variable {rest : List Char}

theorem toList_toString (n : Nat) : (toString n).toList = Nat.toDigits 10 n := Nat.toList_repr

theorem isDigit_of_mem_toString {n : Nat} {c : Char} (hc : c ∈ (toString n).toList) :
    c.isDigit = true :=
  Nat.isDigit_of_mem_toDigits (by decide) (by decide) (toList_toString n ▸ hc)

theorem decimal_toDigits (n : Nat) : decimal (Nat.toDigits 10 n) = n := by
  have hfold : decimal (Nat.toDigits 10 n) = Nat.ofDigitChars 10 (Nat.toDigits 10 n) 0 := by
    simp only [decimal, Nat.ofDigitChars, Nat.mul_comm]
    rfl
  rw [hfold, Nat.ofDigitChars_toDigits (by decide) (by decide)]

/-- Only zero is written with a zero in front. -/
theorem length_toDigits_of_head? {n : Nat} (h : (Nat.toDigits 10 n).head? = some '0') :
    (Nat.toDigits 10 n).length = 1 := by
  have hzero : n = 0 := by
    induction n using Nat.strongRecOn with
    | ind n ih =>
      rw [Nat.toDigits_eq_if (by decide)] at h
      split at h
      · simpa using h
      · next hlarge =>
        rw [List.head?_append_of_ne_nil _ Nat.toDigits_ne_nil] at h
        have := ih (n / 10) (by omega) h
        omega
  rw [hzero]
  rfl

theorem digits?_append {ds : List Char} (hne : ds ≠ []) (hds : ∀ c ∈ ds, c.isDigit = true)
    (hrest : Ends rest) : digits? (ds ++ rest) = some (ds, rest) := by
  have hstop : rest.takeWhile Char.isDigit = [] ∧ rest.dropWhile Char.isDigit = rest := by
    cases rest with
    | nil => exact ⟨rfl, rfl⟩
    | cons c cs =>
      have hc := (hrest c rfl).1
      exact ⟨List.takeWhile_cons_of_neg (by simp [hc]),
        List.dropWhile_cons_of_neg (by simp [hc])⟩
  rw [digits?, List.takeWhile_append_of_pos hds, List.dropWhile_append_of_pos hds, hstop.1, hstop.2,
    List.append_nil]
  cases ds with
  | nil => exact absurd rfl hne
  | cons d ds => rfl

theorem fraction?_of_ends (hrest : Ends rest) : fraction? rest = some ([], rest) := by
  cases rest with
  | nil => rfl
  | cons c cs => simp [fraction?, (hrest c rfl).2.1]

theorem exponent?_of_ends (hrest : Ends rest) : exponent? rest = some ([], rest) := by
  cases rest with
  | nil => rfl
  | cons c cs => simp [exponent?, (hrest c rfl).2.2]

/-- The digits of a number begin with a digit. -/
theorem exists_toString_eq_cons (n : Nat) :
    ∃ c cs, (toString n).toList = c :: cs ∧ c.isDigit = true := by
  cases h : (toString n).toList with
  | nil => exact absurd (toList_toString n ▸ h) Nat.toDigits_ne_nil
  | cons c cs => exact ⟨c, cs, rfl, isDigit_of_mem_toString (h ▸ List.mem_cons_self)⟩

/-- What begins with the digits of a number begins with nothing else. -/
theorem toString_append_ne_cons (n : Nat) {b : Char} (hb : b.isDigit = false) (cs : List Char) :
    (toString n).toList ++ rest ≠ b :: cs := by
  intro h
  obtain ⟨c, ds, hc, hdigit⟩ := exists_toString_eq_cons n
  rw [hc, List.cons_append, List.cons.injEq] at h
  rw [h.1, hb] at hdigit
  exact Bool.false_ne_true hdigit

theorem number?_natural (n : Nat) (hrest : Ends rest) :
    number? ((toString n).toList ++ rest) = some (.natural n, rest) := by
  have hall : ∀ c ∈ Nat.toDigits 10 n, c.isDigit = true := fun c hc =>
    isDigit_of_mem_toString (toList_toString n ▸ hc)
  have hzero : ¬((Nat.toDigits 10 n).length ≠ 1 ∧ (Nat.toDigits 10 n).head? = some '0') :=
    fun h => h.1 (length_toDigits_of_head? h.2)
  rw [number?]
  · simp only [toList_toString, digits?_append Nat.toDigits_ne_nil hall hrest,
      fraction?_of_ends hrest, exponent?_of_ends hrest, Option.bind_eq_bind, Option.bind_some,
      if_neg hzero, decimal_toDigits]
    rfl
  · exact fun cs => toString_append_ne_cons n rfl cs

end Numbers

section Strings

/-- Every control character is written as two hexadecimal digits and read back. -/
theorem unit?_hexDigit : ∀ n < 0x20,
    unit? '0' '0' (hexDigit (n / 16)) (hexDigit (n % 16)) = some n := by
  decide

/-- An escaped character is read as the character. -/
theorem string?_escape (read : List Char) (c : Char) (cs : List Char) :
    string? read none (escape c ++ cs) = string? (c :: read) none cs := by
  unfold escape
  -- Seven characters have a letter of their own, the other control characters have a number.
  iterate 7
    split
    · next h => rw [h]; simp [string?, unescape?]
  split
  · next h =>
    have hadd : addUnit? read none c.toNat = some (c :: read, none) := by
      rw [addUnit?, if_neg (by omega), if_neg (by omega), Char.ofNat_toNat]
    simp only [List.cons_append, List.nil_append]
    rw [string?]
    simp only [unit?_hexDigit c.toNat h, Option.bind_some, hadd]
  · next hquote hslash _ _ _ _ _ hcontrol =>
    rw [List.cons_append, List.nil_append, string?]
    · simp [hcontrol, hslash, hquote]
    all_goals simp [hslash]

theorem quoted_append (s : String) (rest : List Char) :
    quoted s ++ rest = '\x22' :: (s.toList.flatMap escape ++ '\x22' :: rest) := by
  simp [quoted]

/-- A written string is read as the string, with the text behind it. -/
theorem string?_quoted (s : String) (rest : List Char) :
    string? [] none (s.toList.flatMap escape ++ '\x22' :: rest) = some (s, rest) := by
  have key : ∀ (cs read : List Char), string? read none (cs.flatMap escape ++ '\x22' :: rest) =
      some (String.ofList (read.reverse ++ cs), rest) := by
    intro cs
    induction cs with
    | nil => intro read; simp [string?]
    | cons c cs ih =>
      intro read
      rw [List.flatMap_cons, List.append_assoc, string?_escape, ih]
      simp
  rw [key]
  simp

end Strings

section Values

variable {rest : List Char}

/-- A written datum begins with no blank and with no closing bracket. -/
theorem exists_render_eq_cons {d : Datum} (hd : d.Plain) :
    ∃ c cs, render d = c :: cs ∧ isBlank c = false ∧ c ≠ ']' := by
  cases hd with
  | null => exact ⟨_, _, rfl, by decide, by decide⟩
  | bool b => cases b <;> exact ⟨_, _, rfl, by decide, by decide⟩
  | natural n =>
    obtain ⟨c, cs, hc, hdigit⟩ := exists_toString_eq_cons n
    refine ⟨c, cs, by rw [render, hc], ?_, ?_⟩
    · have hne : ∀ b, b.isDigit = false → c ≠ b := by rintro b hb rfl; simp [hdigit] at hb
      simp [isBlank, hne ' ' rfl, hne '\t' rfl, hne '\n' rfl, hne '\r' rfl]
    · rintro rfl; exact absurd hdigit (by decide)
  | text s => exact ⟨_, _, by rw [render, quoted, List.cons_append], by decide, by decide⟩
  | list hitems =>
    rename_i items
    cases items <;> exact ⟨_, _, by rw [render], by decide, by decide⟩
  | record hnames hfields =>
    rename_i fields
    cases fields <;> exact ⟨_, _, by rw [render], by decide, by decide⟩

theorem skip_cons {c : Char} {cs : List Char} (hc : isBlank c = false) :
    skip (c :: cs) = c :: cs := by
  rw [skip, List.dropWhile_cons_of_neg (by simp [hc])]

theorem skip_render {d : Datum} (hd : d.Plain) : skip (render d ++ rest) = render d ++ rest := by
  obtain ⟨c, cs, hc, hblank, -⟩ := exists_render_eq_cons hd
  rw [hc, List.cons_append, skip_cons hblank]

theorem ends_renderItems (ds : List Datum) : Ends (renderItems ds ++ rest) := by
  cases ds with
  | nil => rw [renderItems]; exact ends_cons (by decide)
  | cons d ds => rw [renderItems]; exact ends_cons (by decide)

/-- The datum is read back wherever it is written, within as many steps as characters. -/
def ReadsBack (d : Datum) : Prop :=
  ∀ steps rest, (render d).length ≤ steps → Ends rest →
    value? steps (render d ++ rest) = some (d, rest)

/-- A written datum takes one step at least. -/
theorem readsBack_of_succ {d : Datum} (hd : d.Plain)
    (h : ∀ steps rest, (render d).length ≤ steps + 1 → Ends rest →
      value? (steps + 1) (render d ++ rest) = some (d, rest)) : ReadsBack d := by
  intro steps rest hsteps hrest
  cases steps with
  | zero =>
    obtain ⟨c, cs, hc, -⟩ := exists_render_eq_cons hd
    simp [hc] at hsteps
  | succ steps => exact h steps rest hsteps hrest

theorem readsBack_natural (n : Nat) : ReadsBack (.natural n) := by
  refine readsBack_of_succ (.natural n) fun steps rest _ hrest => ?_
  rw [value?, skip_render (.natural n), render]
  -- A digit begins no other datum, so the text is left to the reader of numbers.
  split
  all_goals try exact absurd ‹_› (toString_append_ne_cons n rfl _)
  exact number?_natural n hrest

/-- Items that are read back one by one are read back as a list, behind those read before. -/
theorem items?_render {ds : List Datum} (hds : ∀ e ∈ ds, ReadsBack e) :
    ∀ {d : Datum} {steps : Nat} (read : List Datum), ReadsBack d →
      (render d).length + (renderItems ds).length ≤ steps →
      items? steps read (render d ++ (renderItems ds ++ rest)) =
        some (read.reverse ++ d :: ds, rest) := by
  -- Each round moves one item to those read, so the induction is for every list of these.
  induction ds with
  | nil =>
    intro d steps read hd hsteps
    rw [renderItems, List.length_singleton] at hsteps
    obtain ⟨steps, rfl⟩ := Nat.exists_eq_succ_of_ne_zero (n := steps) (by omega)
    rw [items?, hd steps _ (by omega) (ends_renderItems [])]
    simp (disch := decide) only [renderItems, List.cons_append, List.nil_append, skip_cons,
      List.reverse_cons]
  | cons e ds ih =>
    intro d steps read hd hsteps
    rw [renderItems, List.length_cons, List.length_append] at hsteps
    obtain ⟨steps, rfl⟩ := Nat.exists_eq_succ_of_ne_zero (n := steps) (by omega)
    obtain ⟨he, hds⟩ := List.forall_mem_cons.mp hds
    rw [items?, hd steps _ (by omega) (ends_renderItems (e :: ds))]
    simp (disch := decide) only [renderItems, List.cons_append, skip_cons]
    rw [List.append_assoc, ih hds (d :: read) he (by omega), List.reverse_cons, List.append_assoc]
    rfl

theorem setField_of_notMem {name : String} {d : Datum} {read : List (String × Datum)}
    (h : name ∉ read.map Prod.fst) : setField name d read = read ++ [(name, d)] := by
  induction read with
  | nil => rfl
  | cons f fs ih =>
    simp only [List.map_cons, List.mem_cons, not_or] at h
    rw [setField, if_neg (by simpa using Ne.symm h.1), ih h.2, List.cons_append]

theorem notMem_of_nodup {f : String × Datum} {read fs : List (String × Datum)}
    (h : ((read ++ f :: fs).map Prod.fst).Nodup) : f.1 ∉ read.map Prod.fst := by
  rw [List.map_append, List.map_cons] at h
  exact fun hmem => (List.nodup_append.mp h).2.2 _ hmem _ List.mem_cons_self rfl

/-- One field is read, and the character behind it says whether another follows. -/
theorem fields?_succ {f : String × Datum} {read : List (String × Datum)} {steps : Nat}
    (hf : ReadsBack f.2) (hsteps : (render f.2).length ≤ steps)
    (hnew : f.1 ∉ read.map Prod.fst) :
    fields? (steps + 1) read (quoted f.1 ++ ':' :: (render f.2 ++ ',' :: rest)) =
        fields? steps (read ++ [f]) rest ∧
      fields? (steps + 1) read (quoted f.1 ++ ':' :: (render f.2 ++ '\x7d' :: rest)) =
        some (read ++ [f], rest) := by
  obtain ⟨name, d⟩ := f
  have hcomma := hf steps (',' :: rest) hsteps (ends_cons (by decide))
  have hbrace := hf steps ('\x7d' :: rest) hsteps (ends_cons (by decide))
  constructor
  all_goals
    rw [fields?, quoted_append, skip_cons (by rfl)]
    simp (disch := decide) only [string?_quoted, skip_cons]
    simp (disch := decide) only [hcomma, hbrace, setField_of_notMem hnew, skip_cons]

/-- Fields that are read back one by one are read back in their order, behind those read
before, when no name comes twice. -/
theorem fields?_render {fs : List (String × Datum)} (hfs : ∀ g ∈ fs, ReadsBack g.2) :
    ∀ {f : String × Datum} {steps : Nat} (read : List (String × Datum)), ReadsBack f.2 →
      ((read ++ f :: fs).map Prod.fst).Nodup →
      (render f.2).length + (renderFields fs).length ≤ steps →
      fields? steps read (quoted f.1 ++ ':' :: (render f.2 ++ (renderFields fs ++ rest))) =
        some (read ++ f :: fs, rest) := by
  induction fs with
  | nil =>
    intro f steps read hf hnames hsteps
    rw [renderFields, List.length_singleton] at hsteps
    obtain ⟨steps, rfl⟩ := Nat.exists_eq_add_one_of_ne_zero (n := steps) (by omega)
    rw [renderFields, List.singleton_append,
      (fields?_succ hf (by omega) (notMem_of_nodup hnames)).2]
  | cons g fs ih =>
    intro f steps read hf hnames hsteps
    rw [renderFields, List.length_cons, List.length_append, List.length_cons,
      List.length_append] at hsteps
    obtain ⟨steps, rfl⟩ := Nat.exists_eq_add_one_of_ne_zero (n := steps) (by omega)
    obtain ⟨hg, hfs⟩ := List.forall_mem_cons.mp hfs
    have hnames' : (((read ++ [f]) ++ g :: fs).map Prod.fst).Nodup := by simpa using hnames
    rw [renderFields, List.cons_append, List.append_assoc, List.cons_append, List.append_assoc,
      (fields?_succ hf (by omega) (notMem_of_nodup hnames)).1,
      ih hfs (read ++ [f]) hg hnames' (by omega), List.append_assoc, List.singleton_append]

/-- A datum is read back wherever it is written. -/
theorem readsBack {d : Datum} (hd : d.Plain) : ReadsBack d := by
  induction hd with
  | null => exact readsBack_of_succ .null fun _ _ _ _ => rfl
  | bool b => exact readsBack_of_succ (.bool b) fun _ _ _ _ => by cases b <;> rfl
  | natural n => exact readsBack_natural n
  | text s =>
    refine readsBack_of_succ (.text s) fun steps rest _ _ => ?_
    rw [value?, render, quoted_append, skip_cons (by rfl)]
    simp only [string?_quoted, Option.map_some]
  | @list items hitems ih =>
    refine readsBack_of_succ (.list hitems) fun steps rest hsteps _ => ?_
    cases items with
    | nil => rfl
    | cons d ds =>
      obtain ⟨hd, hds⟩ := List.forall_mem_cons.mp ih
      obtain ⟨c, cs, hc, hblank, hclose⟩ := exists_render_eq_cons (hitems d List.mem_cons_self)
      rw [render, List.length_cons, List.length_append] at hsteps
      have hread : items? steps [] (render d ++ (renderItems ds ++ rest)) = some (d :: ds, rest) :=
        items?_render hds [] hd (by omega)
      rw [value?, render, List.cons_append, skip_cons (by rfl), List.append_assoc]
      simp only [skip_render (hitems d List.mem_cons_self)]
      -- The first item does not begin with a bracket that would close an empty list.
      rw [hc, List.cons_append] at hread ⊢
      split
      · next h => exact absurd (List.cons.inj h).1 hclose
      · rw [hread]; rfl
  | @record fields hnames hfields ih =>
    refine readsBack_of_succ (.record hnames hfields) fun steps rest hsteps _ => ?_
    cases fields with
    | nil => rfl
    | cons f fs =>
      obtain ⟨hf, hfs⟩ := List.forall_mem_cons.mp ih
      rw [render, List.length_cons, List.length_append, List.length_cons,
        List.length_append] at hsteps
      have hread :
          fields? steps [] (quoted f.1 ++ ':' :: (render f.2 ++ (renderFields fs ++ rest))) =
            some (f :: fs, rest) := fields?_render hfs [] hf hnames (by omega)
      rw [value?, render, List.cons_append, skip_cons (by rfl), List.append_assoc,
        List.cons_append, List.append_assoc]
      simp (disch := decide) only [quoted_append, skip_cons] at hread ⊢
      split
      · next h => exact absurd (List.cons.inj h).1 (by decide)
      · rw [hread]; rfl

/-- A line is read as the datum that it writes. -/
theorem read?_line {d : Datum} (hd : d.Plain) : read? (line d) = some d := by
  have hread := readsBack hd (2 * (render d).length + 2) [] (by omega) (by simp [Ends])
  rw [List.append_nil] at hread
  simp [read?, line, hread, skip]

/-- Two data that are written alike are one. -/
theorem eq_of_line_eq {d e : Datum} (hd : d.Plain) (he : e.Plain) (h : line d = line e) :
    d = e := by
  have hread := read?_line hd
  rw [h, read?_line he] at hread
  exact (Option.some.inj hread).symm

end Values

/-! ## Control characters -/

/-- No control character is in the text. -/
def Unbroken (cs : List Char) : Prop := ∀ c ∈ cs, 0x20 ≤ c.toNat

section Unbroken

@[simp] theorem unbroken_nil : Unbroken [] := List.forall_mem_nil _

@[simp] theorem unbroken_cons {c : Char} {cs : List Char} :
    Unbroken (c :: cs) ↔ 0x20 ≤ c.toNat ∧ Unbroken cs := List.forall_mem_cons

@[simp] theorem unbroken_append {cs ds : List Char} :
    Unbroken (cs ++ ds) ↔ Unbroken cs ∧ Unbroken ds := List.forall_mem_append

theorem toNat_hexDigit : ∀ n < 16, 0x20 ≤ (hexDigit n).toNat := by decide

theorem unbroken_escape (c : Char) : Unbroken (escape c) := by
  unfold escape
  iterate 7
    split
    · simp
  split
  · have hhigh := toNat_hexDigit (c.toNat / 16) (by omega)
    have hlow := toNat_hexDigit (c.toNat % 16) (by omega)
    simp [hhigh, hlow]
  · next h => simpa using h

theorem unbroken_quoted (s : String) : Unbroken (quoted s) := by
  have hbody : Unbroken (s.toList.flatMap escape) := by
    intro x hx
    obtain ⟨c, -, hc⟩ := List.mem_flatMap.mp hx
    exact unbroken_escape c x hc
  simp [quoted, hbody]

theorem unbroken_toString (n : Nat) : Unbroken (toString n).toList := by
  intro c hc
  have hdigit := isDigit_of_mem_toString hc
  simp only [Char.isDigit, Bool.and_eq_true, decide_eq_true_eq, ge_iff_le,
    UInt32.le_iff_toNat_le] at hdigit
  exact Nat.le_trans (by decide) hdigit.1

theorem unbroken_renderItems {ds : List Datum} (hds : ∀ d ∈ ds, Unbroken (render d)) :
    Unbroken (renderItems ds) := by
  induction ds with
  | nil => simp [renderItems]
  | cons d ds ih =>
    obtain ⟨hd, hds⟩ := List.forall_mem_cons.mp hds
    simp [renderItems, hd, ih hds]

theorem unbroken_renderFields {fs : List (String × Datum)}
    (hfs : ∀ f ∈ fs, Unbroken (render f.2)) : Unbroken (renderFields fs) := by
  induction fs with
  | nil => simp [renderFields]
  | cons f fs ih =>
    obtain ⟨hf, hfs⟩ := List.forall_mem_cons.mp hfs
    simp [renderFields, unbroken_quoted, hf, ih hfs]

/-- A written datum holds no control character, so it stays on its line. -/
theorem unbroken_render {d : Datum} (hd : d.Plain) : Unbroken (render d) := by
  induction hd with
  | null => simp [render]
  | bool b => cases b <;> simp [render]
  | natural n => rw [render]; exact unbroken_toString n
  | text s => rw [render]; exact unbroken_quoted s
  | @list items _ ih =>
    cases items with
    | nil => simp [render]
    | cons d ds =>
      obtain ⟨hd, hds⟩ := List.forall_mem_cons.mp ih
      simp [render, hd, unbroken_renderItems hds]
  | @record fields _ _ ih =>
    cases fields with
    | nil => simp [render]
    | cons f fs =>
      obtain ⟨hf, hfs⟩ := List.forall_mem_cons.mp ih
      simp [render, unbroken_quoted, hf, unbroken_renderFields hfs]

end Unbroken

end Json
end Recognizer
