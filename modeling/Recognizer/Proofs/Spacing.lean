import Mathlib.Data.List.Chain
import Recognizer.Proofs.Segmentation

/-!
# Writing lexemes apart

Pieces that are written one behind the other are read back when each has the form of its kind
and is not continued by the first byte of the next. A blank continues no significant piece and
is continued by nothing, so lexemes of any sources may be written with blanks between them, and
every lexeme may be written alone.
-/
namespace Recognizer

theorem Kind.Form.ne_nil {k : Kind} {text : Bytes} (h : k.Form text) : text ≠ [] := by
  rintro rfl
  cases k with
  | invalid =>
    obtain ⟨b, hb, -⟩ := h
    cases hb
  | identifier =>
    obtain ⟨b, bs, hb, -⟩ := h
    cases hb
  | integer => exact h.1 rfl
  | real =>
    obtain ⟨whole, fraction, htext, -⟩ := h
    simp at htext
  | comment =>
    obtain ⟨line, hline, -⟩ := h
    cases hline
  | _ =>
    obtain ⟨w, hw, htext⟩ := h
    cases hw
    cases htext

namespace Piece

variable {p q : Piece} {ps : List Piece}

/-- The second piece does not continue the first. -/
def Apart (p q : Piece) : Prop := ∀ b ∈ q.2.head?, p.1.stopsBefore b = true

instance : DecidableRel Apart := fun _ _ => inferInstanceAs (Decidable (∀ _ ∈ _, _))

/-- The pieces have the forms of their kinds, and none of them continues the one before. -/
structure Separate (ps : List Piece) : Prop where
  form : ∀ p ∈ ps, p.1.Form p.2
  apart : ps.IsChain Apart

/-- Pieces that are written one behind the other are read back. -/
theorem Separate.scans (h : Separate ps) (offset : Nat) :
    ∃ xs, Lexeme.Scans offset (ps.flatMap Prod.snd) xs ∧ xs.map Lexeme.piece = ps := by
  induction ps generalizing offset with
  | nil => exact ⟨[], .nil, rfl⟩
  | cons p ps ih =>
    obtain ⟨hform, hforms⟩ := List.forall_mem_cons.1 h.form
    obtain ⟨hnext, hchain⟩ := List.isChain_cons.1 h.apart
    have hstops : ∀ b ∈ (ps.flatMap Prod.snd).head?, p.1.stopsBefore b = true := by
      cases ps with
      | nil => simp
      | cons q ps =>
        have hne : q.2 ≠ [] := (hforms q List.mem_cons_self).ne_nil
        rw [List.flatMap_cons, List.head?_append_of_ne_nil _ hne]
        exact hnext q rfl
    obtain ⟨xs, hxs, hpieces⟩ := ih ⟨hforms, hchain⟩ (offset + p.2.length)
    refine ⟨⟨p.1, offset, p.2⟩ :: xs, ?_, by rw [List.map_cons, hpieces]; rfl⟩
    rw [List.flatMap_cons]
    exact .cons (Lexeme.next?_of_fits ⟨hform, hstops⟩ hform.ne_nil offset) hxs

/-- The significant ones of pieces that are written one behind the other are read back. -/
theorem Separate.significant (h : Separate ps) :
    (Lexeme.significant (ps.flatMap Prod.snd)).map Lexeme.piece =
      ps.filter (·.1.isSignificant) := by
  obtain ⟨xs, hxs, hpieces⟩ := h.scans 0
  have hscan : Lexeme.scanFrom (ps.flatMap Prod.snd) 0 = xs := hxs.scan_eq
  rw [Lexeme.significant, Lexeme.significantFrom, hscan, Lexeme.map_piece_filter, hpieces]

/-- The pieces of a text. -/
def ofText (text : Bytes) : List Piece := (Lexeme.scan text).map Lexeme.piece

theorem separate_ofText (text : Bytes) : Separate (ofText text) := by
  have hscans := Lexeme.Scans.scan text
  rw [ofText]
  generalize Lexeme.scan text = xs at hscans
  generalize 0 = offset at hscans
  induction hscans with
  | nil => exact ⟨by simp, .nil⟩
  | cons hx hrest ih =>
    have hfits := Lexeme.fits_of_next? hx
    refine ⟨List.forall_mem_cons.2 ⟨hfits.form, ih.form⟩, List.isChain_cons.2 ⟨?_, ih.apart⟩⟩
    intro q hq b hb
    refine hfits.stops b ?_
    cases hrest with
    | nil => simp at hq
    | cons hy _ =>
      obtain ⟨-, hne, rfl⟩ := Lexeme.next?_eq_some hy
      obtain rfl := Option.some.inj hq
      rwa [List.head?_append_of_ne_nil _ hne]

theorem flatMap_ofText (text : Bytes) : (ofText text).flatMap Prod.snd = text := by
  rw [ofText, List.flatMap_map]
  exact (Lexeme.Scans.scan text).flatMap_text

/-- The second text does not continue the first. -/
def Joins (u v : Bytes) : Prop := ∀ p ∈ (ofText u).getLast?, ∀ q ∈ (ofText v).head?, Apart p q

instance : DecidableRel Joins := fun _ _ => inferInstanceAs (Decidable (∀ _ ∈ _, _))

/-- Texts none of which continues the one before it are read one by one. -/
theorem significant_flatten {us : List Bytes} (hne : ∀ u ∈ us, u ≠ []) (h : us.IsChain Joins) :
    (Lexeme.significant us.flatten).map Lexeme.piece =
      us.flatMap fun u => (Lexeme.significant u).map Lexeme.piece := by
  have hnil : [] ∉ us.map ofText := by
    intro hmem
    obtain ⟨u, hu, hpieces⟩ := List.mem_map.1 hmem
    have htext := flatMap_ofText u
    rw [hpieces] at htext
    exact hne u hu htext.symm
  have hseparate : Separate (us.flatMap ofText) := by
    refine ⟨fun p hp => ?_, ?_⟩
    · obtain ⟨u, -, hp⟩ := List.mem_flatMap.1 hp
      exact (separate_ofText u).form p hp
    · rw [List.flatMap_def, List.isChain_flatten hnil]
      refine ⟨fun ps hps => ?_, ?_⟩
      · obtain ⟨u, -, rfl⟩ := List.mem_map.1 hps
        exact (separate_ofText u).apart
      · rwa [List.isChain_map]
  have htext : (us.flatMap ofText).flatMap Prod.snd = us.flatten := by
    rw [List.flatMap_assoc, List.flatten_eq_flatMap]
    exact List.flatMap_congr fun u _ => flatMap_ofText u
  have hread := hseparate.significant
  rw [htext, List.filter_flatMap] at hread
  rw [hread]
  exact List.flatMap_congr fun u _ => (Lexeme.map_piece_filter _).symm

end Piece

/-- The blanks: the space, the tab and the line feed. -/
def Bytes.blanks : Bytes := [32, 9, 10]

theorem Bytes.mem_blanks {b : UInt8} : b ∈ blanks ↔ b = 32 ∨ b = 9 ∨ b = 10 := by
  simp [blanks]

/-- The texts with a separator between any two, as long as there are separators. -/
def Bytes.joined : List Bytes → List Bytes → Bytes
  | sep :: seps, text :: next :: texts => text ++ sep ++ joined seps (next :: texts)
  | _, texts => texts.flatten

/-- Enough copies of one separator are written between all texts. -/
theorem Bytes.joined_replicate (sep : Bytes) {n : Nat} (texts : List Bytes)
    (hn : texts.length ≤ n + 1) : joined (List.replicate n sep) texts = sep.intercalate texts := by
  induction n generalizing texts with
  | zero =>
    match texts, hn with
    | [], _ => rfl
    | [text], _ => simp [joined]
  | succ n ih =>
    match texts, hn with
    | [], _ => rfl
    | [text], _ => simp [joined]
    | text :: next :: texts, hn =>
      have hn : (next :: texts).length ≤ n + 1 := Nat.le_of_succ_le_succ hn
      rw [List.replicate_succ, joined, ih _ hn, List.intercalate_cons_cons]

namespace Piece

variable {p q : Piece} {ps qs : List Piece} {sep : Bytes} {seps : List Bytes} {b : UInt8}

/-- The blank as a piece. -/
def blank (b : UInt8) : Piece := (Lexeme.single b, [b])

theorem form_blank (hb : b ∈ Bytes.blanks) : (blank b).1.Form (blank b).2 := by
  rcases Bytes.mem_blanks.1 hb with rfl | rfl | rfl <;> exact ⟨_, rfl, rfl⟩

theorem not_isSignificant_blank (hb : b ∈ Bytes.blanks) : (blank b).1.isSignificant = false := by
  rcases Bytes.mem_blanks.1 hb with rfl | rfl | rfl <;> rfl

/-- Nothing continues a blank. -/
theorem apart_of_blank (hb : b ∈ Bytes.blanks) (q : Piece) : Apart (blank b) q := by
  rcases Bytes.mem_blanks.1 hb with rfl | rfl | rfl <;> exact fun _ _ => rfl

/-- A blank continues no significant piece. -/
theorem apart_blank (hp : p.1.isSignificant = true) (hb : b ∈ Bytes.blanks) :
    Apart p (blank b) := by
  have hall (k : Kind) (hk : k.isSignificant = true) : k.stopsBefore b = true := by
    rcases Bytes.mem_blanks.1 hb with rfl | rfl | rfl <;> cases k <;> first | rfl | cases hk
  intro c hc
  obtain rfl : b = c := Option.some.inj hc
  exact hall p.1 hp

/-- The pieces with blanks between any two. -/
def spaced : List Bytes → List Piece → List Piece
  | sep :: seps, p :: q :: ps => p :: (sep.map blank ++ spaced seps (q :: ps))
  | _, ps => ps

theorem flatMap_blank (sep : Bytes) : (sep.map blank).flatMap Prod.snd = sep := by
  induction sep with
  | nil => rfl
  | cons b sep ih => rw [List.map_cons, List.flatMap_cons, ih]; rfl

theorem flatMap_spaced (seps : List Bytes) (ps : List Piece) :
    (spaced seps ps).flatMap Prod.snd = Bytes.joined seps (ps.map Prod.snd) := by
  induction seps generalizing ps with
  | nil => simp [spaced, Bytes.joined, List.flatMap_def]
  | cons sep seps ih =>
    match ps with
    | [] => rfl
    | [p] => rfl
    | p :: q :: ps =>
      have hrest := ih (q :: ps)
      rw [List.map_cons] at hrest
      simp [spaced, Bytes.joined, flatMap_blank, hrest]

/-- Blanks before separate pieces are separate from them. -/
theorem Separate.blanks (h : Separate ps) (hsep : ∀ b ∈ sep, b ∈ Bytes.blanks) :
    Separate (sep.map blank ++ ps) := by
  induction sep with
  | nil => exact h
  | cons b sep ih =>
    obtain ⟨hb, hsep⟩ := List.forall_mem_cons.1 hsep
    obtain ⟨hform, hchain⟩ := ih hsep
    exact ⟨List.forall_mem_cons.2 ⟨form_blank hb, hform⟩,
      List.isChain_cons.2 ⟨fun q _ => apart_of_blank hb q, hchain⟩⟩

/-- What a separator has to be. -/
def Separator (sep : Bytes) : Prop := sep ≠ [] ∧ ∀ b ∈ sep, b ∈ Bytes.blanks

/-- Significant pieces with blanks between any two are separate. -/
theorem separate_spaced (hps : ∀ p ∈ ps, p.1.isSignificant = true ∧ p.1.Form p.2)
    (hseps : ∀ sep ∈ seps, Separator sep) (hlength : ps.length ≤ seps.length + 1) :
    Separate (spaced seps ps) := by
  induction seps generalizing ps with
  | nil =>
    match ps, hlength with
    | [], _ => exact ⟨by simp [spaced], .nil⟩
    | [p], _ => exact ⟨fun q hq => (hps q hq).2, .singleton p⟩
  | cons sep seps ih =>
    match ps, hlength with
    | [], _ => exact ⟨by simp [spaced], .nil⟩
    | [p], _ => exact ⟨fun q hq => (hps q hq).2, .singleton p⟩
    | p :: q :: ps, hlength =>
      obtain ⟨hp, hps⟩ := List.forall_mem_cons.1 hps
      obtain ⟨⟨hne, hsep⟩, hseps⟩ := List.forall_mem_cons.1 hseps
      obtain ⟨hform, hchain⟩ := (ih hps hseps (Nat.le_of_succ_le_succ hlength)).blanks hsep
      refine ⟨List.forall_mem_cons.2 ⟨hp.2, hform⟩, List.isChain_cons.2 ⟨?_, hchain⟩⟩
      obtain ⟨b, sep, rfl⟩ := List.exists_cons_of_ne_nil hne
      rintro r hr
      obtain rfl : blank b = r := Option.some.inj hr
      exact apart_blank hp.1 (hsep b List.mem_cons_self)

/-- Separators are not significant. -/
theorem filter_spaced (hps : ∀ p ∈ ps, p.1.isSignificant = true)
    (hseps : ∀ sep ∈ seps, Separator sep) : (spaced seps ps).filter (·.1.isSignificant) = ps := by
  induction seps generalizing ps with
  | nil => exact List.filter_eq_self.2 hps
  | cons sep seps ih =>
    match ps with
    | [] => rfl
    | [p] => exact List.filter_eq_self.2 hps
    | p :: q :: ps =>
      obtain ⟨hp, hps⟩ := List.forall_mem_cons.1 hps
      obtain ⟨⟨-, hsep⟩, hseps⟩ := List.forall_mem_cons.1 hseps
      have hblanks : (sep.map blank).filter (·.1.isSignificant) = [] := by
        simpa [List.filter_eq_nil_iff] using fun b hb => not_isSignificant_blank (hsep b hb)
      have hrest := ih hps hseps
      simp only [spaced, List.filter_cons, hp, if_true, List.filter_append, hblanks, hrest,
        List.nil_append]

end Piece

namespace Lexeme

/-- A lexeme is read back from its text. -/
theorem scan_text {source : Bytes} {offset : Nat} {x : Lexeme} (h : x ∈ scanFrom source offset) :
    scan x.text = [⟨x.kind, 0, x.text⟩] := by
  have hform := (fits_of_mem h).1
  have hfits : Fits x.kind x.text [] := ⟨hform, by simp⟩
  have hnext := next?_of_fits hfits hform.ne_nil 0
  rw [List.append_nil] at hnext
  exact (Scans.cons hnext .nil).scan_eq

/-- Lexemes of any sources are read back when they are written with blanks between them. -/
theorem significant_joined {xs : List Lexeme} {seps : List Bytes}
    (hxs : ∀ x ∈ xs, ∃ source offset, x ∈ significantFrom source offset)
    (hseps : ∀ sep ∈ seps, Piece.Separator sep) (hlength : xs.length ≤ seps.length + 1) :
    (significant (Bytes.joined seps (xs.map text))).map piece = xs.map piece := by
  have hps : ∀ p ∈ xs.map piece, p.1.isSignificant = true ∧ p.1.Form p.2 := by
    intro p hp
    obtain ⟨x, hx, rfl⟩ := List.mem_map.1 hp
    obtain ⟨source, offset, hmem⟩ := hxs x hx
    obtain ⟨hscan, hsignificant⟩ := List.mem_filter.1 hmem
    exact ⟨hsignificant, (fits_of_mem hscan).1⟩
  have hseparate := Piece.separate_spaced hps hseps (by rwa [List.length_map])
  have hread := hseparate.significant
  rwa [Piece.flatMap_spaced, Piece.filter_spaced (fun p hp => (hps p hp).1) hseps,
    List.map_map] at hread

end Lexeme

namespace Cursor

/-- Writing lexemes and reading them is the identity on kinds and texts. Every lexeme is read
back from its text alone. Significant lexemes, each of any source, are read back when their
texts are written with blanks between them, at least one between any two. So a source whose
significant texts are written with single spaces between them keeps its significant kinds and
texts. -/
theorem written_lexemes_read_back :
    (∀ (source : Bytes) (offset : Nat), ∀ x ∈ (openAt [] source offset).toList,
      (openAt [] x.text 0).toList = [⟨x.kind, 0, x.text⟩]) ∧
    (∀ (xs : List Lexeme) (seps : List Bytes),
      (∀ x ∈ xs, ∃ source offset,
        x ∈ (openAt [Lexeme.isSignificant] source offset).toList) →
      (∀ sep ∈ seps, sep ≠ [] ∧ ∀ b ∈ sep, b ∈ Bytes.blanks) → xs.length ≤ seps.length + 1 →
      (openAt [Lexeme.isSignificant] (Bytes.joined seps (xs.map Lexeme.text)) 0).toList.map
        Lexeme.piece = xs.map Lexeme.piece) ∧
    ∀ source : Bytes, let xs := (openAt [Lexeme.isSignificant] source 0).toList
      (openAt [Lexeme.isSignificant] ([32].intercalate (xs.map Lexeme.text)) 0).toList.map
        Lexeme.piece = xs.map Lexeme.piece := by
  have hsignificant (source : Bytes) (offset : Nat) :
      (openAt [Lexeme.isSignificant] source offset).toList =
        Lexeme.significantFrom source offset := by
    rw [toList_openAt, visible_isSignificant]
  simp only [toList_openAt_nil, hsignificant]
  refine ⟨fun source offset x hx => ?_, fun xs seps hxs hseps hlength => ?_, fun source => ?_⟩
  · exact Lexeme.scan_text hx
  · exact Lexeme.significant_joined hxs hseps hlength
  · generalize hxs : Lexeme.significantFrom source 0 = xs
    have hspaces : (xs.map Lexeme.text).length ≤ xs.length + 1 := by simp
    rw [← Bytes.joined_replicate [32] _ hspaces]
    refine Lexeme.significant_joined (fun x hx => ⟨source, 0, hxs ▸ hx⟩) ?_ (by simp)
    intro sep hsep
    rw [List.eq_of_mem_replicate hsep]
    exact ⟨by simp, by simp [Bytes.blanks]⟩

/-- The lexemes of a few characters. -/
def lexemesOf (text : String) : List Lexeme :=
  (openAt [Lexeme.isSignificant] (Bytes.ofAscii text.toList) 0).toList

/-- Lexemes of two sources that would join without the blanks. -/
theorem written_lexemes_read_back_operators :
    let xs := lexemesOf "1. /<" ++ lexemesOf "=/2&"
    let text := Bytes.ofAscii "1. /\n< \t=\t/ 2\n\n&".toList
    (openAt [] (Bytes.ofAscii ['1', '.']) 0).toList =
        [⟨.real, 0, Bytes.ofAscii ['1', '.']⟩] ∧
      xs.map Lexeme.kind = [.real, .slash, .less, .equals, .slash, .integer, .ampersand] ∧
      (openAt [Lexeme.isSignificant] text 0).toList.map Lexeme.piece = xs.map Lexeme.piece := by
  intro xs text
  have hreal := written_lexemes_read_back.1 (Bytes.ofAscii "1. /<".toList) 0
    ⟨.real, 0, Bytes.ofAscii ['1', '.']⟩ (by decide +kernel)
  have hxs : ∀ x ∈ xs, ∃ source offset,
      x ∈ (openAt [Lexeme.isSignificant] source offset).toList := fun x hx =>
    (List.mem_append.1 hx).elim (fun h => ⟨_, 0, h⟩) fun h => ⟨_, 0, h⟩
  exact ⟨hreal, by decide +kernel, written_lexemes_read_back.2.1 xs
    [[32], [10], [32, 9], [9], [32], [10, 10]] hxs (by decide +kernel) (by decide +kernel)⟩

end Cursor
end Recognizer
