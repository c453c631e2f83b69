import Recognizer.Proofs.Program

/-!
# Layout

Rules look at the kinds and the texts of lexemes, never at their places. States that
differ in places alone are answered alike by every rule and stay alike, so what a
parser says about a source depends on its significant kinds and texts.
-/
namespace Recognizer

/-- A kind with its bytes, wherever they stand. -/
abbrev Piece := Kind × Bytes

/-- A lexeme without its place. -/
def Lexeme.piece (x : Lexeme) : Piece := (x.kind, x.text)

namespace Grammar

/-- Tests do not look at places. -/
theorem Test.holds_congr {u v : List Lexeme} (h : u.map Lexeme.piece = v.map Lexeme.piece)
    (q : Test) (table : SymbolTable) : q.holds table u = q.holds table v := by
  cases u with
  | nil =>
    obtain rfl : v = [] := List.map_eq_nil_iff.1 h.symm
    rfl
  | cons x u =>
    obtain ⟨y, v, rfl, hx, -⟩ := List.map_eq_cons_iff.1 h.symm
    have hkind : y.kind = x.kind := congrArg Prod.fst hx
    have htext : y.text = x.text := congrArg Prod.snd hx
    induction q with
    | kind | oneOf | word | known => simp only [Test.holds, hkind, htext]
    | finish => rfl
    | negate q ih => simp only [Test.holds, ih]
    | both q r ihq ihr => simp only [Test.holds, ihq, ihr]

/-- The states differ only in the places of their lexemes and of a refused call. -/
structure State.Alike (s t : State) : Prop where
  pieces : s.rest.map Lexeme.piece = t.rest.map Lexeme.piece
  table : s.table = t.table
  overflow : s.overflow.isSome = t.overflow.isSome

namespace State.Alike

variable {s t u : State}

theorem symm (h : s.Alike t) : t.Alike s := ⟨h.pieces.symm, h.table.symm, h.overflow.symm⟩

theorem trans (h : s.Alike t) (h' : t.Alike u) : s.Alike u :=
  ⟨h.pieces.trans h'.pieces, h.table.trans h'.table, h.overflow.trans h'.overflow⟩

theorem length_eq (h : s.Alike t) : s.rest.length = t.rest.length := by
  simpa using congrArg List.length h.pieces

theorem passes (h : s.Alike t) (q : Test) : s.passes q = t.passes q := by
  rw [State.passes, State.passes, h.table]
  exact Test.holds_congr h.pieces q t.table

theorem advance (h : s.Alike t) : s.advance.Alike t.advance :=
  ⟨by simpa [List.map_tail] using congrArg List.tail h.pieces, h.table, h.overflow⟩

theorem identifier? (h : s.Alike t) : s.identifier? = t.identifier? := by
  have hpieces := h.pieces
  unfold State.identifier?
  cases hs : s.rest with
  | nil =>
    rw [hs] at hpieces
    rw [List.map_eq_nil_iff.1 hpieces.symm]
  | cons x u =>
    rw [hs] at hpieces
    obtain ⟨y, v, ht, hx, -⟩ := List.map_eq_cons_iff.1 hpieces.symm
    have hkind : y.kind = x.kind := congrArg Prod.fst hx
    have htext : y.text = x.text := congrArg Prod.snd hx
    simp only [ht, hkind, htext]

theorem declare (h : s.Alike t) (name : Bytes) (k : Symbol.Kind) :
    (s.declare name k).Alike (t.declare name k) :=
  ⟨h.pieces, congrArg (SymbolTable.declare · name k) h.table, h.overflow⟩

theorem refuse (h : s.Alike t) : s.refuse.Alike t.refuse :=
  ⟨h.pieces, h.table, by simp [State.refuse]⟩

/-- Lexemes are given back to both states. -/
theorem restore {u v : State} (h : s.Alike t) (hrest : u.Alike v) :
    State.Alike { s with rest := u.rest } { t with rest := v.rest } :=
  ⟨hrest.pieces, h.table, h.overflow⟩

theorem setTable {a b : SymbolTable} (h : s.Alike t) (hab : a = b) :
    State.Alike { s with table := a } { t with table := b } :=
  ⟨h.pieces, hab, h.overflow⟩

end State.Alike

/-- The answers are equal and the states are alike. -/
def Agree (x y : Bool × State) : Prop := x.1 = y.1 ∧ x.2.Alike y.2

/-- The step does not look at places. -/
def Step.Blind (f : Step) : Prop := ∀ ⦃s t : State⦄, s.Alike t → Agree (f s) (f t)

namespace Step.Blind

variable {f g h : Step}

/-- The answers of a blind step, with the alike states that it leads to. -/
theorem cases (hf : f.Blind) {s t : State} (hst : s.Alike t) :
    ∃ b s' t', f s = (b, s') ∧ f t = (b, t') ∧ s'.Alike t' := by
  obtain ⟨hb, hs⟩ := hf hst
  exact ⟨(f s).1, (f s).2, (f t).2, rfl, Prod.ext hb.symm rfl, hs⟩

theorem branch (hf : f.Blind) (hg : g.Blind) (hh : h.Blind) : (Step.branch f g h).Blind := by
  intro s t hst
  obtain ⟨b, s', t', hs, ht, hst'⟩ := hf.cases hst
  cases b with
  | true => simpa only [Step.branch, hs, ht] using hg hst'
  | false => simpa only [Step.branch, hs, ht] using hh hst'

theorem attempt (hf : f.Blind) : (Step.attempt f).Blind := by
  intro s t hst
  obtain ⟨b, s', t', hs, ht, hst'⟩ := hf.cases hst
  cases b with
  | true => simpa only [Step.attempt, hs, ht] using ⟨rfl, hst'⟩
  | false => simpa only [Step.attempt, hs, ht] using ⟨rfl, hst'.restore hst⟩

theorem enclosed (hf : f.Blind) : (Step.enclosed f).Blind := by
  intro s t hst
  obtain ⟨b, s', t', hs, ht, hst'⟩ := hf.cases (hst.setTable (congrArg SymbolTable.push hst.table))
  simpa only [Step.enclosed, hs, ht] using
    ⟨rfl, hst'.setTable (congrArg SymbolTable.close hst'.table)⟩

/-- Clocks of one length tick alike. -/
theorem loop {q : Test} (hf : f.Blind) {c d : List Lexeme} (hcd : c.length = d.length)
    {s t : State} (hst : s.Alike t) : Agree (Step.loop q f c s) (Step.loop q f d t) := by
  induction c generalizing d s t with
  | nil =>
    obtain rfl : d = [] := List.length_eq_zero_iff.1 hcd.symm
    cases hq : t.passes q with
    | true => simpa only [Step.loop, hst.passes q, hq] using ⟨rfl, (hf hst).2⟩
    | false => simpa only [Step.loop, hst.passes q, hq] using ⟨rfl, hst⟩
  | cons x c ih =>
    obtain ⟨y, d, rfl⟩ := List.exists_cons_of_length_eq_add_one hcd.symm
    cases hq : t.passes q with
    | false => simpa only [Step.loop, hst.passes q, hq] using ⟨rfl, hst⟩
    | true =>
      obtain ⟨b, s', t', hs, ht, hst'⟩ := hf.cases hst
      cases b with
      | true =>
        simpa only [Step.loop, hst.passes q, hq, hs, ht, if_true] using ih (Nat.succ.inj hcd) hst'
      | false => simpa only [Step.loop, hst.passes q, hq, hs, ht] using ⟨rfl, hst'⟩

end Step.Blind

/-- A rule does not look at places when its calls do not. -/
theorem Rule.blind_exec {callee : Guarded → Step} (hc : ∀ g, (callee g).Blind) (r : Rule) :
    Step.Blind (r.exec callee) := by
  induction r with
  | accept | reject => exact fun _ _ hst => ⟨rfl, hst⟩
  | peek q => exact fun _ _ hst => ⟨hst.passes q, hst⟩
  | take q =>
    intro s t hst
    cases hq : t.passes q with
    | true => simpa only [Rule.exec, hst.passes q, hq] using ⟨rfl, hst.advance⟩
    | false => simpa only [Rule.exec, hst.passes q, hq] using ⟨rfl, hst⟩
  | branch first yes no ihf ihy ihn => exact ihf.branch ihy ihn
  | attempt r ih => exact ih.attempt
  | loop q r ih => exact fun _ _ hst => ih.loop hst.length_eq hst
  | declare k next ih =>
    intro s t hst
    cases hn : t.identifier? with
    | some name =>
      simpa only [Rule.exec, hst.identifier?, hn] using ih name (hst.declare name k).advance
    | none => simpa only [Rule.exec, hst.identifier?, hn] using ⟨rfl, hst⟩
  | enclosed r ih => exact ih.enclosed
  | call g => exact hc g

/-- The depth guard does not look at places. -/
theorem blind_enter (body : Guarded → Rule) (room : Nat) (g : Guarded) :
    (enter body room g).Blind := by
  induction room generalizing g with
  | zero => exact fun _ _ hst => ⟨rfl, hst.refuse⟩
  | succ room ih =>
    intro s t hst
    have hoverflow := hst.overflow
    cases hs : s.overflow with
    | none =>
      have ht : t.overflow = none := by simpa [hs] using hoverflow
      simpa only [enter, hs, ht] using Rule.blind_exec ih (body g) hst
    | some o =>
      obtain ⟨o', ht⟩ : ∃ o', t.overflow = some o' := by
        simpa [hs, Option.isSome_iff_exists] using hoverflow.symm
      simpa only [enter, hs, ht] using ⟨rfl, hst⟩

/-- No rule of the grammar looks at places. -/
theorem blind_perform (prefs : GrammarPreferences) (room : Nat) (r : Rule) :
    (perform prefs room r).Blind := Rule.blind_exec (blind_enter _ room) r

end Grammar

open Grammar

namespace Parser

/-- Where a parser stops, it has consumed some of the lexemes of its source. -/
theorem rest_parseProgram_suffix (p : Parser) :
    p.parseProgram.2.state.rest <:+ Lexeme.significant p.source := by
  rw [p.state_parseProgram]
  exact (runs_perform p.preferences p.limits.maxDepth productive_declarations p.start).suffix

/-- Parsers of sources with the same significant kinds and texts start and end alike. -/
theorem alike_parseProgram {p q : Parser} (hlimits : p.limits = q.limits)
    (hprefs : p.preferences = q.preferences)
    (hsource : (Lexeme.significant p.source).map Lexeme.piece =
      (Lexeme.significant q.source).map Lexeme.piece) :
    p.parseProgram.2.state.Alike q.parseProgram.2.state := by
  have hstart : p.start.Alike q.start := ⟨hsource, rfl, rfl⟩
  rw [p.state_parseProgram, q.state_parseProgram, hlimits, hprefs]
  exact (blind_perform _ _ _ hstart).2

/-- A program is accepted where its declarations end at the end of the source with the
depth guard silent. -/
theorem answer_parseProgram_eq (p : Parser) :
    p.parseProgram.1 = (p.parseProgram.2.isExhausted && !p.parseProgram.2.depthExceeded) := by
  rw [answer_parseProgram, isExhausted, depthExceeded, state_parseProgram]
  simp

/-- Parsers of sources with the same significant kinds and texts, under the same limits
and preferences, give the same answer about them. They stop behind the same number of
lexemes with the same names declared, and the depth guard fires for both or for neither. -/
theorem parseProgram_layout_independent {p q : Parser} (hlimits : p.limits = q.limits)
    (hprefs : p.preferences = q.preferences)
    (hsource : (Lexeme.significant p.source).map Lexeme.piece =
      (Lexeme.significant q.source).map Lexeme.piece) :
    p.parseProgram.1 = q.parseProgram.1 ∧
    p.parseProgram.2.depthExceeded = q.parseProgram.2.depthExceeded ∧
    (∃ k ≤ (Lexeme.significant p.source).length,
      p.parseProgram.2.state.rest = (Lexeme.significant p.source).drop k ∧
      q.parseProgram.2.state.rest = (Lexeme.significant q.source).drop k) ∧
    p.parseProgram.2.table = q.parseProgram.2.table := by
  have halike := alike_parseProgram hlimits hprefs hsource
  have hdepth : p.parseProgram.2.depthExceeded = q.parseProgram.2.depthExceeded :=
    halike.overflow
  have hlength := halike.length_eq
  have hends : p.parseProgram.2.isExhausted = q.parseProgram.2.isExhausted :=
    halike.passes .finish
  refine ⟨?_, hdepth, ?_, halike.table⟩
  · rw [answer_parseProgram_eq, answer_parseProgram_eq, hends, hdepth]
  · have hsizes : (Lexeme.significant p.source).length = (Lexeme.significant q.source).length := by
      simpa using congrArg List.length hsource
    refine ⟨(Lexeme.significant p.source).length - p.parseProgram.2.state.rest.length,
      Nat.sub_le _ _, ?_, ?_⟩
    · exact List.suffix_iff_eq_drop.1 p.rest_parseProgram_suffix
    · rw [hsizes, hlength]
      exact List.suffix_iff_eq_drop.1 q.rest_parseProgram_suffix

/-- A template, which is tried as a structure first, and a structure, on one line. -/
def dense : Parser := .new .development {}
  (Bytes.ofAscii "template<typename T>struct s<T>;struct s\x7bT x;\x7d;".toList)

/-- The same with blanks, line feeds and a comment. -/
def spread : Parser :=
  .new .development {} (Bytes.ofAscii
    "template <typename\tT>\n struct s < T >; // ;\n\tstruct s \x7b\n  T x ;\n\x7d ;\n".toList)

theorem parseProgram_layout_independent_spread :
    spread.source ≠ dense.source ∧ dense.parseProgram.1 = true ∧
    spread.parseProgram.1 = dense.parseProgram.1 ∧
    spread.parseProgram.2.table = dense.parseProgram.2.table := by
  have hsource : (Lexeme.significant spread.source).map Lexeme.piece =
      (Lexeme.significant dense.source).map Lexeme.piece := by decide +kernel
  have h := parseProgram_layout_independent (p := spread) (q := dense)
    (by simp [spread, dense, new]) (by simp [spread, dense, new]) hsource
  refine ⟨?_, ?_, h.1, h.2.2.2⟩
  · decide +kernel
  · decide +kernel

end Parser
end Recognizer
