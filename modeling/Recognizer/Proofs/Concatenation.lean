import Recognizer.Proofs.DeclarationMending
import Recognizer.Proofs.Rescan

/-!
# Programs one behind the other

An accepted declaration asks for nothing behind it, so declarations that are all accepted
are read in the same way before more text. From one declaration to the next a parser
carries the global names and nothing else: what stands on the lines behind such a source is
read as it is read alone, with the names of the source declared.
-/
namespace Recognizer

namespace Grammar

variable {prefs : GrammarPreferences} {n : Nat} {s t u : State} {b : Bool} {v : List Lexeme}

/-- Declarations that are all accepted are read in the same way before other lexemes, and
what follows them is read from where they end. -/
theorem Runs.declarations_append (h : FullRuns (body prefs) n declarations s true t)
    (hrest : FullRuns (body prefs) n declarations (t.extend v) b u) :
    FullRuns (body prefs) n declarations (s.extend v) b u := by
  generalize ha : true = a at h
  induction h using Runs.loop_induction with
  | done s => exact hrest
  | again s m t a _ hmore hround _ ih =>
    have hne : s.rest ≠ [] := by simpa [State.passes, Test.holds] using hmore
    -- with no test allowed at the end, an accepted declaration is decided by its own lexemes
    have hopen : OpenRuns (body prefs) n declaration s true m :=
      (closing_declaration prefs n fun _ => False).isOpen hround
    have hround' := hopen.extend_of_open v
    have hmore' : (s.extend v).passes (.negate .finish) = true := by
      rw [State.passes_append hne, hmore]
    exact .again (fun _ => trivial) hmore' hround' (ih hrest ha)
  | stop => cases ha

end Grammar

open Grammar

namespace Parser

/-- The parser of a source in front of which the global names given are declared. -/
def knowing (limits : Limits) (prefs : GrammarPreferences) (globals : Scope) (source : Bytes) :
    Parser := (new limits prefs source).setTable ⟨globals, []⟩

/-- A program ends with the global scope alone. -/
theorem table_parseProgram (p : Parser) :
    p.parseProgram.2.table = ⟨p.parseProgram.2.table.globals, []⟩ := by
  have hgrows := declares_perform p.preferences p.limits.maxDepth declarations p.start
  rw [← state_parseProgram] at hgrows
  have houter : p.parseProgram.2.table.outer = [] := hgrows.outer
  generalize p.parseProgram.2.table = table at houter
  obtain ⟨innermost, outer⟩ := table
  obtain rfl : outer = [] := houter
  rfl

/-- Where all declarations of a source are accepted, they have an accepting run to the end
of its program. -/
theorem runs_of_acceptsDeclarations {p : Parser} (h : p.acceptsDeclarations = true) :
    FullRuns (body p.preferences) p.limits.maxDepth declarations p.start true
      p.parseProgram.2.state := by
  have hrun := runs_perform p.preferences p.limits.maxDepth productive_declarations p.start
  rw [acceptsDeclarations] at h
  rwa [h, ← state_parseProgram] at hrun

variable {limits : Limits} {prefs : GrammarPreferences} {a b : Bytes}

/-- Behind a source whose declarations are all accepted, another one is read as it is read
alone with the names of the first one declared. -/
theorem alike_parseProgram_newline (haccepts : (new limits prefs a).parseProgram.1 = true)
    (hall : (new limits prefs a).acceptsDeclarations = true) :
    (new limits prefs (a ++ 10 :: b)).parseProgram.2.state.Alike
      ((knowing limits prefs (new limits prefs a).parseProgram.2.table.globals b).apply
        declarations).2.state := by
  obtain ⟨e, hjoined, hpieces⟩ := Lexeme.significant_newline a b
  have hfirst := runs_of_acceptsDeclarations hall
  have htable := table_parseProgram (new limits prefs a)
  have hend := answer_parseProgram_eq (new limits prefs a)
  rw [haccepts, eq_comm] at hend
  rw [state_parseProgram, state_apply]
  generalize (new limits prefs a).parseProgram.2 = first at hfirst htable hend ⊢
  obtain ⟨hrest, hoverflow⟩ : first.state.rest = [] ∧ first.state.overflow = none := by
    simpa [isExhausted, depthExceeded] using hend
  -- the lexemes of the second source, first at their places behind the first one
  have hwhole : perform prefs limits.maxDepth declarations ((new limits prefs a).start.extend e) =
      perform prefs limits.maxDepth declarations (first.state.extend e) :=
    (perform_eq_iff productive_declarations).2
      (hfirst.declarations_append (runs_perform prefs limits.maxDepth productive_declarations _))
  have hstart : ((new limits prefs a).start.extend e).Alike
      (new limits prefs (a ++ 10 :: b)).start :=
    ⟨congrArg (List.map Lexeme.piece) hjoined.symm, rfl, rfl⟩
  have hresume : (first.state.extend e).Alike
      (knowing limits prefs first.table.globals b).state :=
    ⟨by rw [State.rest_extend, hrest]; exact hpieces, htable, by
      rw [State.overflow_extend, hoverflow]; rfl⟩
  have hjoin := (blind_perform prefs limits.maxDepth declarations hstart).2
  have halone := (blind_perform prefs limits.maxDepth declarations hresume).2
  rw [hwhole] at hjoin
  exact hjoin.symm.trans halone

/-- Programs concatenate. Let all declarations of a source be accepted. Another source on the
lines behind it makes a program exactly when its declarations, read alone with the global
names of the first one declared, end at its end with the depth guard silent. The same names
are declared in the end. -/
theorem parseProgram_newline (limits : Limits) (prefs : GrammarPreferences) (a b : Bytes)
    (haccepts : (new limits prefs a).parseProgram.1 = true)
    (hall : (new limits prefs a).acceptsDeclarations = true) :
    let globals := (new limits prefs a).parseProgram.2.table.globals
    let alone := ((knowing limits prefs globals b).apply declarations).2
    ((new limits prefs (a ++ 10 :: b)).parseProgram.1 = true ↔
      alone.isExhausted = true ∧ alone.depthExceeded = false) ∧
    (new limits prefs (a ++ 10 :: b)).parseProgram.2.table = alone.table := by
  intro globals alone
  have halike : (new limits prefs (a ++ 10 :: b)).parseProgram.2.state.Alike alone.state :=
    alike_parseProgram_newline haccepts hall
  have hend : (new limits prefs (a ++ 10 :: b)).parseProgram.2.isExhausted = alone.isExhausted :=
    halike.passes .finish
  have hdepth : (new limits prefs (a ++ 10 :: b)).parseProgram.2.depthExceeded =
      alone.depthExceeded := halike.overflow
  refine ⟨?_, halike.table⟩
  rw [answer_parseProgram_eq, hend, hdepth]
  simp

/-- A template whose last line ends in a comment. -/
def templated : Bytes := Bytes.ofAscii "template <typename T> struct list; // ;".toList

/-- A procedure that is read with the name of the template declared, and not without it. -/
def returning : Bytes := Bytes.ofAscii "list<int> empty() \x7b typedef int list; \x7d".toList

theorem parseProgram_newline_templated :
    (new .development {} templated).acceptsDeclarations = true ∧
    (new .development {} returning).parseProgram.1 = false ∧
    (new .development {} (templated ++ 10 :: returning)).parseProgram.1 = true := by
  have hall : (new .development {} templated).acceptsDeclarations = true := by decide +kernel
  have h := parseProgram_newline .development {} templated returning (by decide +kernel) hall
  exact ⟨hall, by decide +kernel, h.1.2 (by decide +kernel)⟩

end Parser
end Recognizer
