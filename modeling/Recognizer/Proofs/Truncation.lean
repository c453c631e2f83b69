import Recognizer.Proofs.DeclarationMending
import Recognizer.Proofs.Rescan

/-!
# Truncated programs

A program is accepted when its declarations end at the end of the source, even if the
last one is rejected there. Such a source was cut short: some text behind it makes a
program all of whose declarations are accepted.
-/
namespace Recognizer

open Grammar

/-- The pieces that complete declarations are read back as they are written. -/
theorem Piece.scannable_of_mem_fillers : ∀ p ∈ fillers, p.Scannable := by
  decide

namespace Grammar

variable {prefs : GrammarPreferences} {n : Nat}

/-- Declarations that were cut short can be completed up to the end. -/
theorem mends_declarations (hn : 2 ≤ n) : Mends prefs Piece.Scannable
    (fun w => (Piece.name w).Scannable) n declarations (· = []) := by
  refine .loop (mends_declaration Piece.scannable_of_mem_fillers (fun _ => id) (by decide) hn)
    (.of_closing (closing_declaration prefs n fun _ => True)) fun table v hv => ?_
  rw [hv]
  rfl

end Grammar

namespace Parser

/-- Some pieces behind the lexemes of an accepted source complete its declarations. -/
theorem exists_pieces {p : Parser} (hroom : 2 ≤ p.limits.maxDepth) (h : p.parseProgram.1 = true) :
    ∃ ps : List Piece, (∀ piece ∈ ps, piece.Scannable) ∧ ∀ e, e.map Lexeme.piece = ps →
      Leaves p.preferences p.limits.maxDepth declarations (p.start.extend e) [] := by
  obtain ⟨hend, ho⟩ : (perform p.preferences p.limits.maxDepth declarations p.start).2.rest = [] ∧
      (perform p.preferences p.limits.maxDepth declarations p.start).2.overflow = none := by
    simpa [answer_parseProgram] using h
  by_cases hs : p.start.rest = []
  · refine ⟨[], by simp, fun e he => ?_⟩
    obtain rfl := List.map_eq_nil_iff.1 he
    have hdone : (p.start.extend []).passes (.negate .finish) = false := by
      simp [State.passes, Test.holds, hs]
    exact ⟨_, .done (fun _ => trivial) hdone, by simp [hs], rfl⟩
  · have hlive : p.start.Live fun w => (Piece.name w).Scannable :=
      ⟨hs, fun x hx hk => Piece.scannable_of_mem hx hk⟩
    obtain ⟨ps, hps, hleaves⟩ := mends_declarations hroom
      (runs_perform p.preferences p.limits.maxDepth productive_declarations p.start) hlive hend ho
    exact ⟨ps, hps, fun e he => by simpa using hleaves he rfl⟩

/-- Declarations that are all accepted make a program, wherever their lexemes stand. -/
theorem accepts_of_leaves {q : Parser} {s : State} (hs : s.Alike q.start)
    (h : Leaves q.preferences q.limits.maxDepth declarations s []) :
    q.parseProgram.1 = true ∧ q.acceptsDeclarations = true := by
  obtain ⟨t, hrun, ht, ho⟩ := h
  have hagree := blind_perform q.preferences q.limits.maxDepth declarations hs
  rw [(perform_eq_iff productive_declarations).2 hrun] at hagree
  obtain ⟨hanswer, hend⟩ := hagree
  have hrest := hend.length_eq
  have hoverflow := hend.overflow
  simp only [ht, ho, List.length_nil, Option.isSome_none] at hrest hoverflow
  refine ⟨?_, hanswer.symm⟩
  rw [answer_parseProgram, Bool.and_eq_true, List.isEmpty_iff_length_eq_zero]
  exact ⟨hrest.symm, by simpa using hoverflow.symm⟩

variable {limits : Limits} {prefs : GrammarPreferences} {source : Bytes}

/-- What a parser accepts is cut short at most: some text behind it makes a program all of
whose declarations are accepted, and whose lexemes begin with those of the source. Every
build leaves room for the two nested calls. -/
theorem parseProgram_truncated (hroom : 2 ≤ limits.maxDepth)
    (h : (new limits prefs source).parseProgram.1 = true) :
    ∃ e : Bytes, (new limits prefs (source ++ e)).parseProgram.1 = true ∧
      (new limits prefs (source ++ e)).acceptsDeclarations = true ∧
      Lexeme.significant source <+: Lexeme.significant (source ++ e) := by
  obtain ⟨ps, hps, hleaves⟩ := exists_pieces hroom h
  obtain ⟨e, he, hpieces⟩ := Piece.significant_lines source hps
  -- the lexemes of the longer source, but for their places
  have halike : ((new limits prefs source).start.extend e).Alike
      (new limits prefs (source ++ Piece.lines ps)).start :=
    ⟨congrArg (List.map Lexeme.piece) he.symm, rfl, rfl⟩
  obtain ⟨haccepts, hdeclarations⟩ := accepts_of_leaves halike (hleaves e hpieces)
  exact ⟨Piece.lines ps, haccepts, hdeclarations, he ▸ List.prefix_append _ _⟩

/-- A procedure whose body was cut short inside a type definition. -/
def unfinished : Bytes := Bytes.ofAscii "int main() \x7b l: typedef list(".toList

theorem parseProgram_truncated_unfinished :
    (new .development {} unfinished).acceptsDeclarations = false ∧
    ∃ e : Bytes, (new .development {} (unfinished ++ e)).parseProgram.1 = true ∧
      (new .development {} (unfinished ++ e)).acceptsDeclarations = true ∧
      Lexeme.significant unfinished <+: Lexeme.significant (unfinished ++ e) :=
  ⟨by decide +kernel, parseProgram_truncated (by decide) (by decide +kernel)⟩

end Parser
end Recognizer
