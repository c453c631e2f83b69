import Recognizer.Parser
import Recognizer.Proofs.Runs

/-!
# Parsers and programs as runs

What a parser answers is the answer of a run. A program is accepted when the run
of its declarations ends at the end of the source with the depth guard silent,
and its declarations are all accepted when that run accepts.
-/
namespace Recognizer

open Grammar

variable {prefs : GrammarPreferences}

/-- Running a rule under the preferences gives its run. -/
theorem Grammar.perform_eq_iff {n : Nat} {r : Rule} (hr : r.Meets .productive) {s t : State}
    {b : Bool} : perform prefs n r s = (b, t) ↔ FullRuns (body prefs) n r s b t :=
  run_eq_iff consumes_body productive_body hr

/-- Running a rule under the preferences is a run. -/
theorem Grammar.runs_perform (prefs : GrammarPreferences) (n : Nat) {r : Rule}
    (hr : r.Meets .productive) (s : State) :
    FullRuns (body prefs) n r s (perform prefs n r s).1 (perform prefs n r s).2 :=
  (perform_eq_iff hr).1 rfl

theorem Grammar.productive_declarations : declarations.Meets .productive := by
  simp [declarations, declaration]

namespace Parser

@[simp] theorem answer_apply (p : Parser) (r : Rule) :
    (p.apply r).1 = (perform p.preferences p.room r p.state).1 := rfl

@[simp] theorem state_apply (p : Parser) (r : Rule) :
    (p.apply r).2.state = (perform p.preferences p.room r p.state).2 := by
  simp [apply, run]

/-- The guard is silent as long as no call is on record. -/
theorem depthExceeded_eq_false_iff {p : Parser} :
    p.depthExceeded = false ↔ p.state.overflow = none := by
  simp [depthExceeded]

/-- The parser before other lexemes. -/
def reading (p : Parser) (ts : List Lexeme) : Parser :=
  { p with state := { p.state with rest := ts } }

/-- The rule accepts all of the lexemes, which leads to the parser `q` without the
depth guard firing. -/
def ReadsFully (p : Parser) (r : Rule) (ts : List Lexeme) (q : Parser) : Prop :=
  (p.reading ts).apply r = (true, q) ∧ q.state.rest = [] ∧ q.depthExceeded = false

theorem readsFully_snd {p : Parser} {r : Rule} {ts : List Lexeme}
    (h : ((p.reading ts).apply r).1 = true ∧ ((p.reading ts).apply r).2.state.rest = [] ∧
      ((p.reading ts).apply r).2.depthExceeded = false) :
    p.ReadsFully r ts ((p.reading ts).apply r).2 := ⟨Prod.ext h.1 rfl, h.2⟩

/-- Running a rule changes neither the preferences nor the room. -/
theorem apply_eq {p q : Parser} {r : Rule} {b : Bool} (h : p.apply r = (b, q)) :
    q.preferences = p.preferences ∧ q.room = p.room := by
  simp only [apply, run, Prod.mk.injEq] at h
  obtain ⟨-, rfl⟩ := h
  unfold adopt room
  split <;> exact ⟨rfl, rfl⟩

/-- What a rule reads is a run. -/
theorem runs_apply {p q : Parser} {r : Rule} {b : Bool} (hr : r.Meets .productive)
    (h : p.apply r = (b, q)) :
    FullRuns (body p.preferences) p.room r p.state b q.state := by
  have hrun := runs_perform p.preferences p.room hr p.state
  rw [← answer_apply, ← state_apply, h] at hrun
  exact hrun

/-- The state in which the declarations of the source are read. -/
def start (p : Parser) : State where
  rest := Lexeme.significant p.source
  size := p.state.size
  table := .fresh
  overflow := none

/-- Whether all declarations of the source are accepted, up to its end. -/
def acceptsDeclarations (p : Parser) : Bool :=
  (perform p.preferences p.limits.maxDepth declarations p.start).1

/-- A parser ends in the state in which the declarations of its source end. -/
theorem state_parseProgram (p : Parser) : p.parseProgram.2.state =
    (perform p.preferences p.limits.maxDepth declarations p.start).2 := by
  simp [parseProgram, run, program, start, restore, Lexeme.significant, room]

/-- The answer about a program, from the state in which its declarations end. -/
theorem answer_parseProgram (p : Parser) :
    p.parseProgram.1 =
      ((perform p.preferences p.limits.maxDepth declarations p.start).2.rest.isEmpty &&
        (perform p.preferences p.limits.maxDepth declarations p.start).2.overflow.isNone) := by
  simp [parseProgram, run, program, start, restore, depthExceeded, Lexeme.significant, room]

end Parser
end Recognizer
