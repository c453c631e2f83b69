import Recognizer.Proofs.Layout
import Recognizer.Recognition

/-!
# The verdict on a source

What is said about a source follows from the state in which its declarations end: whether
the depth guard has refused a call by then, and which lexeme comes next.
-/
namespace Recognizer

open Grammar

namespace Recognition

/-- What is said about a source whose declarations end in the state given. -/
def verdict (limits : Limits) (source : Bytes) (s : State) : Except RecognitionError Unit :=
  let position := (LineMap.ofSource source).positionAt s.position
  if s.overflow.isSome then .error (.tooDeep s.position position limits.maxDepth)
  else if s.rest.isEmpty then .ok ()
  else .error (.rejected s.position position (found s.rest.head?))

/-- A source is judged by the state in which its declarations end. -/
theorem result_eq_verdict (limits : Limits) (prefs : GrammarPreferences) (source : Bytes) :
    (ofSource limits prefs source).result =
      verdict limits source (Parser.new limits prefs source).parseProgram.2.state := by
  have hanswer := Parser.answer_parseProgram_eq (Parser.new limits prefs source)
  rw [ofSource]
  generalize (Parser.new limits prefs source).parseProgram = outcome at hanswer
  obtain ⟨accepted, p⟩ := outcome
  simp only [Parser.isExhausted, Parser.depthExceeded] at hanswer
  subst hanswer
  by_cases hdeep : p.state.overflow.isSome = true
  · simp [verdict, Parser.position, Parser.depthExceeded, hdeep]
  · by_cases hend : p.state.rest.isEmpty = true
    · simp [verdict, hdeep, hend]
    · simp [verdict, Parser.position, Parser.depthExceeded, Parser.current?, hdeep, hend]

variable {limits : Limits} {prefs : GrammarPreferences} {source : Bytes} {s : State}

/-- A source is accepted when its program is. -/
theorem result_eq_ok_iff : (ofSource limits prefs source).result = .ok () ↔
    (Parser.new limits prefs source).parseProgram.1 = true := by
  rw [ofSource]
  split
  rename_i accepted p hp
  rw [hp]
  cases accepted with
  | true => simp
  | false => by_cases hdeep : p.depthExceeded = true <;> simp [hdeep]

/-- Nesting is said to be too deep exactly when a call was refused. -/
theorem verdict_eq_tooDeep_iff :
    (∃ offset position depth, verdict limits source s =
      .error (.tooDeep offset position depth)) ↔ s.overflow.isSome = true := by
  by_cases hdeep : s.overflow.isSome = true
  · simp [verdict, hdeep]
  · by_cases hend : s.rest = [] <;> simp [verdict, hdeep, hend]

/-- The limits do not matter where no call was refused. -/
theorem verdict_of_silent (h : s.overflow = none) (limits limits' : Limits) :
    verdict limits source s = verdict limits' source s := by
  simp [verdict, h]

end Recognition
end Recognizer
