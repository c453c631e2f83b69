import Recognizer.Proofs.Outcome
import Recognizer.Proofs.Soundness

/-!
# Head-room

Where the depth guard refuses no call, nothing depends on how much room it had. A run that
ends with the guard silent is reproduced whole from any smaller depth and under any larger
limit, so raising the limit can only change the answer on a source where the guard fired.
-/
namespace Recognizer

open Grammar

namespace Grammar

/-- In more room the step does the same, unless a call was refused. -/
def Expands (f : Nat → Step) : Prop :=
  ∀ ⦃n m : Nat⦄ ⦃s : State⦄, n ≤ m → (f n s).2.overflow = none → f m s = f n s

variable (prefs : GrammarPreferences)

theorem expands_perform {r : Rule} (hr : r.Meets .productive) :
    Expands fun room => perform prefs room r := by
  intro n m s hnm hsilent
  exact (perform_eq_iff hr).2 ((runs_perform prefs n hr s).room_mono hsilent hnm)

theorem expands_program : Expands (program prefs) := by
  intro n m s hnm hsilent
  have hsame := expands_perform prefs productive_declarations hnm hsilent
  simp only [program, hsame]

end Grammar

namespace Parser

/-- The parser with so many guarded productions open. -/
def atDepth (p : Parser) (k : Nat) : Parser := { p with depth := k }

@[simp] theorem state_atDepth (p : Parser) (k : Nat) : (p.atDepth k).state = p.state := rfl
@[simp] theorem atDepth_atDepth (p : Parser) (k k' : Nat) :
    (p.atDepth k).atDepth k' = p.atDepth k' := rfl

theorem adopt_atDepth (p : Parser) (k : Nat) (s : State) :
    (p.atDepth k).adopt s = (p.adopt s).atDepth k := by
  unfold adopt
  rw [state_atDepth]
  cases p.state.overflow <;> cases s.overflow <;> rfl

section Depth

variable {f : Nat → Step} {p : Parser} {k k' : Nat}

/-- From a smaller depth the parser comes to the same answer, state and events, unless a call
was refused. -/
theorem run_atDepth (hf : Expands f) (hk : k' ≤ k)
    (h : ((p.atDepth k).run f).2.depthExceeded = false) :
    (p.atDepth k').run f = (((p.atDepth k).run f).1, ((p.atDepth k).run f).2.atDepth k') := by
  have hroom : (p.atDepth k).room ≤ (p.atDepth k').room := Nat.sub_le_sub_left hk _
  have hsilent : (f (p.atDepth k).room p.state).2.overflow = none := by
    simpa [depthExceeded, run] using h
  have hsame := hf hroom hsilent
  simp only [run, state_atDepth, hsame, adopt_atDepth, atDepth_atDepth]

end Depth

/-- Under a larger limit a program ends in the same state, unless a call was refused. -/
theorem state_parseProgram_of_le {small large : Limits} (hle : small.maxDepth ≤ large.maxDepth)
    (prefs : GrammarPreferences) (source : Bytes)
    (h : (new small prefs source).parseProgram.2.depthExceeded = false) :
    (new large prefs source).parseProgram.2.state =
      (new small prefs source).parseProgram.2.state := by
  have hsilent := depthExceeded_eq_false_iff.1 h
  rw [state_parseProgram] at hsilent ⊢
  rw [state_parseProgram]
  exact congrArg Prod.snd (expands_perform prefs productive_declarations hle hsilent)

end Parser

namespace Recognition

/-- What is said about a source is the same under a larger limit, unless the guard fired. -/
theorem result_of_le {small large : Limits} (hle : small.maxDepth ≤ large.maxDepth)
    (prefs : GrammarPreferences) (source : Bytes)
    (h : (Parser.new small prefs source).parseProgram.2.depthExceeded = false) :
    (ofSource small prefs source).result = (ofSource large prefs source).result := by
  rw [result_eq_verdict, result_eq_verdict, Parser.state_parseProgram_of_le hle prefs source h]
  exact verdict_of_silent (Parser.depthExceeded_eq_false_iff.1 h) small large

/-- A source that is accepted leaves the guard silent. -/
theorem silent_of_ok {limits : Limits} {prefs : GrammarPreferences} {source : Bytes}
    (h : (ofSource limits prefs source).result = .ok ()) :
    (Parser.new limits prefs source).parseProgram.2.depthExceeded = false := by
  rw [result_eq_ok_iff, Parser.answer_parseProgram_eq] at h
  simpa using (Bool.and_eq_true_iff.1 h).2

end Recognition

namespace Parser

/-- More head-room never changes an answer that did not hit the limit. A production or a
program that ends with the guard silent gives the same answer, state and events from every
smaller depth. A source that is accepted under a smaller limit is accepted under a larger
one, and the two limits disagree only on sources where the guard of the smaller one fires. -/
theorem headroom :
    (∀ (p : Parser) (k k' : Nat), k' ≤ k →
      (∀ P : Production,
        let x := (p.atDepth k).apply (P.rule p.preferences)
        x.2.depthExceeded = false →
          (p.atDepth k').apply (P.rule p.preferences) = (x.1, x.2.atDepth k')) ∧
      let x := (p.atDepth k).run (program p.preferences)
      x.2.depthExceeded = false →
        (p.atDepth k').run (program p.preferences) = (x.1, x.2.atDepth k')) ∧
    ∀ (small large : Limits) (prefs : GrammarPreferences) (source : Bytes),
      small.maxDepth ≤ large.maxDepth →
      ((Recognition.ofSource small prefs source).result = .ok () →
        (Recognition.ofSource large prefs source).result = .ok ()) ∧
      ((Recognition.ofSource small prefs source).result ≠
          (Recognition.ofSource large prefs source).result →
        (new small prefs source).parseProgram.2.depthExceeded = true) := by
  refine ⟨fun p k k' hk => ⟨fun P => ?_, ?_⟩, fun small large prefs source hle => ⟨?_, ?_⟩⟩
  · exact run_atDepth (expands_perform p.preferences (P.productive p.preferences)) hk
  · exact run_atDepth (expands_program p.preferences) hk
  · intro hok
    rwa [← Recognition.result_of_le hle prefs source (Recognition.silent_of_ok hok)]
  · intro hne
    cases h : (new small prefs source).parseProgram.2.depthExceeded with
    | true => rfl
    | false => exact absurd (Recognition.result_of_le hle prefs source h) hne

/-- A call within so many parentheses. -/
def parenthesized (n : Nat) : Bytes :=
  Bytes.ofAscii ("void f() \x7b g(".toList ++ List.replicate n '(' ++ "x".toList ++
    List.replicate n ')' ++ "); \x7d".toList)

/-- With 90 parentheses the procedure is read even below two open productions. As a program
it may have 92 in production builds, where with 93 the guard fires. -/
theorem headroom_parenthesized :
    (((new .production {} (parenthesized 90)).atDepth 1).apply declaration).1 = true ∧
    (Recognition.ofSource .development {} (parenthesized 92)).result = .ok () ∧
    (new .production {} (parenthesized 93)).parseProgram.2.depthExceeded = true := by
  have hdepth := (headroom.1 (new .production {} (parenthesized 90)) 2 1 (by decide)).1
    .declaration (by decide +kernel)
  have hlimits := headroom.2 .production .development {}
  have hok : (Recognition.ofSource .production {} (parenthesized 92)).result = .ok () :=
    Recognition.result_eq_ok_iff.2 (by decide +kernel)
  have hne : (Recognition.ofSource .production {} (parenthesized 93)).result ≠
      (Recognition.ofSource .development {} (parenthesized 93)).result := by
    intro h
    have hlarge : (Recognition.ofSource .development {} (parenthesized 93)).result = .ok () :=
      Recognition.result_eq_ok_iff.2 (by decide +kernel)
    exact absurd (Recognition.result_eq_ok_iff.1 (h.trans hlarge)) (by decide +kernel)
  refine ⟨?_, (hlimits (parenthesized 92) (by decide)).1 hok,
    (hlimits (parenthesized 93) (by decide)).2 hne⟩
  exact (congrArg Prod.fst hdepth).trans (by decide +kernel)

end Parser
end Recognizer
