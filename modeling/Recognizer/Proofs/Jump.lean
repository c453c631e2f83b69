import Recognizer.Proofs.Leniency

/-!
# Jumps

Jumps are read where the preferences allow them, as the last form of a control statement.
Constructions are tried before, and `goto name ;` is a construction of the type `goto`. So
no program is accepted for its jumps: preferences that agree on initializations agree on
every source.
-/
namespace Recognizer

namespace Grammar

/-- Where the bodies of the productions can be exchanged in runs in which no call is refused,
so can the runs of all rules. -/
theorem Runs.exchange {body body' : Guarded → Rule}
    (hbody : ∀ ⦃n g s b t⦄, FullRuns body' n (body g) s b t → t.overflow = none →
      FullRuns body' n (body' g) s b t)
    {n : Nat} {r : Rule} {s t : State} {b : Bool} (h : FullRuns body n r s b t)
    (ht : t.overflow = none) : FullRuns body' n r s b t := by
  induction h with
  | accept => exact .accept
  | reject => exact .reject
  | peek hs hp => exact .peek hs hp
  | take hs hp => exact .take hs hp
  | miss hs hp => exact .miss hs hp
  | yes _ hy ihf ihy => exact .yes (ihf (hy.overflow_eq_none ht)) (ihy ht)
  | no _ hn ihf ihn => exact .no (ihf (hn.overflow_eq_none ht)) (ihn ht)
  | keep _ ih => exact .keep (ih ht)
  | restore _ ih => exact .restore (ih ht)
  | done hs hp => exact .done hs hp
  | again hs hp _ hl ihb ihl => exact .again hs hp (ihb (hl.overflow_eq_none ht)) (ihl ht)
  | stop hs hp _ ih => exact .stop hs hp (ih ht)
  | declare hs _ ih => exact .declare hs (ih ht)
  | nameless hs hn => exact .nameless hs hn
  | enclosed _ ih => exact .enclosed (ih ht)
  | call hs _ ih => exact .call hs (hbody (ih ht) ht)
  | refuse hs => exact .refuse hs
  | refused hs => exact .refused hs

variable {prefs p q : GrammarPreferences} {n : Nat} {r x x' : Rule} {s t m : State} {b : Bool}

/-- Reads a jump where jumps are allowed. -/
def jump (prefs : GrammarPreferences) : Rule :=
  if prefs.allowGoto then .when (.keyword .goto) gotoStatement .reject else .reject

/-- A jump is read as a construction, of the type `goto`. -/
theorem construction_of_gotoStatement (h : FullRuns (body prefs) n gotoStatement s true t)
    (hc : FullRuns (body prefs) n (construction q) s b m) (hm : m.overflow = none) :
    b = true := by
  obtain ⟨m₁, hgoto, h⟩ := h.of_andThen
  obtain ⟨m₂, hname, hend⟩ := h.of_andThen
  obtain ⟨g, hg, hword, rfl⟩ := hgoto.taken_keyword
  obtain ⟨a, ha, hka, rfl⟩ := hname.taken
  obtain ⟨z, hz, hkz, -⟩ := hend.taken
  have hconst : ¬ g.Is .const := hword.not_is (by decide)
  have hs : s.rest = g :: a :: z :: t.rest := by rw [hg, ha, hz]
  obtain ⟨n, rfl⟩ := Nat.exists_eq_add_of_le' (hc.one_le_of_andThen hm)
  have hexpr : FullRuns (body prefs) (n + 1) expression s true s.advance :=
    .of_name hs hword.1 hconst hka (hc.overflow_eq_none hm)
  have hsemicolon : s.advance.advance.passes (.kind .semicolon) = true := by
    simp [State.passes, hs, Test.holds, hkz]
  have hvalue : FullRuns (body prefs) (n + 1)
      (.orElse (.peek (.kind .semicolon)) (initialization q)) s.advance.advance true
      s.advance.advance := .yes (.peek (fun _ => trivial) hsemicolon) .accept
  exact (hc.unique (.yes hexpr (.yes hname (.yes hvalue hend)))).1

/-- A jump that is not read only moves forward. -/
theorem restore_of_gotoStatement (h : FullRuns (body prefs) n gotoStatement s false m) :
    { m with rest := s.rest } = s := by
  rcases h.rejected_andThen with hgoto | ⟨m₁, hgoto, h⟩
  · cases hgoto
    rfl
  rcases h.rejected_andThen with hname | ⟨m₂, hname, hend⟩
  · cases hgoto
    cases hname
    rfl
  · cases hgoto
    cases hname
    cases hend
    rfl

section NoJump

variable (hno : ∀ u, ¬ FullRuns (body prefs) n gotoStatement s true u)
include hno

theorem eq_of_attempt_jump (h : FullRuns (body prefs) n (.attempt (jump p)) s b m) :
    b = false ∧ m = s := by
  unfold jump at h
  split at h
  · cases h with
    | keep h =>
      rcases h.of_when with ⟨-, hgoto⟩ | ⟨-, hreject⟩
      · exact absurd hgoto (hno _)
      · cases hreject
    | restore h =>
      rcases h.of_when with ⟨-, hgoto⟩ | ⟨-, hreject⟩
      · exact ⟨rfl, restore_of_gotoStatement hgoto⟩
      · cases hreject
        exact ⟨rfl, rfl⟩
  · cases h with
    | keep h => cases h
    | restore h =>
      cases h
      exact ⟨rfl, rfl⟩

/-- Where no jump can be read, it does not matter whether jumps are allowed. -/
theorem attempt_jump_iff :
    FullRuns (body prefs) n (.attempt (jump p)) s b m ↔ b = false ∧ m = s := by
  refine ⟨eq_of_attempt_jump hno, ?_⟩
  rintro ⟨rfl, rfl⟩
  have hproductive : (Rule.attempt (jump p)).Meets .productive := by
    unfold jump
    split <;> simp [gotoStatement]
  have hrun := runs_perform prefs n hproductive m
  obtain ⟨hb, hm⟩ := eq_of_attempt_jump hno hrun
  rwa [hb, hm] at hrun

end NoJump

/-- An attempt of the first rule from the state goes as an attempt of the second one. -/
def Replaces (prefs : GrammarPreferences) (n : Nat) (s : State) (x x' : Rule) : Prop :=
  ∀ ⦃b m⦄, FullRuns (body prefs) n (.attempt x) s b m →
    FullRuns (body prefs) n (.attempt x') s b m

namespace Replaces

/-- Only the alternative of a test is replaced. -/
theorem when {c : Test} (hx : Replaces prefs n s x x') :
    Replaces prefs n s (.when c r x) (.when c r x') := by
  intro b m h
  cases h with
  | keep h =>
    rcases h.of_when with ⟨hp, h⟩ | ⟨hp, h⟩
    · exact .keep (.yes (.peek (fun _ => trivial) hp) h)
    · cases hx (.keep h) with
      | keep h => exact .keep (.no (.peek (fun _ => trivial) hp) h)
  | @restore _ _ _ t h =>
    rcases h.of_when with ⟨hp, h⟩ | ⟨hp, h⟩
    · exact .restore (.yes (.peek (fun _ => trivial) hp) h)
    · have hnext := hx (.restore h)
      generalize { t with rest := s.rest } = m at hnext ⊢
      cases hnext with
      | restore h => exact .restore (.no (.peek (fun _ => trivial) hp) h)

variable (hno : ∀ u, ¬ FullRuns (body prefs) n gotoStatement s true u)
include hno

theorem jump : Replaces prefs n s (Grammar.jump p) (Grammar.jump q) :=
  fun _ _ h => (attempt_jump_iff hno).2 ((attempt_jump_iff hno).1 h)

/-- Jumps are the last of the control statements, and the others do not look at the
preferences. -/
theorem control : Replaces prefs n s (Grammar.control p) (Grammar.control q) :=
  when <| when <| when <| when <| when <| when <| when <| jump hno

end Replaces

/-- An alternative that is tried later can be exchanged. -/
theorem orElse_attempt (hx : ∀ ⦃s⦄, FullRuns (body prefs) n x s b t →
      FullRuns (body prefs) n x' s b t)
    (h : FullRuns (body prefs) n ((Rule.attempt r).orElse x) s b t) :
    FullRuns (body prefs) n ((Rule.attempt r).orElse x') s b t := by
  cases h with
  | yes hf hacc => exact .yes hf hacc
  | no hf hn => exact .no hf (hx hn)

/-- A construction, or else a control statement, is read in the same way with jumps allowed
and without. -/
theorem constructionOr_exchange (ht : t.overflow = none)
    (h : FullRuns (body prefs) n ((Rule.attempt (construction q)).orElse
      ((Rule.attempt (control p)).orElse typeDefinition)) s b t) :
    FullRuns (body prefs) n ((Rule.attempt (construction q)).orElse
      ((Rule.attempt (control q)).orElse typeDefinition)) s b t := by
  cases h with
  | yes hf hacc => exact .yes hf hacc
  | no hf hn =>
    -- the control statement is tried from where the rejected construction was tried
    have hm := hn.overflow_eq_none ht
    have hsame := hf.eq_of_restore steady_construction hm
    refine .no hf ?_
    rw [hsame] at hn ⊢
    have hno (u : State) : ¬ FullRuns (body prefs) n gotoStatement s true u := by
      intro hgoto
      cases hf with
      | restore hf => cases construction_of_gotoStatement hgoto hf hm
    cases hn with
    | yes hc hacc => exact .yes (Replaces.control hno hc) hacc
    | no hc hn => exact .no (Replaces.control hno hc) hn

theorem statementBody_exchange (hpq : p.rejectInitialization = q.rejectInitialization)
    (ht : t.overflow = none) (h : FullRuns (body prefs) n (statementBody p) s b t) :
    FullRuns (body prefs) n (statementBody q) s b t := by
  have hconstruction : construction p = construction q := by
    simp only [construction, initialization, hpq]
  cases h with
  | yes hf hy => exact .yes hf hy
  | no hf hn =>
    refine .no hf (orElse_attempt (fun m h => orElse_attempt (fun m h => ?_) h) hn)
    have hforms : FullRuns (body prefs) n ((Rule.attempt (construction p)).orElse
      ((Rule.attempt (control p)).orElse typeDefinition)) m b t := h
    rw [hconstruction] at hforms
    exact constructionOr_exchange ht hforms

/-- Runs in which no call is refused are the same under preferences that agree on
initializations. -/
theorem Runs.exchange_prefs (hpq : p.rejectInitialization = q.rejectInitialization)
    (h : FullRuns (body p) n r s b t) (ht : t.overflow = none) : FullRuns (body q) n r s b t := by
  refine h.exchange (fun n g s b t h ht => ?_) ht
  cases g with
  | expression | declaration | templateArguments => exact h
  | statement => exact statementBody_exchange hpq ht h

end Grammar

open Grammar

namespace Parser

variable (limits : Limits) {p q : GrammarPreferences} (source : Bytes)

/-- Where no call is refused, a program ends in the same state under preferences that agree
on initializations. -/
theorem state_exchange (hpq : p.rejectInitialization = q.rejectInitialization)
    (h : (new limits p source).parseProgram.2.depthExceeded = false) :
    (new limits q source).parseProgram.2.state = (new limits p source).parseProgram.2.state := by
  rw [depthExceeded_eq_false_iff] at h
  have hrun := runs_perform p limits.maxDepth productive_declarations (new limits p source).start
  rw [state_parseProgram] at h ⊢
  rw [state_parseProgram]
  exact congrArg Prod.snd ((perform_eq_iff productive_declarations).2 (hrun.exchange_prefs hpq h))

/-- The guard refuses a call under both preferences or under none. -/
theorem depthExceeded_exchange (hpq : p.rejectInitialization = q.rejectInitialization) :
    (new limits p source).parseProgram.2.depthExceeded =
      (new limits q source).parseProgram.2.depthExceeded := by
  cases hp : (new limits p source).parseProgram.2.depthExceeded with
  | false => rw [depthExceeded, state_exchange limits source hpq hp, ← depthExceeded, hp]
  | true =>
    cases hq : (new limits q source).parseProgram.2.depthExceeded with
    | false =>
      rw [depthExceeded, state_exchange limits source hpq.symm hq, ← depthExceeded, hq] at hp
      cases hp
    | true => rfl

end Parser

namespace Recognition

/-- The answer about a source depends on the preferences through initializations alone, and
so does the error that is reported unless the depth guard refuses a call. -/
theorem result_eq_of_rejectInitialization (limits : Limits) {p q : GrammarPreferences}
    (hpq : p.rejectInitialization = q.rejectInitialization) (source : Bytes) :
    ((ofSource limits p source).result = .ok () ↔ (ofSource limits q source).result = .ok ()) ∧
    (Parser.new limits p source).parseProgram.2.depthExceeded =
      (Parser.new limits q source).parseProgram.2.depthExceeded ∧
    ((Parser.new limits p source).parseProgram.2.depthExceeded = false →
      (ofSource limits p source).result = (ofSource limits q source).result) := by
  have hdepth := Parser.depthExceeded_exchange limits source hpq
  have hsame (h : (Parser.new limits p source).parseProgram.2.depthExceeded = false) :
      (ofSource limits p source).result = (ofSource limits q source).result := by
    rw [result_eq_verdict, result_eq_verdict, Parser.state_exchange limits source hpq h]
  refine ⟨?_, hdepth, hsame⟩
  cases h : (Parser.new limits p source).parseProgram.2.depthExceeded with
  | false => rw [hsame h]
  | true =>
    -- a refused call rejects the program under both preferences
    rw [h] at hdepth
    simp [result_eq_ok_iff, Parser.answer_parseProgram_eq, h, ← hdepth]

/-- A jump in a procedure of a source that declares the name `goto`, another one that a
condition guards, and one to no label. -/
def jumping : Bytes := Bytes.ofAscii
  "struct goto; void f() \x7b again: goto again; if (a) goto out; goto 5; \x7d".toList

theorem result_eq_of_rejectInitialization_jumping :
    (ofSource .development { allowGoto := true } jumping).result =
      (ofSource .development { logRejections := false } jumping).result ∧
    (ofSource .development { allowGoto := true } jumping).result ≠ .ok () := by
  have h := result_eq_of_rejectInitialization .development (p := { allowGoto := true })
    (q := { logRejections := false }) rfl jumping
  refine ⟨h.2.2 (by decide +kernel), ?_⟩
  rw [ne_eq, result_eq_ok_iff]
  decide +kernel

end Recognition
end Recognizer
