import Recognizer.Proofs.Initialization
import Recognizer.Proofs.Outcome

/-!
# Admitting initializations

A program that is read with initializations refused is read with initializations admitted
too, and in the same way, unless an initialized construction is the start of a longer
control statement. An accepted statement ends where it ended before. A rejected one counts
only when it has used up all lexemes, since a program may end within its last declaration;
attempts that are given back on the way come out as before, or the rule that is tried next
could not have been read.
-/
namespace Recognizer

namespace Grammar

variable {prefs : GrammarPreferences} {n : Nat} {r r' q q' : Rule} {s t t' m : State}
  {b : Bool} {u v : List Lexeme} {name : Bytes}

/-- A construction at the start of the first list, which leaves the second one, is admitted
for its initialization alone. -/
def Captures (prefs : GrammarPreferences) (u v : List Lexeme) : Prop :=
  ∃ room s t, s.rest = u ∧ t.rest = v ∧
    perform prefs.lenient room (construction prefs.lenient) s = (true, t) ∧
    (perform prefs.strict room (construction prefs.strict) s).1 = false

/-- No such construction is the start of a conditional or of a loop that goes on behind it. -/
def Spared (prefs : GrammarPreferences) (u : List Lexeme) : Prop :=
  ∀ v w, v <:+ u → Captures prefs v w → ¬ Resumes v w

theorem Spared.suffix (h : Spared prefs u) (hv : v <:+ u) : Spared prefs v :=
  fun _ _ hw => h _ _ (hw.trans hv)

/-- Where one of the two words is missing, nothing can go on. -/
theorem Spared.of_free (hif : (∀ x ∈ u, ¬ x.Is .if_) ∨ ∀ x ∈ u, ¬ x.Is .else_)
    (hdo : (∀ x ∈ u, ¬ x.Is .do_) ∨ ∀ x ∈ u, ¬ x.Is .while_) : Spared prefs u := by
  rintro v w hv ⟨room, s, t, rfl, rfl, hrun, -⟩ ⟨x, hx, y, hy, hword⟩
  have hsuffix : t.rest <:+ s.rest := ((perform_eq_iff (by simp)).1 hrun).suffix
  have hxu : x ∈ u := hv.subset (List.mem_of_mem_head? hx)
  have hyu : y ∈ u := (hsuffix.trans hv).subset (List.mem_of_mem_head? hy)
  rcases hword with ⟨hxif, hyelse⟩ | ⟨hxdo, hywhile⟩
  · exact hif.elim (fun h => h x hxu hxif) fun h => h y hyu hyelse
  · exact hdo.elim (fun h => h x hxu hxdo) fun h => h y hyu hywhile

/-- The run decides whether a program is read: it is accepted or has used up all lexemes,
and no call was refused in it. Its lexemes are spared. -/
structure Decides (prefs : GrammarPreferences) (s : State) (b : Bool) (t : State) : Prop where
  overflow : t.overflow = none
  answer : b = true ∨ t.rest = []
  spared : Spared prefs s.rest

namespace Decides

variable {body : Guarded → Rule} {b' : Bool}

/-- What such a run begins with is such a run if it is accepted. -/
theorem start (h : Decides prefs s b t) (hrun : FullRuns body n r m b' t) :
    Decides prefs s true m := ⟨hrun.overflow_eq_none h.overflow, .inl rfl, h.spared⟩

/-- What such a run ends with is such a run. -/
theorem rest (h : Decides prefs s b t) (hrun : FullRuns body n r s b' m) :
    Decides prefs m b t := ⟨h.overflow, h.answer, h.spared.suffix hrun.suffix⟩

end Decides

/-- Every run of the first rule with initializations refused is a run of the second one with
initializations admitted. -/
def Agrees (prefs : GrammarPreferences) (n : Nat) (r r' : Rule) : Prop :=
  ∀ ⦃s b t⦄, FullRuns (body prefs.strict) n r s b t → FullRuns (body prefs.lenient) n r' s b t

/-- So is every run that decides. -/
def Refines (prefs : GrammarPreferences) (n : Nat) (r r' : Rule) : Prop :=
  ∀ ⦃s b t⦄, FullRuns (body prefs.strict) n r s b t → Decides prefs s b t →
    FullRuns (body prefs.lenient) n r' s b t

namespace Agrees

theorem of_straight (hr : r.Meets .straight) : Agrees prefs n r r :=
  fun _ _ _ h => h.transfer hr prefs.lenient

theorem attempt (hr : Agrees prefs n r r') : Agrees prefs n (.attempt r) (.attempt r') := by
  intro s b t h
  cases h with
  | keep h => exact .keep (hr h)
  | restore h => exact .restore (hr h)

theorem refines (hr : Agrees prefs n r r') : Refines prefs n r r' := fun _ _ _ h _ => hr h

end Agrees

namespace Refines

theorem of_straight (hr : r.Meets .straight) : Refines prefs n r r :=
  (Agrees.of_straight hr).refines

theorem of_plain (hr : r.Meets .plain) : Refines prefs n r r := of_straight hr.straight

theorem branch {first first' yes yes' no no' : Rule} (hfirst : Agrees prefs n first first')
    (hyes : Refines prefs n yes yes') (hno : Refines prefs n no no') :
    Refines prefs n (.branch first yes no) (.branch first' yes' no') := by
  intro s b t h hd
  cases h with
  | yes hf hy => exact .yes (hfirst hf) (hyes hy (hd.rest hf))
  | no hf hn => exact .no (hfirst hf) (hno hn (hd.rest hf))

theorem when {c : Test} (hr : Refines prefs n r r') (hq : Refines prefs n q q') :
    Refines prefs n (Rule.when c r q) (Rule.when c r' q') :=
  branch (.of_straight (by simp)) hr hq

theorem andThen (hr : Refines prefs n r r') (hq : Refines prefs n q q') :
    Refines prefs n (r.andThen q) (r'.andThen q') := by
  intro s b t h hd
  cases h with
  | yes hf hy => exact .yes (hr hf (hd.start hy)) (hq hy (hd.rest hf))
  | no hf hn =>
    cases hn
    exact .no (hr hf hd) .reject

theorem loop {c : Test} (hr : Refines prefs n r r') :
    Refines prefs n (.loop c r) (.loop c r') := by
  intro s b t h hd
  induction h using Runs.loop_induction with
  | done s hs hc => exact .done hs hc
  | again s m t b hs hc hround hl ih =>
    exact .again hs hc (hr hround (hd.start hl)) (ih (hd.rest hround))
  | stop s t hs hc hround => exact .stop hs hc (hr hround hd)

theorem declare {k : Symbol.Kind} {next next' : Bytes → Rule}
    (hnext : ∀ name, Refines prefs n (next name) (next' name)) :
    Refines prefs n (.declare k next) (.declare k next') := by
  intro s b t h hd
  cases h with
  | declare hname h =>
    refine .declare hname (hnext _ h ⟨hd.overflow, hd.answer, hd.spared.suffix ?_⟩)
    exact List.tail_suffix s.rest
  | nameless hs hn => exact .nameless hs hn

theorem enclosed (hr : Refines prefs n r r') :
    Refines prefs n (.enclosed r) (.enclosed r') := by
  intro s b t h hd
  cases h with
  | enclosed h => exact .enclosed (hr h ⟨hd.overflow, hd.answer, hd.spared⟩)

theorem call {g : Guarded}
    (hbody : ∀ m, m + 1 = n → Refines prefs m (body prefs.strict g) (body prefs.lenient g)) :
    Refines prefs n (.call g) (.call g) := by
  intro s b t h hd
  cases h with
  | call ho h => exact .call ho (hbody _ rfl h hd)
  | refuse => exact absurd hd.overflow s.overflow_refuse
  | refused ho => exact .refused ho

/-- An attempt is rejected in a run that decides only at the end, where it cannot stray. -/
theorem attempt (hr : Refines prefs n r r') : Refines prefs n (.attempt r) (.attempt r') := by
  intro s b t h hd
  cases h with
  | keep h => exact .keep (hr h hd)
  | @restore _ _ _ m h =>
    have hs : s.rest = [] := hd.answer.resolve_left (by simp)
    refine .restore (hr h ⟨hd.overflow, .inr ?_, hd.spared⟩)
    exact List.suffix_nil.1 (hs ▸ h.suffix)

/-- Another rule is tried after an attempt that comes out as before whenever the other one
decides. -/
theorem attemptUnless (hr : Refines prefs n r r') (hq : Refines prefs n q q')
    (hfirm : ∀ s m b t, FullRuns (body prefs.strict) n r s false m →
      FullRuns (body prefs.strict) n q { m with rest := s.rest } b t → s.rest ≠ [] →
      Decides prefs s b t → FullRuns (body prefs.lenient) n r' s false m) :
    Refines prefs n ((Rule.attempt r).orElse q) ((Rule.attempt r').orElse q') := by
  intro s b t h hd
  rcases h.of_attemptOr with ⟨rfl, hf⟩ | ⟨m, hf, hn⟩
  · exact .yes (.keep (hr hf hd)) .accept
  · have hend : m.overflow = none := hn.overflow_eq_none hd.overflow
    refine .no (.restore ?_) (hq hn ⟨hd.overflow, hd.answer, hd.spared⟩)
    by_cases hs : s.rest = []
    · exact hr hf ⟨hend, .inr (List.suffix_nil.1 (hs ▸ hf.suffix)), hd.spared⟩
    · exact hfirm s m b t hf hn hs hd

end Refines

/-! ### Statements -/

theorem straight_construction : (construction prefs).Meets .straight := by
  simp [construction, plain_expression.straight, plain_initialization.straight]

theorem steady_construction : (construction prefs).Meets .steady := by
  have hmem : construction prefs ∈ earlierForms prefs := by simp [earlierForms]
  exact earlierForms_steady hmem

/-- An initialized construction takes the place of what was read before, and ends there. -/
theorem eq_of_initialized {prefs' : GrammarPreferences}
    (hi : FullRuns (body prefs') n initialized s true t')
    (h : FullRuns (body prefs') n ((Rule.attempt (control prefs')).orElse typeDefinition) s b t)
    (ht : t.overflow = none) (hb : b = true ∨ t.rest = []) (hfree : ¬ Resumes s.rest t'.rest) :
    b = true ∧ t.rest = t'.rest ∧ t.table = s.table := by
  rcases h.of_attemptOr with ⟨rfl, hf⟩ | ⟨m, hf, hn⟩
  · exact ⟨rfl, control_of_initialized hi hf ht hfree⟩
  · obtain ⟨rfl, -⟩ := Closing.control_of_typeDefinition hf hn hb
    obtain ⟨rfl, hne⟩ := typeDefinition_of_initialized hi hn
    exact absurd (hb.resolve_left (by simp)) hne

namespace Refines

theorem controlOr (hcontrol : Refines prefs n (control prefs.strict) (control prefs.lenient)) :
    Refines prefs n ((Rule.attempt (control prefs.strict)).orElse typeDefinition)
      ((Rule.attempt (control prefs.lenient)).orElse typeDefinition) := by
  refine hcontrol.attemptUnless (of_straight (by simp [typeDefinition, plain_expression.straight]))
    fun s m b t hf hn _ hd => ?_
  obtain ⟨rfl, hstart⟩ := Closing.control_of_typeDefinition hf hn hd.answer
  exact Closing.control_rejects (fun _ _ => trivial) hstart

theorem constructionOr (hcontrol : Refines prefs n (control prefs.strict) (control prefs.lenient)) :
    Refines prefs n
      ((Rule.attempt (construction prefs.strict)).orElse
        ((Rule.attempt (control prefs.strict)).orElse typeDefinition))
      ((Rule.attempt (construction prefs.lenient)).orElse
        ((Rule.attempt (control prefs.lenient)).orElse typeDefinition)) := by
  intro s b t h hd
  have lenient {b : Bool} {m : State}
      (h : FullRuns (body prefs.strict) n (construction prefs.lenient) s b m) :
      FullRuns (body prefs.lenient) n (construction prefs.lenient) s b m :=
    h.transfer straight_construction _
  rcases h.of_attemptOr with ⟨rfl, hf⟩ | ⟨m, hf, hn⟩
  · rcases construction_lenient hf with hf | ⟨hfalse, -⟩
    · exact .yes (.keep (lenient hf)) .accept
    · cases hfalse
  have hm : m.overflow = none := hn.overflow_eq_none hd.overflow
  rcases construction_lenient hf with hf' | ⟨-, u, hu, hi, ho⟩
  · have hn' := controlOr hcontrol hn ⟨hd.overflow, hd.answer, hd.spared⟩
    exact .no (.restore (lenient hf')) hn'
  -- the construction is read only where it is admitted, and what was read before in its
  -- place ends in the same state
  · have hcaptures : Captures prefs s.rest u.rest :=
      ⟨n, s, u, rfl, rfl, (perform_eq_iff (by simp)).2 (lenient hu),
        congrArg Prod.fst ((perform_eq_iff (by simp)).2 hf)⟩
    have hsame := (Runs.restore hf).eq_of_restore steady_construction hm
    rw [hsame] at hn
    obtain ⟨rfl, hrest, htable⟩ := eq_of_initialized hi hn hd.overflow hd.answer
      (hd.spared _ _ (List.suffix_refl _) hcaptures)
    have hend : t = u := by
      have hsize : t.size = u.size := hn.size_eq.trans hu.size_eq.symm
      have htable : t.table = u.table := htable.trans (hu.table_eq steady_construction).symm
      have hover : t.overflow = u.overflow := hd.overflow.trans (ho.trans hm).symm
      cases t
      cases u
      simp_all
    exact .yes (.keep (lenient (hend ▸ hu))) .accept

section Statements

variable (hs : Refines prefs n statement statement)
include hs

theorem compound : Refines prefs n Grammar.compound Grammar.compound :=
  andThen (of_straight (by simp)) (enclosed (andThen (loop hs) (of_straight (by simp))))

theorem conditional : Refines prefs n Grammar.conditional Grammar.conditional :=
  andThen (of_straight (by simp)) <| andThen (of_plain plain_condition) <| andThen hs <|
    branch (.of_straight (by simp)) hs (of_straight (by simp))

theorem switchStatement : Refines prefs n Grammar.switchStatement Grammar.switchStatement := by
  have hcase : Refines prefs n caseClause caseClause :=
    andThen (of_straight (by simp)) <| andThen (of_plain plain_expression) <|
      andThen (of_straight (by simp)) (loop hs)
  exact andThen (of_straight (by simp)) <| andThen (of_plain plain_condition) <|
    andThen (of_straight (by simp)) <| andThen (loop hcase) (of_straight (by simp))

theorem whileStatement : Refines prefs n Grammar.whileStatement Grammar.whileStatement :=
  andThen (of_straight (by simp)) (andThen (of_plain plain_condition) hs)

theorem doStatement : Refines prefs n Grammar.doStatement Grammar.doStatement :=
  andThen (of_straight (by simp)) <| andThen hs <| andThen (of_straight (by simp)) <|
    andThen (of_plain plain_condition) (of_straight (by simp))

theorem control :
    Refines prefs n (Grammar.control prefs.strict) (Grammar.control prefs.lenient) := by
  have hreturn : Refines prefs n returnStatement returnStatement :=
    of_straight (by simp [returnStatement, plain_expression.straight])
  have hgoto : Refines prefs n
      (if prefs.allowGoto then Rule.when (.keyword .goto) gotoStatement .reject else .reject)
      (if prefs.allowGoto then Rule.when (.keyword .goto) gotoStatement .reject else .reject) := by
    refine of_straight ?_
    split <;> simp [gotoStatement]
  exact hreturn.when <| (conditional hs).when <| (switchStatement hs).when <|
    (whileStatement hs).when <| (doStatement hs).when <| (compound hs).when <|
      (of_straight (by simp [breakStatement])).when hgoto

theorem statementBody :
    Refines prefs n (Grammar.statementBody prefs.strict) (Grammar.statementBody prefs.lenient) := by
  have hlabel : Agrees prefs n label label := .of_straight (by simp [label])
  have hsimple : Agrees prefs n simple simple :=
    .of_straight (by simp [simple, plain_expression.straight])
  have hassignment : Agrees prefs n assignment assignment :=
    .of_straight (by simp [assignment, plain_expression.straight])
  have haccept : Refines prefs n .accept .accept := of_straight (by simp)
  exact branch hlabel.attempt hs <| branch hsimple.attempt haccept <|
    branch hassignment.attempt haccept (constructionOr (control hs))

end Statements
end Refines

/-- Statements that decide are read as before in any room. -/
theorem refines_statement (prefs : GrammarPreferences) (n : Nat) :
    Refines prefs n statement statement := by
  induction n using Nat.strongRecOn with
  | ind n ih => exact .call fun m hm => .statementBody (ih m (by omega))

/-! ### Declarations -/

namespace Refines

theorem procedureBody : Refines prefs n Grammar.compound Grammar.compound :=
  compound (refines_statement prefs n)

theorem applyOperator : Refines prefs n Grammar.applyOperator Grammar.applyOperator :=
  andThen (of_plain (by simp)) <| andThen (of_straight (by simp)) <|
    andThen (of_straight (by simp)) <| andThen (of_straight (by simp)) <|
      andThen (of_plain (by simp)) procedureBody

theorem indexOperator : Refines prefs n Grammar.indexOperator Grammar.indexOperator :=
  andThen (of_plain (by simp)) <| andThen (of_straight (by simp)) <|
    andThen (of_straight (by simp)) <| andThen (of_straight (by simp)) <|
      andThen (of_plain (by simp)) procedureBody

theorem assignOperator : Refines prefs n Grammar.assignOperator Grammar.assignOperator :=
  andThen (of_straight (by simp)) <| andThen (of_straight (by simp)) <|
    andThen (of_straight (by simp)) <| andThen (of_plain (by simp)) procedureBody

theorem applyOr : Refines prefs n
    ((Rule.attempt Grammar.applyOperator).orElse (.attempt Grammar.indexOperator))
    ((Rule.attempt Grammar.applyOperator).orElse (.attempt Grammar.indexOperator)) := by
  refine applyOperator.attemptUnless indexOperator.attempt fun s m b t hf hn hs hd => ?_
  cases hn with
  | keep hn => exact (firm_of_indexOperator hf hn).full _
  | restore => exact absurd (hd.answer.resolve_left (by simp)) hs

theorem assignOr : Refines prefs n
    ((Rule.attempt Grammar.assignOperator).orElse
      ((Rule.attempt Grammar.applyOperator).orElse (.attempt Grammar.indexOperator)))
    ((Rule.attempt Grammar.assignOperator).orElse
      ((Rule.attempt Grammar.applyOperator).orElse (.attempt Grammar.indexOperator))) := by
  refine assignOperator.attemptUnless applyOr fun s m b t hf hn hs hd => ?_
  cases b with
  | true => exact (firm_of_overload hf hn).full _
  | false =>
    have ht := hd.answer.resolve_left (by simp)
    obtain ⟨m', happly, hindex⟩ := hn.rejected_orElse
    cases happly
    cases hindex
    exact absurd ht hs

theorem member : Refines prefs n (Grammar.member name) (Grammar.member name) := by
  have hconstructor : Refines prefs n (constructor name) (constructor name) :=
    andThen (of_straight (by simp)) <| andThen (of_plain (by simp)) <|
      andThen (of_plain (by simp [initializerList, initializer, Test.refuses, closers]))
        procedureBody
  have hdestructor : Refines prefs n (destructor name) (destructor name) :=
    andThen (of_straight (by simp)) <| andThen (of_straight (by simp)) <|
      andThen (of_straight (by simp)) <| andThen (of_straight (by simp)) procedureBody
  have htypedef : Refines prefs n typeDefinition typeDefinition :=
    of_straight (by simp [typeDefinition, plain_expression.straight])
  have hdata : Agrees prefs n dataMember dataMember :=
    .of_straight (by simp [dataMember, plain_expression.straight])
  exact hconstructor.when <| hdestructor.when <| htypedef.when <|
    branch hdata.attempt (of_straight (by simp)) assignOr

theorem structureBody : Refines prefs n (Grammar.structureBody name) (Grammar.structureBody name) :=
  andThen (of_straight (by simp)) (andThen (loop member) (of_straight (by simp)))

theorem structureDeclaration :
    Refines prefs n Grammar.structureDeclaration Grammar.structureDeclaration :=
  andThen (of_straight (by simp)) <| declare fun _ =>
    branch (.of_straight (by simp)) (of_straight (by simp))
      (andThen structureBody (of_straight (by simp)))

theorem specialization : Refines prefs n Grammar.specialization Grammar.specialization :=
  andThen (of_straight (by simp)) <| declare fun _ => andThen (of_straight (by simp)) <|
    andThen (of_plain (by simp)) <|
      andThen (branch (.of_straight (by simp)) (of_straight (by simp)) structureBody)
        (of_straight (by simp))

theorem procedure : Refines prefs n Grammar.procedure Grammar.procedure :=
  andThen (of_plain (by simp [Test.refuses, closers])) <|
    andThen (of_straight (by simp [procedureName, overloadableOperator])) <|
      andThen (of_plain (by simp)) <|
        branch (.of_straight (by simp)) (of_straight (by simp)) procedureBody

theorem templateEnd : Refines prefs n Grammar.templateEnd Grammar.templateEnd := by
  intro s b t h hd
  refine runs_templateEnd.2 ?_
  cases runs_templateEnd.1 h with
  | declared hp hstruct => exact .declared hp (structureDeclaration hstruct hd)
  | specialized hp hstruct hspec =>
    exact .specialized hp ((firm_of_specialization hstruct hspec).full _)
      (specialization hspec ⟨hd.overflow, hd.answer, hd.spared⟩)
  | neither hp hstruct hspec hproc =>
    -- a procedure that is read here, or cut short, rules out that either one strayed
    have hb := hd.answer.imp_right fun ht => And.intro ht hd.overflow
    obtain ⟨hfirm, hfirm'⟩ := firm_of_procedure hstruct hspec hproc hb
    exact .neither hp (hfirm.full _) (hfirm'.full _)
      (procedure hproc ⟨hd.overflow, hd.answer, hd.spared⟩)
  | plain hs hp hproc => exact .plain hs hp (procedure hproc hd)

theorem declarationBody : Refines prefs n Grammar.declarationBody Grammar.declarationBody := by
  have henumeration : Refines prefs n enumeration enumeration :=
    of_straight (by simp [enumeration, Rule.delimited, Rule.separated])
  have htemplate : Refines prefs n template template :=
    andThen (of_plain plain_templateHeader) templateEnd
  exact henumeration.when <| structureDeclaration.when <| htemplate.when procedure

theorem declarations : Refines prefs n Grammar.declarations Grammar.declarations :=
  loop (call fun _ _ => declarationBody)

end Refines
end Grammar

open Grammar

/-- A program that is accepted with initializations refused ends in the same state with
initializations admitted. -/
theorem Parser.state_lenient {limits : Limits} {prefs : GrammarPreferences} {source : Bytes}
    (hspared : Spared prefs (Lexeme.significant source))
    (h : (new limits prefs.strict source).parseProgram.1 = true) :
    (new limits prefs.lenient source).parseProgram.2.state =
      (new limits prefs.strict source).parseProgram.2.state := by
  rw [answer_parseProgram, Bool.and_eq_true, List.isEmpty_iff, Option.isNone_iff_eq_none] at h
  rw [state_parseProgram, state_parseProgram]
  have hstrict := runs_perform prefs.strict limits.maxDepth productive_declarations
    (new limits prefs.strict source).start
  have hlenient := Refines.declarations hstrict ⟨h.2, .inr h.1, hspared⟩
  exact congrArg Prod.snd ((perform_eq_iff productive_declarations).2 hlenient)

namespace Recognition

/-- A source that is accepted with initializations refused is accepted with initializations
admitted, unless an initialized construction is the start of a conditional or of a loop that
goes on behind it. -/
theorem result_lenient (limits : Limits) (prefs : GrammarPreferences) (source : Bytes)
    (hspared : Spared prefs (Lexeme.significant source))
    (h : (ofSource limits prefs.strict source).result = .ok ()) :
    (ofSource limits prefs.lenient source).result = .ok () := by
  rw [result_eq_ok_iff] at h ⊢
  have hstate := Parser.state_lenient hspared h
  rw [Parser.answer_parseProgram, ← Parser.state_parseProgram] at h ⊢
  rwa [hstate]

/-- A conditional and a loop that are read as initialized constructions where these are
admitted. -/
def controlled : Bytes :=
  Bytes.ofAscii "void f() \x7b if (a) x = 1; while (b) y = 2; return 3; \x7d".toList

theorem result_lenient_controlled :
    (ofSource .development (GrammarPreferences.strict {}) controlled).result = .ok () ∧
      (ofSource .development (GrammarPreferences.lenient {}) controlled).result = .ok () := by
  have hstrict :
      (ofSource .development (GrammarPreferences.strict {}) controlled).result = .ok () :=
    result_eq_ok_iff.2 (by decide +kernel)
  have hspared : Spared {} (Lexeme.significant controlled) :=
    .of_free (.inr (by decide +kernel)) (.inl (by decide +kernel))
  exact ⟨hstrict, result_lenient _ _ _ hspared hstrict⟩

/-- The first branch of a conditional is taken for the value of a construction. -/
def stolenBranch : Bytes :=
  Bytes.ofAscii "void f() \x7b if (a) x = 1; else return 5; \x7d".toList

/-- So is the statement of a loop that ends with its condition. -/
def stolenLoop : Bytes :=
  Bytes.ofAscii "void f() \x7b if (a) do x = 1; while (b); else return 5; \x7d".toList

/-- Such a condition is then read as a call, one call deeper. -/
def stolenCondition : Bytes :=
  Bytes.ofAscii ("void f() \x7b do x = 1; while (".toList ++ List.replicate 125 '(' ++ ['a'] ++
    List.replicate 125 ')' ++ "); \x7d".toList)

theorem not_result_lenient :
    ((ofSource .development (GrammarPreferences.strict {}) stolenBranch).result = .ok () ∧
      (ofSource .development (GrammarPreferences.lenient {}) stolenBranch).result ≠ .ok ()) ∧
    ((ofSource .development (GrammarPreferences.strict {}) stolenLoop).result = .ok () ∧
      (ofSource .development (GrammarPreferences.lenient {}) stolenLoop).result ≠ .ok ()) ∧
    (ofSource .development (GrammarPreferences.strict {}) stolenCondition).result = .ok () ∧
      (ofSource .development (GrammarPreferences.lenient {}) stolenCondition).result ≠ .ok () := by
  simp only [ne_eq, result_eq_ok_iff]
  decide +kernel

end Recognition
end Recognizer
