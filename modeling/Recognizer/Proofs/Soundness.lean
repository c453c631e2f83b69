import Recognizer.Proofs.Ebnf
import Recognizer.Proofs.Program

/-!
# Soundness of the productions

Whatever a production accepts is derived by its rule in the published grammar,
except that a statement may carry several labels where the published rule has
one. A rule is sound for an expression of the grammar when the lexemes that it
consumes on acceptance are derived; every combinator of rules keeps soundness.
-/
namespace Recognizer.Grammar

/-- What a named production does. -/
def Production.rule (prefs : GrammarPreferences) : Production → Rule
  | .literal => Grammar.literal
  | .basicType => Grammar.basicType
  | .overloadableOperator => Grammar.overloadableOperator
  | .additiveList => Grammar.additiveList
  | .templateArguments => Grammar.templateArguments
  | .expressionList => Grammar.expressionList
  | .parameterList => Grammar.parameterList
  | .initializerList => Grammar.initializerList
  | .parameters => Grammar.parameters
  | .arguments => Grammar.arguments
  | .expression => Grammar.expression
  | .disjunction => Grammar.disjunction
  | .conjunction => Grammar.conjunction
  | .equality => Grammar.equality
  | .relational => Grammar.relational
  | .additive => Grammar.additive
  | .multiplicative => Grammar.multiplicative
  | .prefixExpr => Grammar.prefixExpr
  | .postfixExpr => Grammar.postfixExpr
  | .primary => Grammar.primary
  | .parameter => Grammar.parameter
  | .statement => Grammar.statement
  | .simple => Grammar.simple
  | .assignment => Grammar.assignment
  | .construction => Grammar.construction prefs
  | .initialization => Grammar.initialization prefs
  | .control => Grammar.control prefs
  | .returnStatement => Grammar.returnStatement
  | .conditional => Grammar.conditional
  | .switchStatement => Grammar.switchStatement
  | .caseClause => Grammar.caseClause
  | .whileStatement => Grammar.whileStatement
  | .doStatement => Grammar.doStatement
  | .breakStatement => Grammar.breakStatement
  | .gotoStatement => Grammar.gotoStatement
  | .compound => Grammar.compound
  | .typeDefinition => Grammar.typeDefinition
  | .declaration => Grammar.declaration
  | .enumeration => Grammar.enumeration
  | .structureName => Rule.declare .type fun _ => .accept
  | .structureDeclaration => Grammar.structureDeclaration
  | .dataMember => Grammar.dataMember
  | .assignOperator => Grammar.assignOperator
  | .applyOperator => Grammar.applyOperator
  | .indexOperator => Grammar.indexOperator
  | .initializer => Grammar.initializer
  | .procedureName => Grammar.procedureName
  | .procedure => Grammar.procedure
  | .templateHeader => Grammar.templateHeader
  | .specialization => Grammar.specialization
  | .template => Grammar.template
  | .structureBody name => Grammar.structureBody name
  | .member name => Grammar.member name
  | .constructor name => Grammar.constructor name
  | .destructor name => Grammar.destructor name

/-- Every production is productive. -/
theorem Production.productive (prefs : GrammarPreferences) (p : Production) :
    (p.rule prefs).Meets .productive := by
  cases p <;>
    simp [rule, Grammar.literal, Grammar.basicType,
      Grammar.overloadableOperator, Grammar.additiveList, Grammar.templateArguments,
      Grammar.expressionList, Grammar.parameterList, Grammar.initializerList,
      Grammar.expression, Grammar.conjunction, Grammar.equality, Grammar.relational,
      Grammar.multiplicative, Grammar.parameter, Grammar.statement, Grammar.simple,
      Grammar.assignment, Grammar.returnStatement, Grammar.conditional, Grammar.condition,
      Grammar.switchStatement, Grammar.whileStatement, Grammar.doStatement,
      Grammar.breakStatement, Grammar.gotoStatement, Grammar.declaration, Grammar.enumeration,
      Grammar.dataMember, Grammar.assignOperator, Grammar.applyOperator, Grammar.indexOperator,
      Grammar.singleParameter, Grammar.initializer, Grammar.procedureName, Grammar.constructor,
      Grammar.destructor]

variable {prefs : GrammarPreferences} {n : Nat}

/-- What the rule consumes on acceptance is derived. -/
def Sound (prefs : GrammarPreferences) (n : Nat) (r : Rule) (g : Ebnf) : Prop :=
  ∀ ⦃s t⦄, FullRuns (body prefs) n r s true t →
    ∃ ts, s.rest = ts ++ t.rest ∧ Derives manyLabels g ts

/-- The rule gives back what it has consumed when it rejects. -/
def Clean (prefs : GrammarPreferences) (n : Nat) (r : Rule) : Prop :=
  ∀ ⦃s t⦄, FullRuns (body prefs) n r s false t → t.rest = s.rest

namespace Clean

variable {r q : Rule}

theorem peek (t : Test) : Clean prefs n (.peek t) := by
  intro s u h
  cases h
  rfl

theorem take (t : Test) : Clean prefs n (.take t) := by
  intro s u h
  cases h
  rfl

theorem attempt (r : Rule) : Clean prefs n (.attempt r) := by
  intro s u h
  cases h
  rfl

theorem orElse (hr : Clean prefs n r) (hq : Clean prefs n q) : Clean prefs n (r.orElse q) := by
  intro s t h
  obtain ⟨m, hf, hn⟩ := h.rejected_orElse
  exact (hq hn).trans (hr hf)

/-- A look ahead consumes nothing either way. -/
theorem andThen_peek (t : Test) (hr : Clean prefs n r) :
    Clean prefs n ((Rule.peek t).andThen r) := by
  intro s u h
  rcases h.rejected_andThen with hf | ⟨m, hf, hy⟩
  · exact Clean.peek t hf
  · cases hf
    exact hr hy

end Clean

namespace Sound

variable {r q : Rule} {g h : Ebnf}

theorem take {t : Test} (ht : ∀ table x rest, t.holds table (x :: rest) = true →
    Derives manyLabels g [x]) : Sound prefs n (.take t) g := by
  intro s u hrun
  cases hrun with
  | take hs hp =>
    obtain ⟨x, rest, hx⟩ := List.exists_cons_of_ne_nil hs
    refine ⟨[x], by simp [hx], ht s.table x rest ?_⟩
    simpa only [State.passes, hx] using hp

theorem kind (k : Kind) : Sound prefs n (Rule.kind k) (.kind k) :=
  take fun table x rest hx => .kind (by simpa [Test.holds] using hx)

theorem word (w : Bytes) : Sound prefs n (Rule.word w) (.word w) :=
  take fun table x rest hx => by
    simp only [Test.holds, Bool.and_eq_true, beq_iff_eq] at hx
    exact .word hx.1 hx.2

theorem keyword (k : Keyword) : Sound prefs n (Rule.keyword k) (.keyword k) := word k.bytes

theorem accept : Sound prefs n .accept .empty := by
  intro s t hrun
  cases hrun
  exact ⟨[], rfl, .empty⟩

theorem reject : Sound prefs n .reject g := by
  intro s t hrun
  cases hrun

theorem peek (t : Test) : Sound prefs n (.peek t) .empty := by
  intro s u hrun
  cases hrun
  exact ⟨[], rfl, .empty⟩

/-- One rule after another derives a sequence. -/
theorem andThen (hr : Sound prefs n r g) (hq : Sound prefs n q h) :
    Sound prefs n (r.andThen q) (.sequence g h) := by
  intro s t hrun
  obtain ⟨m, hf, hy⟩ := hrun.of_andThen
  obtain ⟨ts, hts, hg⟩ := hr hf
  obtain ⟨us, hus, hh⟩ := hq hy
  exact ⟨ts ++ us, by rw [hts, hus, List.append_assoc], .sequence hg hh⟩

/-- Two ways to go on after a rule that rejects cleanly derive a choice. -/
theorem branch {first : Rule} {f : Ebnf} (hc : Clean prefs n first)
    (hf : Sound prefs n first f) (hr : Sound prefs n r g) (hq : Sound prefs n q h) :
    Sound prefs n (.branch first r q) (.choice (.sequence f g) h) := by
  intro s t hrun
  cases hrun with
  | yes hfirst hy =>
    obtain ⟨ts, hts, hderive⟩ := andThen hf hr (Runs.yes hfirst hy)
    exact ⟨ts, hts, .left hderive⟩
  | no hfirst hn =>
    obtain ⟨ts, hts, hderive⟩ := hq hn
    exact ⟨ts, by rw [← hc hfirst, hts], .right hderive⟩

/-- Soundness for an expression that derives no more than another. -/
theorem mono (hr : Sound prefs n r g)
    (hgh : ∀ ts, Derives manyLabels g ts → Derives manyLabels h ts) : Sound prefs n r h := by
  intro s t hrun
  obtain ⟨ts, hts, hg⟩ := hr hrun
  exact ⟨ts, hts, hgh ts hg⟩

/-- The rounds of a loop derive a repetition. -/
theorem loop {t : Test} (hr : Sound prefs n r g) : Sound prefs n (.loop t r) (.repeated g) := by
  intro s u hrun
  generalize hb : true = b at hrun
  induction hrun using Runs.loop_induction with
  | done s => exact ⟨[], rfl, .none⟩
  | again s m u b _ _ hround _ ih =>
    obtain ⟨ts, hts, hg⟩ := hr hround
    obtain ⟨us, hus, hgs⟩ := ih hb
    exact ⟨ts ++ us, by rw [hts, hus, List.append_assoc], .more hg hgs⟩
  | stop => cases hb

theorem attempt (hr : Sound prefs n r g) : Sound prefs n (.attempt r) g := by
  intro s t hrun
  cases hrun with
  | keep h => exact hr h

theorem enclosed (hr : Sound prefs n r g) : Sound prefs n (.enclosed r) g := by
  intro s t hrun
  cases hrun with
  | enclosed h =>
    obtain ⟨ts, hts, hg⟩ := hr h
    exact ⟨ts, hts, hg⟩

/-- A declared identifier is followed by what its name calls for. -/
theorem declare {k : Symbol.Kind} {next : Bytes → Rule} {following : Bytes → Ebnf}
    (hnext : ∀ name, Sound prefs n (next name) (following name)) :
    Sound prefs n (.declare k next) (.named following) := by
  intro s t hrun
  cases hrun with
  | @declare _ _ _ _ name _ _ hs h =>
    obtain ⟨x, rest, hx⟩ := List.exists_cons_of_ne_nil (State.rest_ne_nil_of_identifier? hs)
    obtain ⟨ts, hts, hderive⟩ := hnext name h
    simp only [State.identifier?, hx, Option.ite_none_right_eq_some, Option.some.injEq] at hs
    refine ⟨x :: ts, ?_, .named hs.1 (hs.2 ▸ hderive)⟩
    simpa [State.declare, hx] using hts

/-- A call derives what the body of the production does. -/
theorem call {c : Guarded} (hbody : ∀ m, m + 1 = n → Sound prefs m (body prefs c) g) :
    Sound prefs n (.call c) g := by
  intro s t hrun
  cases hrun with
  | call _ h => exact hbody _ rfl h

theorem production {p : Production} (hr : Sound prefs n r (manyLabels p)) :
    Sound prefs n r (.production p) := hr.mono fun _ => .production

/-- A rule tried after one that rejects cleanly derives a choice. -/
theorem orElse (hc : Clean prefs n r) (hr : Sound prefs n r g) (hq : Sound prefs n q h) :
    Sound prefs n (r.orElse q) (.choice g h) := by
  intro s t hrun
  cases hrun with
  | yes hf hy =>
    cases hy
    obtain ⟨ts, hts, hg⟩ := hr hf
    exact ⟨ts, hts, .left hg⟩
  | no hf hn =>
    obtain ⟨ts, hts, hh⟩ := hq hn
    exact ⟨ts, by rw [← hc hf, hts], .right hh⟩

/-- A look ahead decides between two rules. -/
theorem when {t : Test} (hr : Sound prefs n r g) (hq : Sound prefs n q h) :
    Sound prefs n (Rule.when t r q) (.choice g h) := by
  intro s u hrun
  cases hrun with
  | yes hf hy =>
    cases hf
    obtain ⟨ts, hts, hg⟩ := hr hy
    exact ⟨ts, hts, .left hg⟩
  | no hf hn =>
    cases hf
    obtain ⟨ts, hts, hh⟩ := hq hn
    exact ⟨ts, hts, .right hh⟩

/-- A part that is left out when a look ahead succeeds is optional. -/
theorem skippable {t : Test} (hr : Sound prefs n r g) :
    Sound prefs n ((Rule.peek t).orElse r) (.optional g) := by
  intro s u hrun
  cases hrun with
  | yes hf hy =>
    cases hf
    cases hy
    exact ⟨[], rfl, .absent⟩
  | no hf hn =>
    cases hf
    obtain ⟨ts, hts, hg⟩ := hr hn
    exact ⟨ts, hts, .present hg⟩

/-- A part that its first lexeme announces is optional. -/
theorem announced {t : Test} (ht : Sound prefs n (.take t) g) (hr : Sound prefs n r h) :
    Sound prefs n (.branch (.take t) r .accept) (.optional (.sequence g h)) := by
  refine (branch (.take t) ht hr accept).mono ?_
  intro ts hts
  cases hts with
  | left h => exact .present h
  | right h => cases h; exact .absent

theorem separated (hr : Sound prefs n r g) :
    Sound prefs n (Rule.separated r) (.separated g) :=
  hr.andThen (loop ((kind .comma).andThen hr))

theorem delimited {opening closing : Kind} (hr : Sound prefs n (Rule.separated r) g) :
    Sound prefs n (Rule.delimited opening r closing)
      (.within opening (.optional g) closing) :=
  (kind opening).andThen (hr.skippable.andThen (kind closing))

theorem within {opening closing : Kind} (hr : Sound prefs n r g) :
    Sound prefs n (Rule.inOrder [Rule.kind opening, r, Rule.kind closing])
      (.within opening g closing) :=
  (kind opening).andThen (hr.andThen (kind closing))

theorem optional (hc : Clean prefs n r) (hr : Sound prefs n r g) :
    Sound prefs n (Rule.optional r) (.optional g) := by
  intro s t hrun
  cases hrun with
  | yes hf hy =>
    cases hy
    obtain ⟨ts, hts, hg⟩ := hr hf
    exact ⟨ts, hts, .present hg⟩
  | no hf hn =>
    cases hn
    exact ⟨[], (hc hf).symm, .absent⟩

theorem operators {ks : List Kind} (hr : Sound prefs n r g)
    (hks : Sound prefs n (Rule.anyKind ks) h) :
    Sound prefs n (Rule.operators r ks) (.operators g h) :=
  hr.andThen (loop (hks.andThen hr))

/-- A lexeme of one of some kinds. -/
theorem anyKind (k : Kind) (ks : List Kind) :
    Sound prefs n (Rule.anyKind (k :: ks)) (.oneOf (.kind k) (ks.map .kind)) := by
  refine take fun table x rest hx => ?_
  simp only [Test.holds, List.contains_iff_mem] at hx
  induction ks generalizing k with
  | nil => exact .kind (by simpa using hx)
  | cons l ks ih =>
    rcases List.mem_cons.1 hx with hx | hx
    · exact .left (.kind hx)
    · exact .right (ih l hx)

/-- A lexeme is taken, or another rule is tried. -/
theorem takeOr {t : Test} (ht : Sound prefs n (.take t) g) (hq : Sound prefs n q h) :
    Sound prefs n ((Rule.take t).orElse q) (.choice g h) := orElse (.take t) ht hq

/-- A rule is attempted, or another one is tried. -/
theorem attemptOr (hr : Sound prefs n r g) (hq : Sound prefs n q h) :
    Sound prefs n ((Rule.attempt r).orElse q) (.choice g h) := orElse (.attempt r) hr.attempt hq

theorem swap (hr : Sound prefs n r (.choice g h)) : Sound prefs n r (.choice h g) := by
  refine hr.mono fun ts hts => ?_
  cases hts with
  | left h => exact .right h
  | right h => exact .left h

end Sound

/-- The productions that are called through the depth guard are sound. -/
structure SoundCalls (prefs : GrammarPreferences) (n : Nat) : Prop where
  expression : Sound prefs n Grammar.expression (.production .expression)
  templateArguments : Sound prefs n Grammar.templateArguments (.production .templateArguments)
  statement : Sound prefs n Grammar.statement (.production .statement)
  declaration : Sound prefs n Grammar.declaration (.production .declaration)

namespace SoundCalls

open Sound

/-! ### Expressions -/

theorem literal : Sound prefs n Grammar.literal (.production .literal) :=
  .production <| (keyword .true_).takeOr <| (keyword .false_).takeOr <|
    (kind .integer).takeOr (kind .real)

theorem clean_literal : Clean prefs n Grammar.literal :=
  (Clean.take _).orElse <| (Clean.take _).orElse <| (Clean.take _).orElse (Clean.take _)

theorem basicType : Sound prefs n Grammar.basicType (.production .basicType) :=
  .production <| (keyword .bool).takeOr <| (keyword .int).takeOr (keyword .double)

theorem clean_basicType : Clean prefs n Grammar.basicType :=
  (Clean.take _).orElse <| (Clean.take _).orElse (Clean.take _)

variable (calls : SoundCalls prefs n)
include calls

theorem expressionList : Sound prefs n Grammar.expressionList (.production .expressionList) :=
  .production calls.expression.separated

theorem condition : Sound prefs n Grammar.condition
    (.within .openParen (.production .expression) .closeParen) := calls.expression.within

theorem arguments : Sound prefs n Grammar.arguments (.production .arguments) :=
  .production calls.expressionList.delimited

theorem primary : Sound prefs n Grammar.primary (.production .primary) := by
  have hknown : Sound prefs n (.take .known) (.kind .identifier) :=
    take fun table x rest hx => by
      simp only [Test.holds, Bool.and_eq_true, beq_iff_eq] at hx
      exact .kind hx.1
  have hname : Sound prefs n templateName _ := (kind .less).announced calls.templateArguments
  have hparen := branch (Clean.take _) (kind .openParen)
    (calls.expression.andThen (kind .closeParen))
    (orElse clean_basicType basicType ((keyword .typename).takeOr (kind .identifier)))
  exact .production (branch (Clean.take _) hknown hname (orElse clean_literal literal hparen))

theorem suffixPart : Sound prefs n Grammar.suffixPart
    (.oneOf (.inOrder [.kind .dot, .kind .identifier])
      [.within .openParen (.optional (.production .expressionList)) .closeParen,
        .within .openBracket (.production .expression) .closeBracket, .kind .ampersand]) :=
  branch (Clean.take _) (kind .dot) (kind .identifier) <|
    when calls.expressionList.delimited <|
      branch (Clean.take _) (kind .openBracket)
        (calls.expression.andThen (kind .closeBracket)) (kind .ampersand)

theorem postfixExpr : Sound prefs n Grammar.postfixExpr (.production .postfixExpr) :=
  .production (calls.primary.andThen (loop calls.suffixPart))

theorem prefixExpr : Sound prefs n Grammar.prefixExpr (.production .prefixExpr) :=
  .production <| andThen
    (optional ((Clean.take _).orElse <| (Clean.take _).orElse (Clean.take _))
      ((kind .minus).takeOr <| (kind .bang).takeOr (keyword .const)))
    calls.postfixExpr

theorem multiplicative : Sound prefs n Grammar.multiplicative (.production .multiplicative) :=
  .production (calls.prefixExpr.operators (anyKind .star [.slash, .percent]))

theorem additive : Sound prefs n Grammar.additive (.production .additive) :=
  .production (calls.multiplicative.operators (anyKind .plus [.minus]))

theorem relational : Sound prefs n Grammar.relational (.production .relational) :=
  .production (calls.additive.operators
    (anyKind .less [.greater, .lessEquals, .greaterEquals]))

theorem equality : Sound prefs n Grammar.equality (.production .equality) :=
  .production (calls.relational.operators (anyKind .doubleEquals [.bangEquals]))

theorem conjunction : Sound prefs n Grammar.conjunction (.production .conjunction) :=
  .production (calls.equality.operators (anyKind .doubleAmpersand []))

theorem disjunction : Sound prefs n Grammar.disjunction (.production .disjunction) :=
  .production (calls.conjunction.operators (anyKind .doublePipe []))

theorem additiveList : Sound prefs n Grammar.additiveList (.production .additiveList) :=
  .production calls.additive.separated

theorem closedAdditiveList :
    Sound prefs n Grammar.closedAdditiveList (.production .templateArguments) :=
  .production (calls.additiveList.andThen (kind .greater))

theorem parameter : Sound prefs n Grammar.parameter (.production .parameter) :=
  .production (calls.expression.andThen (optional (Clean.take _) (kind .identifier)))

theorem parameterList : Sound prefs n Grammar.parameterList (.production .parameterList) :=
  .production calls.parameter.separated

theorem parameters : Sound prefs n Grammar.parameters (.production .parameters) :=
  .production calls.parameterList.delimited

/-! ### Statements -/

theorem simple : Sound prefs n Grammar.simple (.production .simple) :=
  .production (calls.expression.andThen (kind .semicolon))

theorem assignment : Sound prefs n Grammar.assignment (.production .assignment) :=
  .production <| calls.expression.andThen <| (kind .equals).andThen <|
    calls.expression.andThen (kind .semicolon)

theorem initialValue : Sound prefs n Grammar.initialValue (.production .initialization) :=
  .production <| branch (Clean.take _) (kind .openParen)
    (calls.expressionList.andThen (kind .closeParen)) ((kind .equals).andThen calls.expression)

/-- A refused initialization accepts nothing. -/
theorem initialization :
    Sound prefs n (Grammar.initialization prefs) (.production .initialization) := by
  unfold Grammar.initialization
  split
  · intro s t h
    obtain ⟨m, -, hreject⟩ := h.of_andThen
    cases hreject
  · exact calls.initialValue

theorem construction :
    Sound prefs n (Grammar.construction prefs) (.production .construction) :=
  .production <| calls.expression.andThen <| (kind .identifier).andThen <|
    calls.initialization.skippable.andThen (kind .semicolon)

theorem returnStatement :
    Sound prefs n Grammar.returnStatement (.production .returnStatement) :=
  .production <| (keyword .return_).andThen <|
    calls.expression.skippable.andThen (kind .semicolon)

theorem conditional : Sound prefs n Grammar.conditional (.production .conditional) :=
  .production <| (keyword .if_).andThen <| calls.condition.andThen <|
    calls.statement.andThen ((keyword .else_).announced calls.statement)

theorem caseClause : Sound prefs n Grammar.caseClause (.production .caseClause) :=
  .production <| (keyword .case).andThen <| calls.expression.andThen <|
    (kind .colon).andThen (loop calls.statement)

theorem switchStatement :
    Sound prefs n Grammar.switchStatement (.production .switchStatement) :=
  .production <| (keyword .switch).andThen <| calls.condition.andThen <|
    (kind .openBrace).andThen <| (loop calls.caseClause).andThen (kind .closeBrace)

theorem whileStatement : Sound prefs n Grammar.whileStatement (.production .whileStatement) :=
  .production <| (keyword .while_).andThen <| calls.condition.andThen calls.statement

theorem doStatement : Sound prefs n Grammar.doStatement (.production .doStatement) :=
  .production <| (keyword .do_).andThen <| calls.statement.andThen <|
    (keyword .while_).andThen <| calls.condition.andThen (kind .semicolon)

theorem compound : Sound prefs n Grammar.compound (.production .compound) :=
  .production <| (kind .openBrace).andThen <|
    enclosed ((loop calls.statement).andThen (kind .closeBrace))

omit calls in
theorem breakStatement : Sound prefs n Grammar.breakStatement (.production .breakStatement) :=
  .production ((keyword .break_).andThen (kind .semicolon))

omit calls in
theorem gotoStatement : Sound prefs n Grammar.gotoStatement (.production .gotoStatement) :=
  .production <| (keyword .goto).andThen <| (kind .identifier).andThen (kind .semicolon)

theorem control : Sound prefs n (Grammar.control prefs) (.production .control) := by
  have hgoto : Sound prefs n (if prefs.allowGoto then
      Rule.when (.keyword .goto) Grammar.gotoStatement .reject else .reject)
      (.production .gotoStatement) := by
    split
    · have hnone : Sound prefs n .reject (.production .gotoStatement) := reject
      refine (gotoStatement.when hnone).mono ?_
      intro ts hts
      cases hts with
      | left h | right h => exact h
    · exact reject
  exact .production <| calls.returnStatement.when <| calls.conditional.when <|
    calls.switchStatement.when <| calls.whileStatement.when <| calls.doStatement.when <|
      calls.compound.when <| breakStatement.when hgoto

theorem typeDefinition : Sound prefs n Grammar.typeDefinition (.production .typeDefinition) := by
  have hname : Sound prefs n (.declare .type fun _ => Rule.kind .semicolon)
      (.inOrder [.kind .identifier, .kind .semicolon]) := by
    refine (declare fun _ => kind .semicolon).mono ?_
    intro ts hts
    cases hts with
    | named hx h => exact .sequence (.kind hx) h
  exact .production <| (keyword .typedef).andThen <| calls.expression.andThen hname

/-- A label before a statement is one more label. -/
theorem statementBody :
    Sound prefs n (Grammar.statementBody prefs) (.production .statement) := by
  have hlabel : Sound prefs n (.attempt Grammar.label) labelling :=
    attempt ((kind .identifier).andThen (kind .colon))
  have hforms : Sound prefs n (Rule.oneOf [.attempt Grammar.simple, .attempt Grammar.assignment,
      .attempt (Grammar.construction prefs), .attempt (Grammar.control prefs),
      Grammar.typeDefinition]) unlabelled :=
    calls.simple.attemptOr <| calls.assignment.attemptOr <| calls.construction.attemptOr <|
      calls.control.attemptOr calls.typeDefinition
  refine production ((branch (.attempt _) hlabel calls.statement hforms).mono ?_)
  intro ts hts
  cases hts with
  | left h =>
    cases h with
    | sequence hl hs =>
      cases hs with
      | production hs =>
        cases hs with
        | sequence hls hu =>
          rw [← List.append_assoc]
          exact .sequence (.more hl hls) hu
  | right h => exact .sequence .none h

/-! ### Declarations -/

omit calls in
theorem overloadableOperator :
    Sound prefs n Grammar.overloadableOperator (.production .overloadableOperator) :=
  .production (anyKind .doubleEquals [.less, .plus, .minus, .star, .slash, .percent])

omit calls in
theorem enumeration : Sound prefs n Grammar.enumeration (.production .enumeration) :=
  .production <| (keyword .enum).andThen <| (kind .identifier).andThen <|
    (kind .identifier).separated.delimited.andThen (kind .semicolon)

theorem initializer : Sound prefs n Grammar.initializer (.production .initializer) :=
  .production ((kind .identifier).andThen calls.arguments)

theorem initializerList :
    Sound prefs n Grammar.initializerList (.production .initializerList) :=
  .production calls.initializer.separated

theorem constructor (name : Bytes) :
    Sound prefs n (Grammar.constructor name) (.production (.constructor name)) :=
  .production <| (word name).andThen <| calls.parameters.andThen <|
    ((kind .colon).announced calls.initializerList).andThen calls.compound

theorem destructor (name : Bytes) :
    Sound prefs n (Grammar.destructor name) (.production (.destructor name)) :=
  .production <| (kind .tilde).andThen <| (word name).andThen <| (kind .openParen).andThen <|
    (kind .closeParen).andThen calls.compound

theorem dataMember : Sound prefs n Grammar.dataMember (.production .dataMember) :=
  .production <| calls.expression.andThen <| (kind .identifier).andThen <|
    ((kind .openBracket).announced (calls.expression.andThen (kind .closeBracket))).andThen
      (kind .semicolon)

theorem assignOperator : Sound prefs n Grammar.assignOperator (.production .assignOperator) :=
  .production <| (keyword .void).andThen <| (keyword .operator).andThen <|
    (kind .equals).andThen <| calls.parameter.within.andThen calls.compound

theorem applyOperator : Sound prefs n Grammar.applyOperator (.production .applyOperator) :=
  .production <| calls.expression.andThen <| (keyword .operator).andThen <|
    (kind .openParen).andThen <| (kind .closeParen).andThen <|
      calls.parameters.andThen calls.compound

theorem indexOperator : Sound prefs n Grammar.indexOperator (.production .indexOperator) :=
  .production <| calls.expression.andThen <| (keyword .operator).andThen <|
    (kind .openBracket).andThen <| (kind .closeBracket).andThen <|
      calls.parameter.within.andThen calls.compound

theorem member (name : Bytes) :
    Sound prefs n (Grammar.member name) (.production (.member name)) :=
  .production <| (calls.constructor name).when <| (calls.destructor name).when <|
    calls.typeDefinition.when <| calls.dataMember.attemptOr <| calls.assignOperator.attemptOr <|
      calls.applyOperator.attemptOr calls.indexOperator.attempt

theorem structureBody (name : Bytes) :
    Sound prefs n (Grammar.structureBody name) (.production (.structureBody name)) :=
  .production <| (kind .openBrace).andThen <| (loop (calls.member name)).andThen
    (kind .closeBrace)

theorem structureDeclaration :
    Sound prefs n Grammar.structureDeclaration (.production .structureDeclaration) := by
  have hrest (name : Bytes) : Sound prefs n
      (Rule.orElse (Rule.kind .semicolon)
        (Rule.andThen (Grammar.structureBody name) (Rule.kind .semicolon)))
      (.inOrder [.optional (.production (.structureBody name)), .kind .semicolon]) := by
    refine ((kind .semicolon).takeOr
      ((calls.structureBody name).andThen (kind .semicolon))).mono ?_
    intro ts hts
    cases hts with
    | left h => exact .sequence .absent h
    | right h =>
      cases h with
      | sequence hb hs => exact .sequence (.present hb) hs
  exact .production ((keyword .struct).andThen (declare hrest))

omit calls in
theorem procedureName : Sound prefs n Grammar.procedureName (.production .procedureName) := by
  have hname : Sound prefs n (.declare .procedure fun _ => .accept) (.kind .identifier) := by
    refine (declare fun _ => accept).mono ?_
    intro ts hts
    cases hts with
    | named hx h => cases h; exact .kind hx
  exact .production (branch (Clean.take _) (keyword .operator) overloadableOperator hname).swap

theorem procedure : Sound prefs n Grammar.procedure (.production .procedure) :=
  .production <| ((keyword .void).takeOr calls.expression).andThen <|
    procedureName.andThen <| calls.parameters.andThen
      ((kind .semicolon).takeOr calls.compound).swap

theorem templateHeader : Sound prefs n Grammar.templateHeader (.production .templateHeader) :=
  .production <| (keyword .template).andThen <| (kind .less).andThen <|
    calls.parameterList.skippable.andThen <| (kind .greater).andThen
      ((keyword .requires).announced calls.condition)

theorem specialization : Sound prefs n Grammar.specialization (.production .specialization) :=
  .production <| (keyword .struct).andThen <| declare fun name =>
    (kind .less).andThen <| calls.templateArguments.andThen <|
      (calls.structureBody name).skippable.andThen (kind .semicolon)

theorem template : Sound prefs n Grammar.template (.production .template) := by
  have hstruct := (peek (.keyword .struct)).andThen
    (calls.structureDeclaration.attemptOr calls.specialization.attempt)
  have hclean : Clean prefs n (Rule.andThen (.peek (.keyword .struct))
      (Rule.orElse (.attempt Grammar.structureDeclaration) (.attempt Grammar.specialization))) :=
    .andThen_peek _ ((Clean.attempt _).orElse (Clean.attempt _))
  refine production (calls.templateHeader.andThen ((orElse hclean hstruct calls.procedure).mono ?_))
  intro ts hts
  cases hts with
  | left h =>
    cases h with
    | sequence he hs =>
      cases he
      cases hs with
      | left h => exact .left h
      | right h => exact .right (.left h)
  | right h => exact .right (.right h)

theorem declarationBody :
    Sound prefs n Grammar.declarationBody (.production .declaration) :=
  .production <| enumeration.when <| calls.structureDeclaration.when <|
    calls.template.when calls.procedure

end SoundCalls

/-- The guarded productions are sound in any room. -/
theorem soundCalls (prefs : GrammarPreferences) (n : Nat) : SoundCalls prefs n := by
  induction n using Nat.strongRecOn with
  | ind n ih =>
    have calls {m : Nat} (hm : m + 1 = n) : SoundCalls prefs m := ih m (by omega)
    exact
      { expression := .call fun m hm => .production (calls hm).disjunction
        templateArguments := .call fun m hm => (calls hm).closedAdditiveList
        statement := .call fun m hm => (calls hm).statementBody
        declaration := .call fun m hm => (calls hm).declarationBody }

/-- Every production is sound. -/
theorem Production.sound (prefs : GrammarPreferences) (n : Nat) (p : Production) :
    Sound prefs n (p.rule prefs) (.production p) := by
  have calls := soundCalls prefs n
  cases p with
  | literal => exact SoundCalls.literal
  | basicType => exact SoundCalls.basicType
  | overloadableOperator => exact SoundCalls.overloadableOperator
  | additiveList => exact calls.additiveList
  | templateArguments => exact calls.templateArguments
  | expressionList => exact calls.expressionList
  | parameterList => exact calls.parameterList
  | initializerList => exact calls.initializerList
  | parameters => exact calls.parameters
  | arguments => exact calls.arguments
  | expression => exact calls.expression
  | disjunction => exact calls.disjunction
  | conjunction => exact calls.conjunction
  | equality => exact calls.equality
  | relational => exact calls.relational
  | additive => exact calls.additive
  | multiplicative => exact calls.multiplicative
  | prefixExpr => exact calls.prefixExpr
  | postfixExpr => exact calls.postfixExpr
  | primary => exact calls.primary
  | parameter => exact calls.parameter
  | statement => exact calls.statement
  | simple => exact calls.simple
  | assignment => exact calls.assignment
  | construction => exact calls.construction
  | initialization => exact calls.initialization
  | control => exact calls.control
  | returnStatement => exact calls.returnStatement
  | conditional => exact calls.conditional
  | switchStatement => exact calls.switchStatement
  | caseClause => exact calls.caseClause
  | whileStatement => exact calls.whileStatement
  | doStatement => exact calls.doStatement
  | breakStatement => exact SoundCalls.breakStatement
  | gotoStatement => exact SoundCalls.gotoStatement
  | compound => exact calls.compound
  | typeDefinition => exact calls.typeDefinition
  | declaration => exact calls.declaration
  | enumeration => exact SoundCalls.enumeration
  | structureName =>
    refine .production ((Sound.declare fun _ => .accept).mono ?_)
    intro ts hts
    cases hts with
    | named hx h => cases h; exact .kind hx
  | structureDeclaration => exact calls.structureDeclaration
  | dataMember => exact calls.dataMember
  | assignOperator => exact calls.assignOperator
  | applyOperator => exact calls.applyOperator
  | indexOperator => exact calls.indexOperator
  | initializer => exact calls.initializer
  | procedureName => exact SoundCalls.procedureName
  | procedure => exact calls.procedure
  | templateHeader => exact calls.templateHeader
  | specialization => exact calls.specialization
  | template => exact calls.template
  | structureBody name => exact calls.structureBody name
  | member name => exact calls.member name
  | constructor name => exact calls.constructor name
  | destructor name => exact calls.destructor name

/-- The rounds of the declarations derive a list of declarations. -/
theorem derives_declarations {s t : State}
    (h : FullRuns (body prefs) n declarations s true t) :
    ∃ tss : List (List Lexeme), s.rest = tss.flatten ∧
      ∀ ts ∈ tss, Derives manyLabels (.production .declaration) ts := by
  generalize hb : true = b at h
  induction h using Runs.loop_induction with
  | done s _ hq =>
    refine ⟨[], ?_, by simp⟩
    simpa [State.passes, Test.holds] using hq
  | again s m t b _ _ hround _ ih =>
    obtain ⟨ts, hts, hderive⟩ := (soundCalls prefs n).declaration hround
    obtain ⟨tss, htss, hall⟩ := ih hb
    exact ⟨ts :: tss, by simp [hts, htss], by simpa using ⟨hderive, hall⟩⟩
  | stop => cases hb

/-- Whatever a production accepts, from any lexemes, with any symbol table and in
any room, is derived by its rule, and a source whose declarations are all accepted
is a list of derived declarations. -/
theorem derives_of_accepted (p : Parser) :
    (∀ P : Production, (p.apply (P.rule p.preferences)).1 = true →
      ∃ ts, p.state.rest = ts ++ (p.apply (P.rule p.preferences)).2.state.rest ∧
        Derives manyLabels (.production P) ts) ∧
    (p.acceptsDeclarations = true →
      ∃ tss : List (List Lexeme), Lexeme.significant p.source = tss.flatten ∧
        ∀ ts ∈ tss, Derives manyLabels (.production .declaration) ts) := by
  constructor
  · intro P haccept
    have hrun := runs_perform p.preferences p.room (P.productive p.preferences) p.state
    rw [Parser.answer_apply] at haccept
    rw [haccept] at hrun
    simpa using P.sound p.preferences p.room hrun
  · intro haccept
    have hrun := runs_perform p.preferences p.limits.maxDepth productive_declarations p.start
    rw [Parser.acceptsDeclarations] at haccept
    rw [haccept] at hrun
    exact derives_declarations hrun

section Labels

/-- A statement with two labels. -/
def twiceLabelled : Parser :=
  .new .development {} (Bytes.ofAscii "outer: inner: x = 1;".toList)

/-- A structure with a constructor and a procedure with a template name. -/
def smallProgram : Parser :=
  .new .development {} (Bytes.ofAscii "struct s \x7b s() \x7b\x7d \x7d; void f(s<1> x) \x7b a: b: x = 1; \x7d".toList)

theorem derives_of_accepted_smallProgram :
    (∃ ts, twiceLabelled.state.rest = ts ++ [] ∧
      Derives manyLabels (.production .statement) ts) ∧
    ∃ tss : List (List Lexeme), Lexeme.significant smallProgram.source = tss.flatten ∧
      ∀ ts ∈ tss, Derives manyLabels (.production .declaration) ts := by
  constructor
  · have hrest : (twiceLabelled.apply statement).2.state.rest = [] := by decide +kernel
    rw [← hrest]
    exact (derives_of_accepted twiceLabelled).1 .statement (by decide +kernel)
  · exact (derives_of_accepted smallProgram).2 (by decide +kernel)

/-- The expression derives no lexeme of the kind, as far as the productions in
`inner` derive none. -/
def Ebnf.Omits (k : Kind) (inner : Production → Prop) : Ebnf → Prop
  | empty => True
  | kind l => l ≠ k
  | word _ => k ≠ .identifier
  | sequence g h | choice g h => g.Omits k inner ∧ h.Omits k inner
  | optional g | repeated g => g.Omits k inner
  | named next => k ≠ .identifier ∧ ∀ name, (next name).Omits k inner
  | production p => inner p

theorem Derives.kind_ne {rules : Production → Ebnf} {k : Kind} {inner : Production → Prop}
    (hinner : ∀ p, inner p → (rules p).Omits k inner) {g : Ebnf} {ts : List Lexeme}
    (h : Derives rules g ts) (hg : g.Omits k inner) : ∀ x ∈ ts, x.kind ≠ k := by
  induction h with
  | empty | absent | none => simp
  | kind hx => simpa [hx, Ebnf.Omits] using hg
  | word hx => simpa [hx] using hg.symm
  | sequence _ _ ihg ihh =>
    intro x hx
    rcases List.mem_append.1 hx with hx | hx
    · exact ihg hg.1 x hx
    · exact ihh hg.2 x hx
  | left _ ih => exact ih hg.1
  | right _ ih => exact ih hg.2
  | present _ ih => exact ih hg
  | more _ _ ihg ihs =>
    intro x hx
    rcases List.mem_append.1 hx with hx | hx
    · exact ihg hg x hx
    · exact ihs hg x hx
  | named hx _ ih =>
    intro y hy
    rcases List.mem_cons.1 hy with rfl | hy
    · exact hx ▸ hg.1.symm
    · exact ih (hg.2 _) y hy
  | @production p _ _ ih => exact ih (hinner p hg)

/-- The productions without colons that a statement may begin with. -/
def Production.colonFree : Production → Bool
  | .literal | .basicType | .additiveList | .templateArguments | .expressionList | .expression
  | .disjunction | .conjunction | .equality | .relational | .additive | .multiplicative
  | .prefixExpr | .postfixExpr | .primary | .simple | .assignment | .construction
  | .initialization => true
  | _ => false

theorem omits_colon {p : Production} (hp : p.colonFree = true) :
    (published p).Omits .colon (·.colonFree = true) := by
  cases p <;> simp only [Production.colonFree, reduceCtorEq] at hp <;>
    simp [published, Ebnf.Omits, Ebnf.oneOf, Ebnf.inOrder, Ebnf.separated, Ebnf.operators,
      Ebnf.within, Ebnf.keyword, Production.colonFree]

/-- What begins with a word begins with that word. -/
theorem Derives.text_eq {rules : Production → Ebnf} {w : Bytes} {g : Ebnf} {x : Lexeme}
    {ts : List Lexeme} (h : Derives rules (.sequence (.word w) g) (x :: ts)) : x.text = w := by
  generalize hus : x :: ts = us at h
  cases h with
  | sequence hw _ =>
    cases hw with
    | word hx hw =>
      simp only [List.singleton_append, List.cons.injEq] at hus
      exact hus.1 ▸ hw

/-- What begins with a kind begins with a lexeme of that kind. -/
theorem Derives.kind_eq {rules : Production → Ebnf} {k : Kind} {g : Ebnf} {x : Lexeme}
    {ts : List Lexeme} (h : Derives rules (.sequence (.kind k) g) (x :: ts)) : x.kind = k := by
  generalize hus : x :: ts = us at h
  cases h with
  | sequence hk _ =>
    cases hk with
    | kind hk =>
      simp only [List.singleton_append, List.cons.injEq] at hus
      exact hus.1 ▸ hk

/-- A choice of productions derives what one of them does. -/
theorem Derives.exists_of_oneOf {rules : Production → Ebnf} {p : Production}
    {ps : List Production} {ts : List Lexeme}
    (h : Derives rules (.oneOf (.production p) (ps.map .production)) ts) :
    ∃ q ∈ p :: ps, Derives rules (rules q) ts := by
  induction ps generalizing p with
  | nil =>
    cases h with
    | production h => exact ⟨p, by simp, h⟩
  | cons q ps ih =>
    cases h with
    | left h =>
      cases h with
      | production h => exact ⟨p, by simp, h⟩
    | right h =>
      obtain ⟨q', hq', h⟩ := ih h
      exact ⟨q', List.mem_cons_of_mem p hq', h⟩

/-- A statement that begins with a label is none of the forms without one. -/
theorem not_derives_unlabelled {x c : Lexeme} {ts : List Lexeme} (hx : x.kind = .identifier)
    (hw : ∀ w : Keyword, x.text ≠ w.bytes) (hc : c.kind = .colon) :
    ¬ Derives published unlabelled (x :: c :: ts) := by
  intro h
  obtain ⟨p, hp, h⟩ := Derives.exists_of_oneOf
    (show Derives published (.oneOf (.production .simple) ([.assignment, .construction, .control,
      .typeDefinition].map .production)) _ from h)
  have hfree : p.colonFree = false := by
    refine Bool.eq_false_iff.2 fun hfree => ?_
    exact h.kind_ne (fun _ => omits_colon) (omits_colon hfree) c (by simp) hc
  simp only [List.mem_cons, List.not_mem_nil, or_false] at hp
  rcases hp with rfl | rfl | rfl | rfl | rfl <;> try cases hfree
  · obtain ⟨q, hq, h⟩ := Derives.exists_of_oneOf
      (show Derives published (.oneOf (.production .returnStatement) ([.conditional,
        .switchStatement, .whileStatement, .doStatement, .compound, .breakStatement,
        .gotoStatement].map .production)) _ from h)
    simp only [List.mem_cons, List.not_mem_nil, or_false] at hq
    rcases hq with rfl | rfl | rfl | rfl | rfl | rfl | rfl | rfl
    case inr.inr.inr.inr.inr.inl => exact absurd (hx.symm.trans h.kind_eq) (by decide)
    all_goals exact hw _ h.text_eq
  · exact hw _ h.text_eq

/-- Two labels on a statement are accepted, and the published rule derives one at most. -/
theorem not_derives_twiceLabelled :
    (twiceLabelled.apply statement).1 = true ∧
    (twiceLabelled.apply statement).2.state.rest = [] ∧
    ¬ Derives published (.production .statement) twiceLabelled.state.rest := by
  refine ⟨by decide +kernel, by decide +kernel, ?_⟩
  obtain ⟨o, c, i, d, ts, hts, ho, hi, hc, hd, how, hiw⟩ : ∃ o c i d ts,
      twiceLabelled.state.rest = o :: c :: i :: d :: ts ∧ o.kind = .identifier ∧
      i.kind = .identifier ∧ c.kind = .colon ∧ d.kind = .colon ∧
      (∀ w ∈ Keyword.all, o.text ≠ w.bytes) ∧ ∀ w ∈ Keyword.all, i.text ≠ w.bytes :=
    ⟨⟨.identifier, 0, Bytes.ofAscii ['o', 'u', 't', 'e', 'r']⟩, ⟨.colon, 5, [58]⟩,
      ⟨.identifier, 7, Bytes.ofAscii ['i', 'n', 'n', 'e', 'r']⟩, ⟨.colon, 12, [58]⟩,
      twiceLabelled.state.rest.drop 4, by decide +kernel⟩
  rw [hts]
  intro h
  generalize hus : o :: c :: i :: d :: ts = us at h
  cases h with
  | production h =>
    cases h with
    | sequence hl hu =>
      cases hl with
      | absent =>
        subst hus
        exact not_derives_unlabelled ho (fun w => how w (Keyword.mem_all w)) hc hu
      | present hl =>
        cases hl with
        | sequence hx hy =>
          cases hx
          cases hy
          simp only [List.cons_append, List.nil_append, List.cons.injEq] at hus
          obtain ⟨-, -, rfl⟩ := hus
          exact not_derives_unlabelled hi (fun w => hiw w (Keyword.mem_all w)) hd hu

end Labels
end Recognizer.Grammar
