import Recognizer.Grammar.Production

/-!
# Demands on rules

What a rule can do is often read off its parts: which lexemes it takes, which
productions it calls, whether it gives lexemes back. A demand says what each part
has to be like, and `Rule.Meets` that all parts of a rule are so. The rules of
the grammar are productive: their loops end.
-/
namespace Recognizer.Grammar

/-- A test asks for a lexeme when it fails at the end. -/
def Test.wantsLexeme : Test → Bool
  | kind _ | oneOf _ | word _ | known => true
  | finish | negate _ => false
  | both t u => t.wantsLexeme || u.wantsLexeme

namespace Test

variable {t u : Test}

@[simp] theorem wantsLexeme_kind {k : Kind} : (kind k).wantsLexeme = true := rfl
@[simp] theorem wantsLexeme_oneOf {ks : List Kind} : (oneOf ks).wantsLexeme = true := rfl
@[simp] theorem wantsLexeme_word {w : Bytes} : (word w).wantsLexeme = true := rfl
@[simp] theorem wantsLexeme_keyword {w : Keyword} : (keyword w).wantsLexeme = true := rfl
@[simp] theorem wantsLexeme_known : known.wantsLexeme = true := rfl
@[simp] theorem wantsLexeme_finish : finish.wantsLexeme = false := rfl
@[simp] theorem wantsLexeme_negate : t.negate.wantsLexeme = false := rfl
@[simp] theorem wantsLexeme_both :
    (t.both u).wantsLexeme = (t.wantsLexeme || u.wantsLexeme) := rfl

end Test

namespace Rule

/-- An accepting run of the rule consumes a lexeme, provided that accepting
calls do. -/
def consumes : Rule → Bool
  | accept | peek _ | loop _ _ => false
  | reject | declare _ _ | call _ => true
  | take t => t.wantsLexeme
  | branch first yes no => (first.consumes || yes.consumes) && no.consumes
  | attempt r | enclosed r => r.consumes

/-- What is asked of the parts of a rule. -/
structure Demand where
  /-- Of the tests of the lexemes that are taken. -/
  take : Test → Prop := fun _ => True
  /-- Of the bodies of loops. -/
  loop : Rule → Prop := fun _ => True
  /-- Of the productions that are called. -/
  call : Guarded → Prop := fun _ => True
  /-- Whether lexemes may be given back. -/
  attempt : Prop := True
  /-- Whether names may be declared. -/
  declare : Prop := True
  /-- Whether scopes may be opened. -/
  enclosed : Prop := True

/-- All parts of the rule are as demanded. -/
def Meets (d : Demand) : Rule → Prop
  | accept | reject | peek _ => True
  | take t => d.take t
  | branch first yes no => first.Meets d ∧ yes.Meets d ∧ no.Meets d
  | attempt r => d.attempt ∧ r.Meets d
  | loop _ r => d.loop r ∧ r.Meets d
  | declare _ next => d.declare ∧ ∀ name, (next name).Meets d
  | enclosed r => d.enclosed ∧ r.Meets d
  | call g => d.call g

/-- Every lexeme that is taken is there, and every round of every loop consumes
one. -/
def Demand.productive : Demand where
  take t := t.wantsLexeme = true
  loop r := r.consumes = true

namespace Demand

@[simp] theorem take_productive {t : Test} : productive.take t ↔ t.wantsLexeme = true := Iff.rfl
@[simp] theorem loop_productive {r : Rule} : productive.loop r ↔ r.consumes = true := Iff.rfl
@[simp] theorem call_productive {g : Guarded} : productive.call g := trivial
@[simp] theorem attempt_productive : productive.attempt := trivial
@[simp] theorem declare_productive : productive.declare := trivial
@[simp] theorem enclosed_productive : productive.enclosed := trivial

end Demand

variable {r q : Rule} {t : Test} {k l : Kind} {ks : List Kind} {rs : List Rule}

@[simp] theorem consumes_accept : accept.consumes = false := rfl
@[simp] theorem consumes_reject : reject.consumes = true := rfl
@[simp] theorem consumes_peek : (peek t).consumes = false := rfl
@[simp] theorem consumes_take : (take t).consumes = t.wantsLexeme := rfl
@[simp] theorem consumes_branch {first : Rule} :
    (branch first r q).consumes = ((first.consumes || r.consumes) && q.consumes) := rfl
@[simp] theorem consumes_attempt : (attempt r).consumes = r.consumes := rfl
@[simp] theorem consumes_enclosed : (enclosed r).consumes = r.consumes := rfl
@[simp] theorem consumes_loop : (loop t r).consumes = false := rfl
@[simp] theorem consumes_declare {kind : Symbol.Kind} {next : Bytes → Rule} :
    (declare kind next).consumes = true := rfl
@[simp] theorem consumes_call {g : Guarded} : (call g).consumes = true := rfl
@[simp] theorem consumes_andThen : (r.andThen q).consumes = (r.consumes || q.consumes) := by
  simp [andThen]
@[simp] theorem consumes_orElse : (r.orElse q).consumes = (r.consumes && q.consumes) := by
  simp [orElse]
@[simp] theorem consumes_when : (Rule.when t r q).consumes = (r.consumes && q.consumes) := by
  simp [Rule.when]
@[simp] theorem consumes_kind : (kind k).consumes = true := rfl
@[simp] theorem consumes_keyword (w : Keyword) : (keyword w).consumes = true := rfl
@[simp] theorem consumes_word (w : Bytes) : (word w).consumes = true := rfl
@[simp] theorem consumes_anyKind : (anyKind ks).consumes = true := rfl
@[simp] theorem consumes_separated : (separated r).consumes = r.consumes := by
  simp [separated]
@[simp] theorem consumes_operators : (operators r ks).consumes = r.consumes := by
  simp [operators]
@[simp] theorem consumes_inOrder_cons :
    (inOrder (r :: rs)).consumes = (r.consumes || (inOrder rs).consumes) := by
  cases rs <;> simp [inOrder]
@[simp] theorem consumes_delimited : (delimited k r l).consumes = true := by simp [delimited]

variable {d : Demand}

@[simp] theorem meets_accept : accept.Meets d := trivial
@[simp] theorem meets_reject : reject.Meets d := trivial
@[simp] theorem meets_peek : (peek t).Meets d := trivial
@[simp] theorem meets_branch {first : Rule} : (branch first r q).Meets d ↔
    first.Meets d ∧ r.Meets d ∧ q.Meets d := Iff.rfl
@[simp] theorem meets_andThen : (r.andThen q).Meets d ↔ r.Meets d ∧ q.Meets d := by
  simp [andThen]
@[simp] theorem meets_orElse : (r.orElse q).Meets d ↔ r.Meets d ∧ q.Meets d := by
  simp [orElse]
@[simp] theorem meets_optional : (optional r).Meets d ↔ r.Meets d := by
  simp [optional]
@[simp] theorem meets_when : (Rule.when t r q).Meets d ↔ r.Meets d ∧ q.Meets d := by
  simp [Rule.when]
@[simp] theorem meets_kind : (kind k).Meets d ↔ d.take (.kind k) := Iff.rfl
@[simp] theorem meets_keyword {w : Keyword} : (keyword w).Meets d ↔ d.take (.word w.bytes) :=
  Iff.rfl
@[simp] theorem meets_word {w : Bytes} : (word w).Meets d ↔ d.take (.word w) := Iff.rfl
@[simp] theorem meets_anyKind : (anyKind ks).Meets d ↔ d.take (.oneOf ks) := Iff.rfl
@[simp] theorem meets_take : (take t).Meets d ↔ d.take t := Iff.rfl
@[simp] theorem meets_call {g : Guarded} : (call g).Meets d ↔ d.call g := Iff.rfl
@[simp] theorem meets_attempt : (attempt r).Meets d ↔ d.attempt ∧ r.Meets d := Iff.rfl
@[simp] theorem meets_enclosed : (enclosed r).Meets d ↔ d.enclosed ∧ r.Meets d := Iff.rfl
@[simp] theorem meets_loop : (loop t r).Meets d ↔ d.loop r ∧ r.Meets d := Iff.rfl
@[simp] theorem meets_declare {kind : Symbol.Kind} {next : Bytes → Rule} :
    (declare kind next).Meets d ↔ d.declare ∧ ∀ name, (next name).Meets d := Iff.rfl
@[simp] theorem meets_inOrder_cons :
    (inOrder (r :: rs)).Meets d ↔ r.Meets d ∧ (inOrder rs).Meets d := by
  cases rs <;> simp [inOrder]
@[simp] theorem meets_inOrder_nil : (inOrder []).Meets d := trivial
@[simp] theorem meets_oneOf_cons :
    (oneOf (r :: rs)).Meets d ↔ r.Meets d ∧ (oneOf rs).Meets d := by
  cases rs <;> simp [oneOf]
@[simp] theorem meets_oneOf_nil : (oneOf []).Meets d := trivial

@[simp] theorem productive_separated :
    (separated r).Meets .productive ↔ r.Meets .productive := by
  simp [separated]
@[simp] theorem productive_operators :
    (operators r ks).Meets .productive ↔ r.Meets .productive := by
  simp [operators]
@[simp] theorem productive_delimited :
    (delimited k r l).Meets .productive ↔ r.Meets .productive := by
  simp [delimited]

end Rule

section Productive

open Rule

variable {prefs : GrammarPreferences} {name : Bytes}

theorem consumes_prefixExpr : prefixExpr.consumes = true := by
  simp [prefixExpr, postfixExpr, primary, templateName, literal, basicType, Rule.oneOf,
    templateArguments]

/-- Accepting calls consume a lexeme. -/
theorem consumes_body (g : Guarded) : (body prefs g).consumes = true := by
  cases g <;>
    simp [body, disjunction, conjunction, equality, relational, additive, multiplicative,
      consumes_prefixExpr, closedAdditiveList, statementBody, Rule.oneOf, label, simple,
      assignment, construction, control, returnStatement, conditional, switchStatement,
      whileStatement, doStatement, compound, breakStatement, gotoStatement, typeDefinition,
      statement, expression, declarationBody, enumeration, structureDeclaration, template,
      templateHeader, procedure, procedureName, overloadableOperator, apply_ite]

@[simp] theorem productive_expression : expression.Meets .productive := trivial
@[simp] theorem productive_statement : statement.Meets .productive := trivial

@[simp] theorem productive_primary : primary.Meets .productive := by
  simp [primary, templateName, literal, basicType, templateArguments, expression]

@[simp] theorem productive_arguments : arguments.Meets .productive := by
  simp [arguments, expression]

@[simp] theorem productive_postfixExpr : postfixExpr.Meets .productive := by
  have hpart : suffixPart.consumes = true := by
    simp [suffixPart, arguments]
  have hmeets : suffixPart.Meets .productive := by
    simp [suffixPart, expression]
  simp [postfixExpr, hmeets, hpart]

@[simp] theorem productive_prefixExpr : prefixExpr.Meets .productive := by
  simp [prefixExpr]

@[simp] theorem productive_additive : additive.Meets .productive := by
  simp [additive, multiplicative]

@[simp] theorem productive_disjunction : disjunction.Meets .productive := by
  simp [disjunction, conjunction, equality, relational]

@[simp] theorem productive_compound : compound.Meets .productive := by
  simp [compound, upTo, statement]

@[simp] theorem productive_initialization : (initialization prefs).Meets .productive := by
  have h : initialValue.Meets .productive := by
    simp [initialValue, expressionList, expression]
  unfold initialization
  split <;> simp [h]

@[simp] theorem productive_construction : (construction prefs).Meets .productive := by
  simp [construction, expression]

@[simp] theorem productive_typeDefinition : typeDefinition.Meets .productive := by
  simp [typeDefinition, expression]

@[simp] theorem consumes_caseClause : caseClause.consumes = true := by simp [caseClause]

@[simp] theorem productive_caseClause : caseClause.Meets .productive := by
  simp [caseClause, expression, statement]

@[simp] theorem productive_control : (control prefs).Meets .productive := by
  have hgoto : (if prefs.allowGoto then Rule.when (.keyword .goto) gotoStatement .reject
      else .reject).Meets .productive := by
    split <;> simp [gotoStatement]
  simp [control, hgoto, returnStatement, conditional, condition, switchStatement,
    whileStatement, doStatement, breakStatement, expression, statement]

@[simp] theorem productive_statementBody : (statementBody prefs).Meets .productive := by
  simp [statementBody, label, simple, assignment, expression, statement]

@[simp] theorem productive_parameters : parameters.Meets .productive := by
  simp [parameters, parameter, expression]

@[simp] theorem productive_member : (member name).Meets .productive := by
  simp [member, constructor, destructor, dataMember, assignOperator, applyOperator,
    indexOperator, singleParameter, parameter, initializerList, initializer, expression]

@[simp] theorem productive_structureBody : (structureBody name).Meets .productive := by
  have hmember : (member name).consumes = true := by
    simp [member, constructor, destructor, typeDefinition, dataMember, assignOperator,
      applyOperator, indexOperator, Rule.oneOf, expression]
  simp [structureBody, upTo, hmember]

@[simp] theorem productive_structureDeclaration : structureDeclaration.Meets .productive := by
  simp [structureDeclaration]

@[simp] theorem productive_specialization : specialization.Meets .productive := by
  simp [specialization, templateArguments]

@[simp] theorem productive_procedure : procedure.Meets .productive := by
  simp [procedure, procedureName, overloadableOperator, expression]

@[simp] theorem productive_templateHeader : templateHeader.Meets .productive := by
  simp [templateHeader, parameterList, parameter, condition, expression]

@[simp] theorem productive_template : template.Meets .productive := by
  simp [template]

/-- The bodies of the guarded productions are productive. -/
theorem productive_body (g : Guarded) : (body prefs g).Meets .productive := by
  cases g with
  | expression => exact productive_disjunction
  | statement => exact productive_statementBody
  | declaration =>
    simp [body, declarationBody, enumeration]
  | templateArguments =>
    simp [body, closedAdditiveList, additiveList]

end Productive

end Recognizer.Grammar
