import Recognizer.Proofs.Progress
import Recognizer.Proofs.Resumption
import Recognizer.Proofs.Stray

/-!
# Lexemes that no production takes

A byte outside the alphabet is a lexeme, and so is a single vertical bar, but no production
takes either of them. Nothing that is read goes past the first of them, whatever is accepted
or rejected before it, so a source that has one is not a program, and the error that is
reported lies at or before it. That holds of parsers put inside a lexeme as well: among bars
they may read pairs that the source does not have, but no production begins with such a pair.
-/
namespace Recognizer

open Grammar

namespace Grammar

/-- No lexeme of a foreign kind is taken. -/
def Rule.Demand.sparing : Demand where
  take t := t.refuses Kind.foreign = true

namespace Rule.Demand

@[simp] theorem take_sparing {t : Test} : sparing.take t ↔ t.refuses Kind.foreign = true := Iff.rfl
@[simp] theorem loop_sparing {r : Rule} : sparing.loop r := trivial
@[simp] theorem call_sparing {g : Guarded} : sparing.call g := trivial
@[simp] theorem attempt_sparing : sparing.attempt := trivial
@[simp] theorem declare_sparing : sparing.declare := trivial
@[simp] theorem enclosed_sparing : sparing.enclosed := trivial

end Rule.Demand

section Sparing

open Rule

variable {prefs : GrammarPreferences} {name : Bytes}

@[simp] theorem sparing_separated {r : Rule} :
    (separated r).Meets .sparing ↔ r.Meets .sparing := by
  simp [separated, Test.refuses, Kind.foreign]

@[simp] theorem sparing_delimited {r : Rule} {opening closing : Kind} :
    (delimited opening r closing).Meets .sparing ↔
      opening ∉ Kind.foreign ∧ r.Meets .sparing ∧ closing ∉ Kind.foreign := by
  simp [delimited, Test.refuses]

@[simp] theorem sparing_operators {r : Rule} {ks : List Kind} :
    (operators r ks).Meets .sparing ↔
      r.Meets .sparing ∧ (Test.oneOf ks).refuses Kind.foreign = true := by
  simp +contextual [operators]

@[simp] theorem sparing_primary : primary.Meets .sparing := by
  simp [primary, templateName, literal, basicType, templateArguments, expression, Test.refuses,
    Kind.foreign]

@[simp] theorem sparing_postfixExpr : postfixExpr.Meets .sparing := by
  simp [postfixExpr, suffixPart, arguments, expression, Test.refuses, Kind.foreign]

@[simp] theorem sparing_prefixExpr : prefixExpr.Meets .sparing := by
  simp [prefixExpr, Test.refuses, Kind.foreign]

@[simp] theorem sparing_additive : additive.Meets .sparing := by
  simp [additive, multiplicative, Test.refuses, Kind.foreign]

@[simp] theorem sparing_disjunction : disjunction.Meets .sparing := by
  simp [disjunction, conjunction, equality, relational, Test.refuses, Kind.foreign]

@[simp] theorem sparing_compound : compound.Meets .sparing := by
  simp [compound, upTo, statement, Test.refuses, Kind.foreign]

@[simp] theorem sparing_initialization : (initialization prefs).Meets .sparing := by
  unfold initialization
  split <;> simp [initialValue, expressionList, expression, Test.refuses, Kind.foreign]

@[simp] theorem sparing_control : (control prefs).Meets .sparing := by
  have hgoto : (if prefs.allowGoto then Rule.when (.keyword .goto) gotoStatement .reject
      else .reject).Meets .sparing := by
    split <;> simp [gotoStatement, Test.refuses, Kind.foreign]
  simp [control, hgoto, returnStatement, conditional, condition, switchStatement, caseClause,
    whileStatement, doStatement, breakStatement, expression, statement, Test.refuses,
    Kind.foreign]

@[simp] theorem sparing_typeDefinition : typeDefinition.Meets .sparing := by
  simp [typeDefinition, expression, Test.refuses, Kind.foreign]

@[simp] theorem sparing_parameter : parameter.Meets .sparing := by
  simp [parameter, expression, Test.refuses, Kind.foreign]

@[simp] theorem sparing_parameters : parameters.Meets .sparing := by
  simp [parameters, Kind.foreign]

@[simp] theorem sparing_member : (member name).Meets .sparing := by
  simp [member, constructor, destructor, initializerList, initializer, arguments, dataMember,
    assignOperator, applyOperator, indexOperator, singleParameter, expression, Test.refuses,
    Kind.foreign]

@[simp] theorem sparing_structureBody : (structureBody name).Meets .sparing := by
  simp [structureBody, upTo, Test.refuses, Kind.foreign]

@[simp] theorem sparing_structureDeclaration : structureDeclaration.Meets .sparing := by
  simp [structureDeclaration, Test.refuses, Kind.foreign]

@[simp] theorem sparing_specialization : specialization.Meets .sparing := by
  simp [specialization, templateArguments, Test.refuses, Kind.foreign]

@[simp] theorem sparing_procedure : procedure.Meets .sparing := by
  simp [procedure, procedureName, overloadableOperator, expression, Test.refuses, Kind.foreign]

@[simp] theorem sparing_template : template.Meets .sparing := by
  simp [template, templateHeader, parameterList, condition, expression, Test.refuses,
    Kind.foreign]

/-- The bodies of the guarded productions take no foreign lexeme. -/
theorem sparing_body (g : Guarded) : (body prefs g).Meets .sparing := by
  cases g with
  | expression => exact sparing_disjunction
  | statement =>
    simp [body, statementBody, label, simple, assignment, construction, expression, statement,
      Test.refuses, Kind.foreign]
  | declaration =>
    simp [body, declarationBody, enumeration, Test.refuses, Kind.foreign]
  | templateArguments =>
    simp [body, closedAdditiveList, additiveList, Test.refuses, Kind.foreign]

/-- No production takes a foreign lexeme. -/
theorem Production.sparing (p : Production) : (p.rule prefs).Meets .sparing := by
  cases p <;>
    simp [rule, Grammar.literal, Grammar.basicType, Grammar.overloadableOperator,
      Grammar.additiveList, Grammar.templateArguments, Grammar.expressionList,
      Grammar.parameterList, Grammar.initializerList, Grammar.arguments, Grammar.expression,
      Grammar.conjunction, Grammar.equality, Grammar.relational, Grammar.multiplicative,
      Grammar.statement, Grammar.simple, Grammar.assignment, Grammar.construction,
      Grammar.returnStatement, Grammar.conditional, Grammar.condition, Grammar.switchStatement,
      Grammar.caseClause, Grammar.whileStatement, Grammar.doStatement, Grammar.breakStatement,
      Grammar.gotoStatement, Grammar.declaration, Grammar.enumeration, Grammar.dataMember,
      Grammar.assignOperator, Grammar.applyOperator, Grammar.indexOperator,
      Grammar.singleParameter, Grammar.initializer, Grammar.procedureName,
      Grammar.templateHeader, Grammar.constructor, Grammar.destructor, Test.refuses, Kind.foreign]

theorem sparing_declarations : declarations.Meets .sparing := by
  simp [declarations, declaration]

end Sparing

/-! ### Lexemes that begin no production -/

/-- The rule takes nothing where a lexeme of one of the kinds is next. What comes behind a rule
that would have consumed a lexeme does not count. -/
def Rule.Balks (ks : List Kind) : Rule → Prop
  | accept | reject | peek _ | call _ => True
  | take t => t.refuses ks = true
  | declare _ _ => .identifier ∉ ks
  | branch first yes no => first.Balks ks ∧ (first.consumes = true ∨ yes.Balks ks) ∧ no.Balks ks
  | attempt r | enclosed r | loop _ r => r.Balks ks

namespace Rule

variable {ks : List Kind} {r q : Rule} {t : Test} {rs : List Rule}

@[simp] theorem balks_accept : accept.Balks ks := trivial
@[simp] theorem balks_reject : reject.Balks ks := trivial
@[simp] theorem balks_peek : (peek t).Balks ks := trivial
@[simp] theorem balks_call {g : Guarded} : (call g).Balks ks := trivial
@[simp] theorem balks_take : (take t).Balks ks ↔ t.refuses ks = true := Iff.rfl
@[simp] theorem balks_kind {k : Kind} : (kind k).Balks ks ↔ k ∉ ks := by simp [kind, Test.refuses]
@[simp] theorem balks_keyword {w : Keyword} : (keyword w).Balks ks ↔ .identifier ∉ ks := by
  simp [keyword, Test.keyword, Test.refuses]
@[simp] theorem balks_word {w : Bytes} : (word w).Balks ks ↔ .identifier ∉ ks := by
  simp [word, Test.refuses]
@[simp] theorem balks_anyKind {ls : List Kind} :
    (anyKind ls).Balks ks ↔ (Test.oneOf ls).refuses ks = true := Iff.rfl
@[simp] theorem balks_declare {k : Symbol.Kind} {next : Bytes → Rule} :
    (declare k next).Balks ks ↔ .identifier ∉ ks := Iff.rfl
@[simp] theorem balks_attempt : (attempt r).Balks ks ↔ r.Balks ks := Iff.rfl
@[simp] theorem balks_loop : (loop t r).Balks ks ↔ r.Balks ks := Iff.rfl
@[simp] theorem balks_branch {first : Rule} : (branch first r q).Balks ks ↔
    first.Balks ks ∧ (first.consumes = true ∨ r.Balks ks) ∧ q.Balks ks := Iff.rfl
@[simp] theorem balks_andThen :
    (r.andThen q).Balks ks ↔ r.Balks ks ∧ (r.consumes = true ∨ q.Balks ks) := by
  simp [andThen]
@[simp] theorem balks_orElse : (r.orElse q).Balks ks ↔ r.Balks ks ∧ q.Balks ks := by
  simp [orElse]
@[simp] theorem balks_optional : r.optional.Balks ks ↔ r.Balks ks := by simp [optional]
@[simp] theorem balks_when : (Rule.when t r q).Balks ks ↔ r.Balks ks ∧ q.Balks ks := by
  simp [Rule.when, consumes]
@[simp] theorem balks_inOrder_cons : (inOrder (r :: rs)).Balks ks ↔
    r.Balks ks ∧ (r.consumes = true ∨ (inOrder rs).Balks ks) := by
  cases rs <;> simp [inOrder]
@[simp] theorem balks_oneOf_cons :
    (oneOf (r :: rs)).Balks ks ↔ r.Balks ks ∧ (oneOf rs).Balks ks := by
  cases rs <;> simp [oneOf]
@[simp] theorem balks_oneOf_nil : (oneOf []).Balks ks := trivial
@[simp] theorem balks_separated :
    (separated r).Balks ks ↔ r.Balks ks ∧ (r.consumes = true ∨ .comma ∉ ks) := by
  simp [separated]
@[simp] theorem balks_delimited {opening closing : Kind} :
    (delimited opening r closing).Balks ks ↔ opening ∉ ks := by
  simp [delimited]
@[simp] theorem balks_operators {ls : List Kind} (hr : r.consumes = true) :
    (operators r ls).Balks ks ↔ r.Balks ks := by
  simp [operators, hr]

end Rule

section Balks

open Rule

variable {prefs : GrammarPreferences} {name : Bytes}

@[simp] theorem balks_primary : primary.Balks Kind.secluded := by
  simp [primary, templateName, literal, basicType, templateArguments, Test.refuses]

@[simp] theorem balks_postfixExpr : postfixExpr.Balks Kind.secluded := by
  simp [postfixExpr, primary, templateName, literal, basicType, Rule.oneOf, consumes,
    Test.refuses, templateArguments]

@[simp] theorem balks_prefixExpr : prefixExpr.Balks Kind.secluded := by
  simp [prefixExpr]

@[simp] theorem balks_additive : additive.Balks Kind.secluded := by
  simp [additive, multiplicative, consumes_prefixExpr]

@[simp] theorem consumes_additive : additive.consumes = true := by
  simp [additive, multiplicative, consumes_prefixExpr]

@[simp] theorem balks_disjunction : disjunction.Balks Kind.secluded := by
  simp [disjunction, conjunction, equality, relational]

@[simp] theorem balks_initialization : (initialization prefs).Balks Kind.secluded := by
  unfold initialization
  split <;> simp [initialValue]

@[simp] theorem balks_control : (control prefs).Balks Kind.secluded := by
  have hgoto : (if prefs.allowGoto then Rule.when (.keyword .goto) gotoStatement .reject
      else .reject).Balks Kind.secluded := by
    split <;> simp [gotoStatement]
  simp [control, hgoto, returnStatement, conditional, switchStatement, whileStatement, doStatement,
    compound, breakStatement]

/-- No production that is called begins with a lexeme of a secluded kind. -/
theorem balks_body (g : Guarded) : (body prefs g).Balks Kind.secluded := by
  cases g with
  | expression => exact balks_disjunction
  | statement =>
    simp [body, statementBody, label, simple, assignment, construction, expression, statement,
      typeDefinition]
  | declaration =>
    simp [body, declarationBody, enumeration, structureDeclaration, template, templateHeader,
      procedure, expression, consumes]
  | templateArguments =>
    simp [body, closedAdditiveList, additiveList]

/-- And so does no production. -/
theorem Production.balks (p : Production) : (p.rule prefs).Balks Kind.secluded := by
  cases p <;>
    simp [rule, Grammar.literal, Grammar.basicType,
      Grammar.overloadableOperator, Grammar.additiveList, Grammar.templateArguments,
      Grammar.expressionList, Grammar.parameterList, Grammar.initializerList,
      Grammar.expression, Grammar.conjunction, Grammar.equality, Grammar.relational,
      Grammar.multiplicative, Grammar.parameter, Grammar.statement, Grammar.simple,
      Grammar.assignment, Grammar.returnStatement, Grammar.conditional,
      Grammar.switchStatement, Grammar.whileStatement, Grammar.doStatement,
      Grammar.breakStatement, Grammar.gotoStatement, Grammar.declaration, Grammar.enumeration,
      Grammar.dataMember, Grammar.assignOperator, Grammar.applyOperator, Grammar.indexOperator,
      Grammar.initializer, Grammar.procedureName, Grammar.constructor,
      Grammar.destructor, Grammar.member, Grammar.structureBody, Grammar.compound,
      Grammar.parameters, Grammar.arguments, Grammar.typeDefinition, Grammar.caseClause,
      Grammar.templateHeader, Grammar.template, Grammar.specialization, Grammar.procedure,
      Grammar.structureDeclaration, Grammar.construction, consumes_prefixExpr, Test.refuses]

theorem balks_declarations : declarations.Balks Kind.secluded := by
  simp [declarations, declaration]

end Balks

section Runs

variable {prefs : GrammarPreferences} {seen : Test → Prop} {n : Nat} {r : Rule} {s t : State}
  {b : Bool} {x : Lexeme} {after : List Lexeme}

theorem suffix_tail {xs : List Lexeme} (h : x :: after <:+ xs) (hx : xs.head? ≠ some x) :
    x :: after <:+ xs.tail := by
  cases xs with
  | nil => exact h
  | cons y rest =>
    rcases List.suffix_cons_iff.1 h with heq | h
    · obtain ⟨rfl, -⟩ := List.cons.inj heq
      exact absurd rfl hx
    · exact h

/-- A test that refuses the kind of a lexeme does not hold before it. -/
theorem State.head?_ne_of_passes {q : Test} {ks : List Kind} (hq : q.refuses ks = true)
    (hx : x.kind ∈ ks) (hp : s.passes q = true) : s.rest.head? ≠ some x := by
  intro hhead
  obtain ⟨rest, hrest⟩ := List.head?_eq_some_iff.1 hhead
  rw [passes, hrest, Test.holds_of_refuses hq hx] at hp
  cases hp

/-- Nor does a name stand there. -/
theorem State.head?_ne_of_identifier? {name : Bytes} (hx : x.kind ≠ .identifier)
    (h : s.identifier? = some name) : s.rest.head? ≠ some x := by
  obtain ⟨y, hrest, hy⟩ := State.rest_of_identifier? h
  rw [hrest]
  rintro ⟨rfl⟩
  exact hx hy

/-- No run goes past a foreign lexeme. -/
theorem Runs.spares (h : Runs (body prefs) seen n r s b t) (hr : r.Meets .sparing)
    (hx : x.kind ∈ Kind.foreign) (hs : x :: after <:+ s.rest) : x :: after <:+ t.rest := by
  induction h with
  | accept | reject | peek | miss | done | nameless | refuse | refused | restore => exact hs
  | take _ hp => exact suffix_tail hs (State.head?_ne_of_passes hr hx hp)
  | yes _ _ ihf ihy => exact ihy hr.2.1 (ihf hr.1 hs)
  | no _ _ ihf ihn => exact ihn hr.2.2 (ihf hr.1 hs)
  | keep _ ih => exact ih hr.2 hs
  | again _ _ _ _ ihb ihl => exact ihl hr (ihb hr.2 hs)
  | stop _ _ _ ih => exact ih hr.2 hs
  | declare hname _ ih =>
    have hne : x.kind ≠ .identifier := ne_of_mem_of_not_mem hx (by decide)
    exact ih (hr.2 _) (suffix_tail hs (State.head?_ne_of_identifier? hne hname))
  | enclosed _ ih => exact ih hr.2 hs
  | call _ _ ih => exact ih (sparing_body _) hs

/-- Where a lexeme of one of the kinds is next, a rule that takes nothing there stays. -/
theorem Runs.stays {ks : List Kind} (h : Runs (body prefs) seen n r s b t) (hr : r.Balks ks)
    (hbody : ∀ g, (body prefs g).Balks ks) (hx : x.kind ∈ ks) (hs : s.rest.head? = some x) :
    t.rest = s.rest := by
  induction h with
  | accept | reject | peek | miss | done | nameless | refuse | refused | restore => rfl
  | take _ hp => exact absurd hs (State.head?_ne_of_passes hr hx hp)
  | yes hf _ ihf ihy =>
    obtain ⟨hfirst, hnext, -⟩ := hr
    have hm := ihf hfirst hs
    rcases hnext with hconsumes | hnext
    · have hlt := hf.length_lt consumes_body rfl hconsumes
      rw [hm] at hlt
      exact absurd hlt (Nat.lt_irrefl _)
    · exact (ihy hnext (hm ▸ hs)).trans hm
  | no _ _ ihf ihn =>
    have hm := ihf hr.1 hs
    exact (ihn hr.2.2 (hm ▸ hs)).trans hm
  | keep _ ih | enclosed _ ih => exact ih hr hs
  | again _ _ _ _ ihb ihl =>
    have hm := ihb hr hs
    exact (ihl hr (hm ▸ hs)).trans hm
  | stop _ _ _ ih => exact ih hr hs
  | declare hname =>
    have hne : x.kind ≠ .identifier := ne_of_mem_of_not_mem hx hr
    exact absurd hs (State.head?_ne_of_identifier? hne hname)
  | call _ _ ih => exact ih (hbody _) hs

/-- The way to the end is barred: the lexeme is still to come, or one of a secluded kind is
next. -/
def State.Barred (x : Lexeme) (s : State) : Prop :=
  x ∈ s.rest ∨ ∃ y, s.rest.head? = some y ∧ y.kind ∈ Kind.secluded

/-- A run does not go past a foreign lexeme that bars its way, and not to the end. -/
theorem Runs.stops_before {source : Bytes} (h : Runs (body prefs) seen n r s b t)
    (hr : r.Meets .sparing) (hbalks : r.Balks Kind.secluded) (hx : x.kind ∈ Kind.foreign)
    (hanchored : s.Anchored source) (hs : s.Barred x) (hle : s.position ≤ x.start) :
    t.position ≤ x.start ∧ t.rest ≠ [] := by
  rcases hs with hmem | ⟨y, hy, hyk⟩
  · obtain ⟨before, after, hrest⟩ := List.append_of_mem hmem
    have ht := h.spares hr hx ⟨before, hrest.symm⟩
    have hplace := (hanchored.suffix h.size_eq h.suffix).1
    refine ⟨(hplace.suffix (t := { t with rest := x :: after }) rfl ht).2.1, ?_⟩
    intro hnil
    rw [hnil] at ht
    exact absurd ht.length_le (by simp)
  · have hrest := h.stays hbalks balks_body hyk hy
    have hposition : t.position = s.position := by
      rw [State.position, State.position, hrest, h.size_eq]
    refine ⟨hposition ▸ hle, hrest ▸ ?_⟩
    rintro hnil
    simp [hnil] at hy

/-- From a place at or before its first foreign lexeme, the way is barred. -/
theorem State.Anchored.barred {source : Bytes} (h : s.Anchored source)
    (hmem : x ∈ Lexeme.significant source) (hx : x.kind ∈ Kind.foreign)
    (hle : s.position ≤ x.start) : s.Barred x := by
  rw [State.Barred, h.rest]
  rcases Lexeme.significantFrom_cases hmem hx hle with hmem | ⟨y, after, hy, hyk⟩
  · exact .inl hmem
  · exact .inr ⟨y, by rw [hy, List.head?_cons], hyk⟩

end Runs

end Grammar

/-- The first lexeme that no production takes. -/
def Lexeme.firstForeign? (xs : List Lexeme) : Option Lexeme :=
  xs.find? fun x => Kind.foreign.contains x.kind

/-- An error lies where reading stopped, if that is not the end. -/
theorem Recognition.verdict_of_rest_ne_nil {s : State} (hs : s.rest ≠ []) (limits : Limits)
    (source : Bytes) : ∃ e, verdict limits source s = .error e ∧ e.offset = s.position := by
  by_cases hdeep : s.overflow.isSome = true
  · exact ⟨_, by rw [verdict, if_pos hdeep], rfl⟩
  · exact ⟨_, by rw [verdict, if_neg hdeep, if_neg (by simpa using hs)], rfl⟩

/-- Nothing that is read goes past the first foreign lexeme of a source: from a place at or
before it, also from one inside a lexeme, every production and every program ends at or before
it, whether it accepts or rejects. So the source is not a program under any preferences, and
the error that is reported lies at or before that lexeme. -/
theorem foreign_not_passed (source : Bytes) (x : Lexeme)
    (h : Lexeme.firstForeign? (Lexeme.significant source) = some x) :
    (∀ p : Parser, p.source = source → p.state.Anchored source → p.position ≤ x.start →
      (∀ production : Production,
        (p.apply (production.rule p.preferences)).2.position ≤ x.start) ∧
      (p.run (program p.preferences)).1 = false ∧
      (p.run (program p.preferences)).2.position ≤ x.start) ∧
    ∀ (limits : Limits) (prefs : GrammarPreferences),
      (Parser.new limits prefs source).parseProgram.1 = false ∧
      (Parser.new limits prefs source).parseProgram.2.position ≤ x.start ∧
      ∃ e, (Recognition.ofSource limits prefs source).result = .error e ∧ e.offset ≤ x.start := by
  have hx : x.kind ∈ Kind.foreign := by simpa using List.find?_some h
  have hmem : x ∈ Lexeme.significant source := List.mem_of_find?_eq_some h
  constructor
  · rintro p rfl hp hle
    have hproduction (production : Production) :=
      (Parser.runs_apply (p := p) (production.productive p.preferences) rfl).stops_before
        production.sparing production.balks hx hp (hp.barred hmem hx hle) hle
    have hfresh : { p.state with table := .fresh }.Anchored p.source := ⟨hp.size, hp.rest⟩
    have hprogram := (runs_perform p.preferences p.room productive_declarations
      { p.state with table := .fresh }).stops_before sparing_declarations balks_declarations hx
        hfresh (hfresh.barred hmem hx hle) hle
    refine ⟨fun production => (hproduction production).1, ?_, ?_⟩
    · exact List.isEmpty_eq_false_iff.2 hprogram.2
    · rw [Parser.position, Parser.run, Parser.state_adopt]
      exact hprogram.1
  · intro limits prefs
    have hstart : (Parser.new limits prefs source).start.Anchored source :=
      Parser.anchored_start (p := Parser.new limits prefs source) rfl
    have hle : (Parser.new limits prefs source).start.position ≤ x.start := by
      obtain ⟨before, after, hrest⟩ := List.append_of_mem hmem
      exact (hstart.suffix (t := { (Parser.new limits prefs source).start with
        rest := x :: after }) rfl ⟨before, hrest.symm⟩).2.1
    have hend := (runs_perform prefs limits.maxDepth productive_declarations
      (Parser.new limits prefs source).start).stops_before sparing_declarations
        balks_declarations hx hstart (.inl hmem) hle
    rw [Recognition.result_eq_verdict, Parser.answer_parseProgram, Parser.position,
      Parser.state_parseProgram]
    obtain ⟨e, he, hoffset⟩ := Recognition.verdict_of_rest_ne_nil hend.2 limits source
    refine ⟨?_, hend.1, e, he, hoffset ▸ hend.1⟩
    rw [Bool.and_eq_false_iff]
    exact .inl (List.isEmpty_eq_false_iff.2 hend.2)

/-- Wherever a parser is put, it stands at a place of its source. -/
theorem Parser.anchored_restore {p : Parser} (h : p.state.size = p.source.length) (offset : Nat) :
    (p.restore offset).state.Anchored p.source := .of_significantFrom h rfl

/-- A procedure with three bars inside one of its expressions. -/
def barred : Bytes := Bytes.ofAscii "void f() { x = a ||| b; }".toList

/-- From behind the first of the bars the other two are read as a pair, which no production
takes, and from the expression that stands before the bars the third one is not passed. -/
theorem foreign_not_passed_barred :
    Lexeme.firstForeign? (Lexeme.significant barred) = some ⟨.pipe, 19, [124]⟩ ∧
    (∃ e, (Recognition.ofSource .development {} barred).result = .error e ∧ e.offset ≤ 19) ∧
    (((Parser.new .development {} barred).restore 15).apply expression).2.position ≤ 19 ∧
    (((Parser.new .development {} barred).restore 18).apply expression).2.position ≤ 19 := by
  have hfirst : Lexeme.firstForeign? (Lexeme.significant barred) = some ⟨.pipe, 19, [124]⟩ := by
    decide +kernel
  obtain ⟨hproductions, hprogram⟩ := foreign_not_passed barred _ hfirst
  have hanchored (offset : Nat) :
      ((Parser.new .development {} barred).restore offset).state.Anchored barred :=
    Parser.anchored_restore (p := Parser.new .development {} barred) rfl offset
  have hbefore : ((Parser.new .development {} barred).restore 15).position ≤ 19 := by
    decide +kernel
  have hinside : ((Parser.new .development {} barred).restore 18).position ≤ 19 := by
    decide +kernel
  exact ⟨hfirst, (hprogram .development {}).2.2,
    (hproductions _ rfl (hanchored 15) hbefore).1 .expression,
    (hproductions _ rfl (hanchored 18) hinside).1 .expression⟩

end Recognizer
