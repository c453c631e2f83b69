import Recognizer.Grammar.Production

/-!
# The grammar as written

The productions in extended Backus-Naur form, and the lists of lexemes that they
derive. The form knows nothing of symbol tables, of ordered choice or of the
depth guard. The name in a constructor or a destructor is the one that its
structure was introduced with, so those productions carry a name.
-/
namespace Recognizer.Grammar

/-- The productions by name. -/
inductive Production where
  | literal | basicType | overloadableOperator | additiveList | templateArguments
  | expressionList | parameterList | initializerList | parameters | arguments
  | expression | disjunction | conjunction | equality | relational | additive | multiplicative
  | prefixExpr | postfixExpr | primary | parameter
  | statement | simple | assignment | construction | initialization | control
  | returnStatement | conditional | switchStatement | caseClause | whileStatement
  | doStatement | breakStatement | gotoStatement | compound | typeDefinition
  | declaration | enumeration | structureName | structureDeclaration | dataMember
  | assignOperator | applyOperator | indexOperator | initializer | procedureName | procedure
  | templateHeader | specialization | template
  | structureBody (name : Bytes) | member (name : Bytes)
  | constructor (name : Bytes) | destructor (name : Bytes)
  deriving DecidableEq, Repr

/-- An expression of the form. -/
inductive Ebnf where
  | empty
  /-- One lexeme of the kind. -/
  | kind (k : Kind)
  /-- The identifier. -/
  | word (w : Bytes)
  | sequence (g h : Ebnf)
  | choice (g h : Ebnf)
  | optional (g : Ebnf)
  | repeated (g : Ebnf)
  /-- An identifier, and what its name is followed by. -/
  | named (next : Bytes → Ebnf)
  | production (p : Production)

namespace Ebnf

/-- The keyword. -/
def keyword (k : Keyword) : Ebnf := word k.bytes

/-- All expressions in turn. -/
def inOrder : List Ebnf → Ebnf
  | [] => empty
  | [g] => g
  | g :: gs => sequence g (inOrder gs)

/-- Any one of some expressions, of which there is a first. -/
def oneOf (g : Ebnf) : List Ebnf → Ebnf
  | [] => g
  | h :: gs => choice g (oneOf h gs)

/-- Items with commas between them. -/
def separated (g : Ebnf) : Ebnf := sequence g (repeated (sequence (kind .comma) g))

/-- What stands between an opening and a closing lexeme. -/
def within (opening : Kind) (g : Ebnf) (closing : Kind) : Ebnf :=
  inOrder [kind opening, g, kind closing]

/-- Operands with an operator between any two. -/
def operators (g op : Ebnf) : Ebnf := sequence g (repeated (sequence op g))

end Ebnf

/-- The lists of lexemes that an expression of the form derives, given what the
productions stand for. -/
inductive Derives (rules : Production → Ebnf) : Ebnf → List Lexeme → Prop where
  | empty : Derives rules .empty []
  | kind {k x} (hx : x.kind = k) : Derives rules (.kind k) [x]
  | word {w x} (hx : x.kind = .identifier) (hw : x.text = w) : Derives rules (.word w) [x]
  | sequence {g h ts us} : Derives rules g ts → Derives rules h us →
      Derives rules (.sequence g h) (ts ++ us)
  | left {g h ts} : Derives rules g ts → Derives rules (.choice g h) ts
  | right {g h ts} : Derives rules h ts → Derives rules (.choice g h) ts
  | absent {g} : Derives rules (.optional g) []
  | present {g ts} : Derives rules g ts → Derives rules (.optional g) ts
  | none {g} : Derives rules (.repeated g) []
  | more {g ts us} : Derives rules g ts → Derives rules (.repeated g) us →
      Derives rules (.repeated g) (ts ++ us)
  | named {next x ts} (hx : x.kind = .identifier) : Derives rules (next x.text) ts →
      Derives rules (.named next) (x :: ts)
  | production {p ts} : Derives rules (rules p) ts → Derives rules (.production p) ts

section Published

open Ebnf

/-- The forms of a statement, apart from labels. -/
def unlabelled : Ebnf :=
  oneOf (production .simple) [production .assignment, production .construction,
    production .control, production .typeDefinition]

/-- An identifier and a colon. -/
def labelling : Ebnf := sequence (kind .identifier) (kind .colon)

/-- The productions as published. -/
def published : Production → Ebnf
  | .literal => oneOf (keyword .true_) [keyword .false_, kind .integer, kind .real]
  | .basicType => oneOf (keyword .bool) [keyword .int, keyword .double]
  | .overloadableOperator =>
    oneOf (kind .doubleEquals) [kind .less, kind .plus, kind .minus, kind .star, kind .slash,
      kind .percent]
  | .additiveList => separated (production .additive)
  | .templateArguments => inOrder [production .additiveList, kind .greater]
  | .expressionList => separated (production .expression)
  | .parameterList => separated (production .parameter)
  | .initializerList => separated (production .initializer)
  | .parameters => within .openParen (optional (production .parameterList)) .closeParen
  | .arguments => within .openParen (optional (production .expressionList)) .closeParen
  | .expression => production .disjunction
  | .disjunction => operators (production .conjunction) (kind .doublePipe)
  | .conjunction => operators (production .equality) (kind .doubleAmpersand)
  | .equality =>
    operators (production .relational) (oneOf (kind .doubleEquals) [kind .bangEquals])
  | .relational =>
    operators (production .additive)
      (oneOf (kind .less) [kind .greater, kind .lessEquals, kind .greaterEquals])
  | .additive => operators (production .multiplicative) (oneOf (kind .plus) [kind .minus])
  | .multiplicative =>
    operators (production .prefixExpr) (oneOf (kind .star) [kind .slash, kind .percent])
  | .prefixExpr =>
    inOrder [optional (oneOf (kind .minus) [kind .bang, keyword .const]),
      production .postfixExpr]
  | .postfixExpr =>
    inOrder [production .primary, repeated <|
      oneOf (inOrder [kind .dot, kind .identifier])
        [within .openParen (optional (production .expressionList)) .closeParen,
          within .openBracket (production .expression) .closeBracket,
          kind .ampersand]]
  | .primary =>
    oneOf
      (inOrder [kind .identifier, optional (inOrder [kind .less, production .templateArguments])])
      [production .literal, within .openParen (production .expression) .closeParen,
        production .basicType, keyword .typename, kind .identifier]
  | .parameter => inOrder [production .expression, optional (kind .identifier)]
  | .statement => inOrder [optional labelling, unlabelled]
  | .simple => inOrder [production .expression, kind .semicolon]
  | .assignment =>
    inOrder [production .expression, kind .equals, production .expression, kind .semicolon]
  | .construction =>
    inOrder [production .expression, kind .identifier, optional (production .initialization),
      kind .semicolon]
  | .initialization =>
    oneOf (within .openParen (production .expressionList) .closeParen)
      [inOrder [kind .equals, production .expression]]
  | .control =>
    oneOf (production .returnStatement) [production .conditional, production .switchStatement,
      production .whileStatement, production .doStatement, production .compound,
      production .breakStatement, production .gotoStatement]
  | .returnStatement =>
    inOrder [keyword .return_, optional (production .expression), kind .semicolon]
  | .conditional =>
    inOrder [keyword .if_, within .openParen (production .expression) .closeParen,
      production .statement, optional (inOrder [keyword .else_, production .statement])]
  | .switchStatement =>
    inOrder [keyword .switch, within .openParen (production .expression) .closeParen,
      kind .openBrace, repeated (production .caseClause), kind .closeBrace]
  | .caseClause =>
    inOrder [keyword .case, production .expression, kind .colon,
      repeated (production .statement)]
  | .whileStatement =>
    inOrder [keyword .while_, within .openParen (production .expression) .closeParen,
      production .statement]
  | .doStatement =>
    inOrder [keyword .do_, production .statement, keyword .while_,
      within .openParen (production .expression) .closeParen, kind .semicolon]
  | .breakStatement => inOrder [keyword .break_, kind .semicolon]
  | .gotoStatement => inOrder [keyword .goto, kind .identifier, kind .semicolon]
  | .compound => within .openBrace (repeated (production .statement)) .closeBrace
  | .typeDefinition =>
    inOrder [keyword .typedef, production .expression, kind .identifier, kind .semicolon]
  | .declaration =>
    oneOf (production .enumeration) [production .structureDeclaration, production .template,
      production .procedure]
  | .enumeration =>
    inOrder [keyword .enum, kind .identifier,
      within .openBrace (optional (separated (kind .identifier))) .closeBrace, kind .semicolon]
  | .structureName => kind .identifier
  | .structureDeclaration =>
    inOrder [keyword .struct, named fun name =>
      inOrder [optional (production (.structureBody name)), kind .semicolon]]
  | .structureBody name =>
    within .openBrace (repeated (production (.member name))) .closeBrace
  | .member name =>
    oneOf (production (.constructor name)) [production (.destructor name),
      production .typeDefinition, production .dataMember, production .assignOperator,
      production .applyOperator, production .indexOperator]
  | .constructor name =>
    inOrder [word name, production .parameters,
      optional (inOrder [kind .colon, production .initializerList]), production .compound]
  | .destructor name =>
    inOrder [kind .tilde, word name, kind .openParen, kind .closeParen, production .compound]
  | .dataMember =>
    inOrder [production .expression, kind .identifier,
      optional (within .openBracket (production .expression) .closeBracket),
      kind .semicolon]
  | .assignOperator =>
    inOrder [keyword .void, keyword .operator, kind .equals,
      within .openParen (production .parameter) .closeParen, production .compound]
  | .applyOperator =>
    inOrder [production .expression, keyword .operator, kind .openParen, kind .closeParen,
      production .parameters, production .compound]
  | .indexOperator =>
    inOrder [production .expression, keyword .operator, kind .openBracket, kind .closeBracket,
      within .openParen (production .parameter) .closeParen, production .compound]
  | .initializer => inOrder [kind .identifier, production .arguments]
  | .procedureName =>
    oneOf (kind .identifier) [inOrder [keyword .operator, production .overloadableOperator]]
  | .procedure =>
    inOrder [oneOf (keyword .void) [production .expression], production .procedureName,
      production .parameters, oneOf (production .compound) [kind .semicolon]]
  | .templateHeader =>
    inOrder [keyword .template, kind .less, optional (production .parameterList),
      kind .greater, optional (inOrder [keyword .requires,
        within .openParen (production .expression) .closeParen])]
  | .specialization =>
    inOrder [keyword .struct, named fun name =>
      inOrder [kind .less, production .templateArguments,
        optional (production (.structureBody name)), kind .semicolon]]
  | .template =>
    inOrder [production .templateHeader,
      oneOf (production .structureDeclaration) [production .specialization,
        production .procedure]]

/-- The productions as published, with any number of labels on a statement. -/
def manyLabels : Production → Ebnf
  | .statement => inOrder [repeated labelling, unlabelled]
  | p => published p

end Published
end Recognizer.Grammar
