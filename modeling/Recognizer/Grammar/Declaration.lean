import Recognizer.Grammar.Statement

/-!
# Declarations

A declaration is chosen by its leading keyword. The members of a structure and
the bodies of a template begin alike, so they are tried in turn from the same
lexeme.
-/
namespace Recognizer.Grammar

open Rule

variable (name : Bytes)

/-- A declaration, called through the depth guard. -/
def declaration : Rule := call .declaration

/-- Reads `"enum" identifier "{" [identifier {"," identifier}] "}" ";"` -/
def enumeration : Rule :=
  inOrder [keyword .enum, kind .identifier,
    delimited .openBrace (kind .identifier) .closeBrace, kind .semicolon]

/-- Reads `"(" parameter ")"` -/
def singleParameter : Rule := inOrder [kind .openParen, parameter, kind .closeParen]

/-- Reads `identifier "(" [expression_list] ")"` -/
def initializer : Rule := andThen (kind .identifier) arguments

/-- Reads `initializer {"," initializer}` -/
def initializerList : Rule := separated initializer

/-- Reads `structure_name "(" [parameter_list] ")" [":" initializer_list] body` -/
def constructor : Rule :=
  inOrder [word name, parameters, branch (kind .colon) initializerList accept, compound]

/-- Reads `"~" structure_name "(" ")" body` -/
def destructor : Rule :=
  inOrder [kind .tilde, word name, kind .openParen, kind .closeParen, compound]

/-- Reads `expression identifier ["[" expression "]"] ";"` -/
def dataMember : Rule :=
  inOrder [expression, kind .identifier,
    branch (kind .openBracket) (andThen expression (kind .closeBracket)) accept,
    kind .semicolon]

/-- Reads `"void" "operator" "=" "(" parameter ")" body` -/
def assignOperator : Rule :=
  inOrder [keyword .void, keyword .operator, kind .equals, singleParameter, compound]

/-- Reads `expression "operator" "(" ")" "(" [parameter_list] ")" body` -/
def applyOperator : Rule :=
  inOrder [expression, keyword .operator, kind .openParen, kind .closeParen, parameters,
    compound]

/-- Reads `expression "operator" "[" "]" "(" parameter ")" body` -/
def indexOperator : Rule :=
  inOrder [expression, keyword .operator, kind .openBracket, kind .closeBracket,
    singleParameter, compound]

/-- Reads `constructor | destructor | typedef | data_member | assign | apply | index`, where
the structure's name introduces constructors and follows `~` in destructors. -/
def member : Rule :=
  when (.word name) (constructor name) <|
    when (.kind .tilde) (destructor name) <|
      when (.keyword .typedef) typeDefinition <|
        oneOf [attempt dataMember, attempt assignOperator, attempt applyOperator,
          attempt indexOperator]

/-- Reads `"{" {member} "}"` -/
def structureBody : Rule := andThen (kind .openBrace) (upTo .closeBrace (member name))

/-- Reads `"struct" structure_name [structure_body] ";"`, which declares the name as a type. -/
def structureDeclaration : Rule :=
  andThen (keyword .struct) <| declare .type fun name =>
    orElse (kind .semicolon) (andThen (structureBody name) (kind .semicolon))

/-- The operators that a procedure may be named after. -/
def overloadableOperator : Rule :=
  anyKind [.doubleEquals, .less, .plus, .minus, .star, .slash, .percent]

/-- Reads `identifier | "operator" overloadable_operator`, where an identifier is declared
as a procedure. -/
def procedureName : Rule :=
  branch (keyword .operator) overloadableOperator (declare .procedure fun _ => accept)

/-- Reads `("void" | expression) procedure_name "(" [parameter_list] ")" (body | ";")` -/
def procedure : Rule :=
  inOrder [orElse (keyword .void) expression, procedureName, parameters,
    orElse (kind .semicolon) compound]

/-- Reads `"template" "<" [parameter_list] ">" ["requires" "(" expression ")"]` -/
def templateHeader : Rule :=
  inOrder [keyword .template, kind .less, orElse (peek (.kind .greater)) parameterList,
    kind .greater, branch (keyword .requires) condition accept]

/-- Reads `"struct" structure_name "<" additive_list ">" [structure_body] ";"` -/
def specialization : Rule :=
  andThen (keyword .struct) <| declare .type fun name =>
    inOrder [kind .less, templateArguments,
      orElse (peek (.kind .semicolon)) (structureBody name), kind .semicolon]

/-- Reads `template_decl (structure | specialization | procedure)`. After the header a
`struct` is tried as a structure, then as a specialization; otherwise, or when
both fail, a procedure follows. -/
def template : Rule :=
  andThen templateHeader <|
    orElse
      (andThen (peek (.keyword .struct))
        (orElse (attempt structureDeclaration) (attempt specialization)))
      procedure

/-- Reads `enumeration | structure | template | procedure`, chosen by the first lexeme. -/
def declarationBody : Rule :=
  when (.keyword .enum) enumeration <|
    when (.keyword .struct) structureDeclaration <|
      when (.keyword .template) template procedure

end Recognizer.Grammar
