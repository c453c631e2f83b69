import Recognizer.Grammar.Rule

/-!
# Expressions

Nine levels of precedence, from disjunctions down to primaries. Every binary
level reads operands of the next level with its operators between them. A name
that the symbol table knows and a `<` after it commit to template arguments.
-/
namespace Recognizer.Grammar

open Rule

/-- An expression, called through the depth guard. -/
def expression : Rule := call .expression

/-- Template arguments after their `<`, called through the depth guard. -/
def templateArguments : Rule := call .templateArguments

/-- Reads `expression {"," expression}` -/
def expressionList : Rule := separated expression

/-- Reads `"(" expression ")"` -/
def condition : Rule := inOrder [kind .openParen, expression, kind .closeParen]

/-- Reads `"(" [expression_list] ")"` -/
def arguments : Rule := delimited .openParen expression .closeParen

/-- Reads `"true" | "false" | integer | real` -/
def literal : Rule := oneOf [keyword .true_, keyword .false_, kind .integer, kind .real]

/-- Reads `"bool" | "int" | "double"` -/
def basicType : Rule := oneOf [keyword .bool, keyword .int, keyword .double]

/-- A name with the template arguments that a `<` after it opens. -/
def templateName : Rule := branch (kind .less) templateArguments accept

/-- Reads `template_name | literal | "(" expression ")" | basic_type | "typename" | identifier`

A known name is read as a template name and as nothing else. -/
def primary : Rule :=
  branch (take .known) templateName <|
    orElse literal <|
      branch (kind .openParen) (inOrder [expression, kind .closeParen]) <|
        oneOf [basicType, keyword .typename, kind .identifier]

/-- The lexemes that continue a postfix expression. -/
def suffixStarts : List Kind := [.dot, .openParen, .openBracket, .ampersand]

/-- Reads `"." identifier | "(" [expression_list] ")" | "[" expression "]" | "&"` -/
def suffixPart : Rule :=
  branch (kind .dot) (kind .identifier) <|
    when (.kind .openParen) arguments <|
      branch (kind .openBracket) (inOrder [expression, kind .closeBracket]) (kind .ampersand)

/-- Reads `primary {suffix}` -/
def postfixExpr : Rule := andThen primary (loop (.oneOf suffixStarts) suffixPart)

/-- Reads `["-" | "!" | "const"] postfix` -/
def prefixExpr : Rule :=
  andThen (optional (oneOf [kind .minus, kind .bang, keyword .const])) postfixExpr

/-- Reads `prefix {("*" | "/" | "%") prefix}` -/
def multiplicative : Rule := operators prefixExpr [.star, .slash, .percent]

/-- Reads `multiplicative {("+" | "-") multiplicative}` -/
def additive : Rule := operators multiplicative [.plus, .minus]

/-- Reads `additive {("<" | ">" | "<=" | ">=") additive}` -/
def relational : Rule := operators additive [.less, .greater, .lessEquals, .greaterEquals]

/-- Reads `relational {("==" | "!=") relational}` -/
def equality : Rule := operators relational [.doubleEquals, .bangEquals]

/-- Reads `equality {"&&" equality}` -/
def conjunction : Rule := operators equality [.doubleAmpersand]

/-- Reads `conjunction {"||" conjunction}` -/
def disjunction : Rule := operators conjunction [.doublePipe]

/-- Reads `additive {"," additive}` -/
def additiveList : Rule := separated additive

/-- Reads `additive_list ">"`, what template arguments are. -/
def closedAdditiveList : Rule := andThen additiveList (kind .greater)

/-- Reads `expression [identifier]` -/
def parameter : Rule := andThen expression (optional (kind .identifier))

/-- Reads `parameter {"," parameter}` -/
def parameterList : Rule := separated parameter

/-- Reads `"(" [parameter_list] ")"` -/
def parameters : Rule := delimited .openParen parameter .closeParen

end Recognizer.Grammar
