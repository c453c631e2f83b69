import Recognizer.Grammar.Expression
import Recognizer.Preferences

/-!
# Statements

A statement is tried as each of its forms in turn, always from the same lexeme.
Keywords are not reserved, so the order of the forms decides: a construction is
tried before a control statement. A compound has a scope of its own.
-/
namespace Recognizer.Grammar

open Rule

variable (prefs : GrammarPreferences)

/-- A statement, called through the depth guard. -/
def statement : Rule := call .statement

/-- Reads `identifier ":"` -/
def label : Rule := andThen (kind .identifier) (kind .colon)

/-- Reads `expression ";"` -/
def simple : Rule := andThen expression (kind .semicolon)

/-- Reads `expression "=" expression ";"` -/
def assignment : Rule := inOrder [expression, kind .equals, expression, kind .semicolon]

/-- Reads `"(" expression_list ")" | "=" expression` -/
def initialValue : Rule :=
  branch (kind .openParen) (andThen expressionList (kind .closeParen)) <|
    branch (kind .equals) expression reject

/-- An initialization, which the preferences may refuse after it has been read. -/
def initialization : Rule :=
  if prefs.rejectInitialization then andThen initialValue reject else initialValue

/-- Reads `expression identifier [initialization] ";"` -/
def construction : Rule :=
  inOrder [expression, kind .identifier,
    orElse (peek (.kind .semicolon)) (initialization prefs), kind .semicolon]

/-- Reads `"return" [expression] ";"` -/
def returnStatement : Rule :=
  inOrder [keyword .return_, orElse (peek (.kind .semicolon)) expression, kind .semicolon]

/-- Reads `"if" "(" expression ")" statement ["else" statement]` -/
def conditional : Rule :=
  inOrder [keyword .if_, condition, statement, branch (keyword .else_) statement accept]

/-- Reads `"case" expression ":" {statement}`, up to the next case or the closing brace. -/
def caseClause : Rule :=
  inOrder [keyword .case, expression, kind .colon,
    loop (.both (.negate (.kind .closeBrace)) (.negate (.keyword .case))) statement]

/-- Reads `"switch" "(" expression ")" "{" {case} "}"` -/
def switchStatement : Rule :=
  inOrder [keyword .switch, condition, kind .openBrace, loop (.keyword .case) caseClause,
    kind .closeBrace]

/-- Reads `"while" "(" expression ")" statement` -/
def whileStatement : Rule := inOrder [keyword .while_, condition, statement]

/-- Reads `"do" statement "while" "(" expression ")" ";"` -/
def doStatement : Rule :=
  inOrder [keyword .do_, statement, keyword .while_, condition, kind .semicolon]

/-- Reads `"break" ";"` -/
def breakStatement : Rule := andThen (keyword .break_) (kind .semicolon)

/-- Reads `"goto" identifier ";"` -/
def gotoStatement : Rule := inOrder [keyword .goto, kind .identifier, kind .semicolon]

/-- Reads `"{" {statement} "}"`, in a scope that is closed whether or not the block is read. -/
def compound : Rule := andThen (kind .openBrace) (enclosed (upTo .closeBrace statement))

/-- Reads `return | conditional | switch | while | do | compound | break | goto`, chosen by
the first lexeme. -/
def control : Rule :=
  when (.keyword .return_) returnStatement <|
    when (.keyword .if_) conditional <|
      when (.keyword .switch) switchStatement <|
        when (.keyword .while_) whileStatement <|
          when (.keyword .do_) doStatement <|
            when (.kind .openBrace) compound <|
              when (.keyword .break_) breakStatement <|
                if prefs.allowGoto then when (.keyword .goto) gotoStatement reject else reject

/-- Reads `"typedef" expression identifier ";"`, which declares the identifier as a type. -/
def typeDefinition : Rule :=
  inOrder [keyword .typedef, expression, declare .type fun _ => kind .semicolon]

/-- Reads `[identifier ":"] (simple | assignment | construction | control | typedef)` -/
def statementBody : Rule :=
  branch (attempt label) statement <|
    oneOf [attempt simple, attempt assignment, attempt (construction prefs),
      attempt (control prefs), typeDefinition]

end Recognizer.Grammar
