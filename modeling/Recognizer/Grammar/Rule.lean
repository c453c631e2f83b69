import Recognizer.Grammar.Keyword
import Recognizer.Scope
import Recognizer.Token.Lexeme

/-!
# Rules of the grammar

A rule is a program over the remaining lexemes and the symbol table. It accepts
or rejects, and a rejecting rule may leave the lexemes it has consumed consumed:
only `attempt` gives them back. The productions that take part in recursion are
called by name, through a guard on the depth of calls.
-/
namespace Recognizer.Grammar

/-- A question about the next lexeme. -/
inductive Test where
  /-- The next lexeme has the kind. -/
  | kind (k : Kind)
  /-- The next lexeme has one of the kinds. -/
  | oneOf (ks : List Kind)
  /-- The next lexeme is the identifier. -/
  | word (w : Bytes)
  /-- The next lexeme is an identifier that the symbol table knows. -/
  | known
  /-- There is no next lexeme. -/
  | finish
  | negate (t : Test)
  | both (t u : Test)
  deriving DecidableEq, Repr

namespace Test

/-- The next lexeme is the keyword. -/
def keyword (k : Keyword) : Test := word k.bytes

/-- The answer, given the remaining lexemes and the symbol table. -/
def holds (table : SymbolTable) (rest : List Lexeme) : Test → Bool
  | kind k => match rest with
    | x :: _ => x.kind == k
    | [] => false
  | oneOf ks => match rest with
    | x :: _ => ks.contains x.kind
    | [] => false
  | word w => match rest with
    | x :: _ => x.kind == .identifier && x.text == w
    | [] => false
  | known => match rest with
    | x :: _ => x.kind == .identifier && (table.lookup? x.text).isSome
    | [] => false
  | finish => rest.isEmpty
  | negate t => !t.holds table rest
  | both t u => t.holds table rest && u.holds table rest

end Test

/-- The productions that are called through the depth guard. -/
inductive Guarded where
  | expression
  | statement
  | declaration
  | templateArguments
  deriving DecidableEq, Repr

/-- A rule of the grammar. -/
inductive Rule where
  | accept
  | reject
  /-- Accept when the test holds, without consuming. -/
  | peek (t : Test)
  /-- Consume one lexeme when the test holds, and reject otherwise. -/
  | take (t : Test)
  /-- Run the first rule, then the second if it accepted and the third if not. -/
  | branch (first yes no : Rule)
  /-- Run a rule and give its lexemes back if it rejects. -/
  | attempt (r : Rule)
  /-- Run the body as long as the test holds, and reject when the body does. -/
  | loop (t : Test) (body : Rule)
  /-- Consume an identifier, declare it in the innermost scope and go on with
  the rule for its name. -/
  | declare (kind : Symbol.Kind) (next : Bytes → Rule)
  /-- Run a rule inside a scope of its own. -/
  | enclosed (r : Rule)
  /-- Call a production through the depth guard. -/
  | call (g : Guarded)

namespace Rule

/-- One rule, then the other. -/
def andThen (r s : Rule) : Rule := branch r s reject

/-- One rule, or the other from where the first one stopped. -/
def orElse (r s : Rule) : Rule := branch r accept s

/-- A rule whose rejection does not count. -/
def optional (r : Rule) : Rule := branch r accept accept

/-- All rules in turn. -/
def inOrder : List Rule → Rule
  | [] => accept
  | [r] => r
  | r :: rs => andThen r (inOrder rs)

/-- The first rule that accepts, each from where the one before it stopped. -/
def oneOf : List Rule → Rule
  | [] => reject
  | [r] => r
  | r :: rs => orElse r (oneOf rs)

/-- One rule when the test holds and the other when it does not. -/
def when (t : Test) (yes no : Rule) : Rule := branch (peek t) yes no

/-- Consume a lexeme of the kind. -/
def kind (k : Kind) : Rule := take (.kind k)

/-- Consume a lexeme of one of the kinds. -/
def anyKind (ks : List Kind) : Rule := take (.oneOf ks)

/-- Consume the identifier. -/
def word (w : Bytes) : Rule := take (.word w)

/-- Consume the keyword. -/
def keyword (k : Keyword) : Rule := take (.keyword k)

/-- Items with commas between them. -/
def separated (item : Rule) : Rule :=
  andThen item (loop (.kind .comma) (andThen (kind .comma) item))

/-- Items with commas between them, or none, inside an opening and a closing
lexeme. -/
def delimited (opening : Kind) (item : Rule) (closing : Kind) : Rule :=
  inOrder [kind opening, orElse (peek (.kind closing)) (separated item), kind closing]

/-- Operands with one of the operators between any two. -/
def operators (operand : Rule) (ks : List Kind) : Rule :=
  andThen operand (loop (.oneOf ks) (andThen (anyKind ks) operand))

/-- Items up to the closing lexeme, and that lexeme. -/
def upTo (closing : Kind) (item : Rule) : Rule :=
  andThen (loop (.negate (.kind closing)) item) (kind closing)

end Rule
end Recognizer.Grammar
