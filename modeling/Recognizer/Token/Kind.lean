import Recognizer.Source.Span

/-!
# Kinds of tokens

The kinds form a closed set. Punctuation, operators and blanks have one fixed
spelling each; identifiers, numbers, comments and bytes outside the alphabet
carry their own text.
-/
namespace Recognizer

/-- The lexical kinds. -/
inductive Kind where
  | invalid | identifier | integer | real | comment
  | dot | openParen | closeParen | openBracket | closeBracket | openBrace | closeBrace
  | comma | semicolon | colon | tilde
  | slash | ampersand | doubleAmpersand | pipe | doublePipe | minus | bang | bangEquals
  | star | percent | plus | equals | doubleEquals | less | greater | lessEquals | greaterEquals
  | space | newline | tab
  deriving DecidableEq, Repr

namespace Kind

/-- Every kind, in declaration order. -/
def all : List Kind :=
  [invalid, identifier, integer, real, comment, dot, openParen, closeParen, openBracket,
    closeBracket, openBrace, closeBrace, comma, semicolon, colon, tilde, slash, ampersand,
    doubleAmpersand, pipe, doublePipe, minus, bang, bangEquals, star, percent, plus, equals,
    doubleEquals, less, greater, lessEquals, greaterEquals, space, newline, tab]

/-- The published name of a kind. -/
def name : Kind → String
  | invalid => "Invalid"
  | identifier => "Identifier"
  | integer => "Integer"
  | real => "Real"
  | comment => "Comment"
  | dot => "Dot"
  | openParen => "OpenParen"
  | closeParen => "CloseParen"
  | openBracket => "OpenBracket"
  | closeBracket => "CloseBracket"
  | openBrace => "OpenBrace"
  | closeBrace => "CloseBrace"
  | comma => "Comma"
  | semicolon => "Semicolon"
  | colon => "Colon"
  | tilde => "Tilde"
  | slash => "ForwardSlash"
  | ampersand => "Ampersand"
  | doubleAmpersand => "DoubleAmpersand"
  | pipe => "Pipe"
  | doublePipe => "DoublePipe"
  | minus => "Minus"
  | bang => "Bang"
  | bangEquals => "BangEquals"
  | star => "Star"
  | percent => "Percent"
  | plus => "Plus"
  | equals => "Equals"
  | doubleEquals => "DoubleEquals"
  | less => "Less"
  | greater => "Greater"
  | lessEquals => "LessEquals"
  | greaterEquals => "GreaterEquals"
  | space => "Space"
  | newline => "Newline"
  | tab => "Tab"

/-- The kind with the published name given. -/
def ofName? (text : String) : Option Kind := all.find? fun k => k.name == text

/-- The one spelling of a kind, or nothing when its tokens carry their own text. -/
def spelling? : Kind → Option (List Char)
  | invalid | identifier | integer | real | comment => none
  | dot => some ['.']
  | openParen => some ['(']
  | closeParen => some [')']
  | openBracket => some ['[']
  | closeBracket => some [']']
  | openBrace => some ['\x7b']
  | closeBrace => some ['\x7d']
  | comma => some [',']
  | semicolon => some [';']
  | colon => some [':']
  | tilde => some ['~']
  | slash => some ['/']
  | ampersand => some ['&']
  | doubleAmpersand => some ['&', '&']
  | pipe => some ['|']
  | doublePipe => some ['|', '|']
  | minus => some ['-']
  | bang => some ['!']
  | bangEquals => some ['!', '=']
  | star => some ['*']
  | percent => some ['%']
  | plus => some ['+']
  | equals => some ['=']
  | doubleEquals => some ['=', '=']
  | less => some ['<']
  | greater => some ['>']
  | lessEquals => some ['<', '=']
  | greaterEquals => some ['>', '=']
  | space => some [' ']
  | newline => some ['\n']
  | tab => some ['\t']

/-- The fixed spelling as a text. -/
def text? (k : Kind) : Option String := k.spelling?.map String.ofList

/-- A fixed spelling in quotes, with the line feed and the tab escaped, or the
name of a kind without one. -/
def display (k : Kind) : String :=
  match k with
  | newline => "'\\n'"
  | tab => "'\\t'"
  | k => match k.text? with
    | some t => "'" ++ t ++ "'"
    | none => k.name

/-- Spaces, tabs and line feeds. -/
def isBlank : Kind → Bool
  | space | tab | newline => true
  | _ => false

/-- Blanks and comments carry no meaning. -/
def isTrivia : Kind → Bool
  | comment => true
  | k => k.isBlank

/-- The kinds that the grammar sees. -/
def isSignificant (k : Kind) : Bool := !k.isTrivia

/-- The groups by which tokens are counted. -/
inductive Class where
  | identifier | literal | punctuation | operation | whitespace | special
  deriving DecidableEq, Repr

/-- The published name of a group. -/
def Class.name : Class → String
  | .identifier => "Identifier"
  | .literal => "Literal"
  | .punctuation => "Punctuation"
  | .operation => "Operation"
  | .whitespace => "Whitespace"
  | .special => "Special"

/-- The group of a kind. Comments and bytes outside the alphabet are special. -/
def classOf : Kind → Class
  | identifier => .identifier
  | integer | real => .literal
  | dot | openParen | closeParen | openBracket | closeBracket | openBrace | closeBrace
  | comma | semicolon | colon | tilde => .punctuation
  | slash | ampersand | doubleAmpersand | pipe | doublePipe | minus | bang | bangEquals
  | star | percent | plus | equals | doubleEquals | less | greater | lessEquals
  | greaterEquals => .operation
  | space | newline | tab => .whitespace
  | comment | invalid => .special

/-- Every kind is listed, and no two have one name. -/
theorem ofName?_name (k : Kind) : ofName? k.name = some k := by cases k <;> decide

end Kind
end Recognizer
