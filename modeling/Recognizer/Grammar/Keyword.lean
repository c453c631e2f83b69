import Recognizer.Source.Span

/-!
# Keywords

A keyword is an identifier that some production compares by its text. Keywords
are not reserved: outside such a production they are plain identifiers.
-/
namespace Recognizer

/-- The words that productions look for. -/
inductive Keyword where
  | enum | struct | template | typename | typedef | requires | operator
  | void | const | true_ | false_ | bool | int | double
  | return_ | if_ | else_ | switch | case | while_ | do_ | break_ | goto
  deriving DecidableEq, Repr

namespace Keyword

/-- Every keyword, in declaration order. -/
def all : List Keyword :=
  [enum, struct, template, typename, typedef, requires, operator, void, const, true_, false_,
    bool, int, double, return_, if_, else_, switch, case, while_, do_, break_, goto]

/-- The letters of a keyword. -/
def letters : Keyword → List Char
  | enum => ['e', 'n', 'u', 'm']
  | struct => ['s', 't', 'r', 'u', 'c', 't']
  | template => ['t', 'e', 'm', 'p', 'l', 'a', 't', 'e']
  | typename => ['t', 'y', 'p', 'e', 'n', 'a', 'm', 'e']
  | typedef => ['t', 'y', 'p', 'e', 'd', 'e', 'f']
  | requires => ['r', 'e', 'q', 'u', 'i', 'r', 'e', 's']
  | operator => ['o', 'p', 'e', 'r', 'a', 't', 'o', 'r']
  | void => ['v', 'o', 'i', 'd']
  | const => ['c', 'o', 'n', 's', 't']
  | true_ => ['t', 'r', 'u', 'e']
  | false_ => ['f', 'a', 'l', 's', 'e']
  | bool => ['b', 'o', 'o', 'l']
  | int => ['i', 'n', 't']
  | double => ['d', 'o', 'u', 'b', 'l', 'e']
  | return_ => ['r', 'e', 't', 'u', 'r', 'n']
  | if_ => ['i', 'f']
  | else_ => ['e', 'l', 's', 'e']
  | switch => ['s', 'w', 'i', 't', 'c', 'h']
  | case => ['c', 'a', 's', 'e']
  | while_ => ['w', 'h', 'i', 'l', 'e']
  | do_ => ['d', 'o']
  | break_ => ['b', 'r', 'e', 'a', 'k']
  | goto => ['g', 'o', 't', 'o']

/-- The text of a keyword. -/
def text (k : Keyword) : String := String.ofList k.letters

/-- The bytes of a keyword. -/
def bytes (k : Keyword) : Bytes := Bytes.ofAscii k.letters

/-- The published name of a keyword: its text with a capital. -/
def name (k : Keyword) : String :=
  match k.letters with
  | [] => ""
  | c :: cs => String.ofList (c.toUpper :: cs)

/-- The keyword with the published name given. -/
def ofName? (text : String) : Option Keyword := all.find? fun k => k.name == text

/-- Every keyword is listed. -/
theorem mem_all (k : Keyword) : k ∈ all := by cases k <;> decide

end Keyword
end Recognizer
