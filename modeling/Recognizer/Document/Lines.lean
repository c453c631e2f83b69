/-!
# Printed lines

A printed text fills one line or more. A line feed ends a line, and a carriage
return right before it is not part of the line.
-/
namespace Recognizer

/-- The line whose characters are given newest first. -/
def lineOf : List Char → String
  | '\r' :: line => String.ofList line.reverse
  | line => String.ofList line.reverse

/-- The lines of a text after the characters of its first line that are read
already, newest first. -/
def linesAfter : List Char → List Char → List String
  | line, [] => [lineOf line]
  | line, c :: cs =>
    if c = '\n' then lineOf line :: linesAfter [] cs else linesAfter (c :: line) cs

/-- The lines that a text fills when it is printed with a line feed behind it. -/
def printedLines (text : String) : List String := linesAfter [] text.toList

theorem length_linesAfter (line cs : List Char) :
    (linesAfter line cs).length = cs.count '\n' + 1 := by
  induction cs generalizing line with
  | nil => rfl
  | cons c cs ih => by_cases h : c = '\n' <;> simp [linesAfter, h, ih]

/-- A text fills one line more than it has line feeds. -/
@[simp] theorem length_printedLines (text : String) :
    (printedLines text).length = text.toList.count '\n' + 1 :=
  length_linesAfter [] text.toList

end Recognizer
