import Recognizer.Document.Toml.Scalar
import Recognizer.Document.Toml.Table

/-!
# TOML

`Toml.read?` reads a document into a record. A document is a sequence of lines:
blank lines, comments, headers and keys with their values. Arrays may run over
several lines, inline tables may not.
-/
namespace Recognizer.Toml

/-- The text after a comment at its front, which begins with a hash. -/
def afterComment (cs : List Char) : List Char := cs.dropWhile isPlain

/-- The text after the end of a line: blanks, a comment and a line break or the
end of the document. -/
def lineEnd? (cs : List Char) : Option (List Char) :=
  let rest := match skipBlanks cs with
    | '#' :: rest => afterComment rest
    | rest => rest
  match rest with
  | [] => some []
  | rest => lineBreak? rest

/-- The text after blanks, line breaks and comments. A comment ends at a line
break. Every round takes a character, so the text at the start bounds them. -/
def skipLines? : List Char → List Char → Option (List Char)
  | [], cs => some (skipBlanks cs)
  | _ :: clock, cs =>
    match skipBlanks cs with
    | '#' :: rest => (lineBreak? (afterComment rest)).bind (skipLines? clock)
    | rest =>
      match lineBreak? rest with
      | some rest => skipLines? clock rest
      | none => some rest

/-- The characters of keys without quotes. -/
def isBare (c : Char) : Bool := c.isAlphanum || c = '-' || c = '_'

/-- One part of a key. -/
def keyPart? : List Char → Option (String × List Char)
  | '\x22' :: cs => basic? [] cs
  | '\x27' :: cs => literal? cs
  | cs =>
    match cs.takeWhile isBare with
    | [] => none
    | part => some (String.ofList part, cs.dropWhile isBare)

/-- The parts of a key after those read so far, newest first, within so many
steps. Dots stand between the parts and blanks may stand around them. -/
def keyLoop? : Nat → List String → List Char → Option (List String × List Char)
  | 0, _, _ => none
  | steps + 1, read, cs =>
    match keyPart? (skipBlanks cs) with
    | none => none
    | some (part, cs) =>
      match skipBlanks cs with
      | '.' :: cs => keyLoop? steps (part :: read) cs
      | cs => some (part :: read, cs)

/-- The greatest number of parts of a key, and the greatest number of brackets
that may be open in a value. -/
def maxNesting : Nat := 79

/-- A key: the path to its last part, and its last part. -/
def key? (cs : List Char) : Option ((List String × String) × List Char) :=
  match keyLoop? (maxNesting + 1) [] cs with
  | some (last :: path, cs) =>
    if path.length < maxNesting then some ((path.reverse, last), cs) else none
  | _ => none

/-- A key with its value, given how values are read. -/
def pair? (value? : List Char → Option (Datum × List Char)) (cs : List Char) :
    Option (((List String × String) × Datum) × List Char) := do
  let (key, cs) ← key? cs
  let cs ← after? '=' cs
  let (d, cs) ← value? (skipBlanks cs)
  return ((key, d), cs)

/-- The items of an array up to its closing bracket, after those read so far,
newest first. A comma may follow the last item. Every round takes a character, so
the text at the start bounds them. -/
def items? (value? : List Char → Option (Datum × List Char)) :
    List Char → List Datum → List Char → Option (List Datum × List Char)
  | [], _, _ => none
  | _ :: clock, read, cs => do
    let cs ← skipLines? cs cs
    match cs with
    | ']' :: cs => some (read.reverse, cs)
    | cs =>
      let (d, cs) ← value? cs
      let cs ← skipLines? cs cs
      match cs with
      | ',' :: cs => items? value? clock (d :: read) cs
      | ']' :: cs => some ((d :: read).reverse, cs)
      | _ => none

/-- The entries of an inline table up to its closing brace, after those read so
far. Every round takes a character, so the text at the start bounds them. -/
def inlinePairs? (value? : List Char → Option (Datum × List Char)) :
    List Char → Entries → List Char → Option (Entries × List Char)
  | [], _, _ => none
  | _ :: clock, read, cs => do
    let (((path, key), d), cs) ← pair? value? cs
    let read ← read.assign path key (.leaf d)
    match skipBlanks cs with
    | ',' :: cs => inlinePairs? value? clock read cs
    | '\x7d' :: cs => some (read, cs)
    | _ => none

/-- A value in which so many brackets may be opened. -/
def value? : Nat → List Char → Option (Datum × List Char)
  | nesting, cs =>
    match cs with
    | '[' :: rest =>
      match nesting with
      | 0 => none
      | nesting + 1 =>
        (items? (value? nesting) rest [] rest).map fun (ds, cs) => (.list ds, cs)
    | '\x7b' :: rest =>
      match nesting with
      | 0 => none
      | nesting + 1 =>
        match skipBlanks rest with
        | '\x7d' :: rest => some (.record [], rest)
        | rest =>
          (inlinePairs? (value? nesting) rest [] rest).map
            fun (es, cs) => (.record (fieldsOf es), cs)
    | c :: _ =>
      if c = '\x22' || c = '\x27' then (string? cs).map fun (s, cs) => (.text s, cs)
      else if c = 't' || c = 'f' then bool? cs
      else number? cs
    | [] => none

/-- The text after the header of a table or of an element, with what it opens. -/
def header? (b : Builder) : List Char → Option (Builder × List Char)
  | '[' :: cs => do
    let ((path, key), cs) ← key? cs
    let cs ← after? ']' cs
    let cs ← after? ']' cs
    let b ← b.openElement path key
    return (b, cs)
  | cs => do
    let ((path, key), cs) ← key? cs
    let cs ← after? ']' cs
    let b ← b.openTable path key
    return (b, cs)

/-- Read the lines of a document, within so many steps. -/
def lines? : Nat → Builder → List Char → Option Builder
  | 0, _, _ => none
  | steps + 1, b, cs =>
    match skipBlanks cs with
    | [] => some b
    | '#' :: cs => (lineEnd? ('#' :: cs)).bind (lines? steps b)
    | '[' :: cs => do
      let (b, cs) ← header? b cs
      let cs ← lineEnd? cs
      lines? steps b cs
    | c :: cs =>
      if c = '\n' || c = '\r' then (lineBreak? (c :: cs)).bind (lines? steps b)
      else do
        let (((path, key), d), cs) ← pair? (value? maxNesting) (c :: cs)
        let b ← b.assign path key d
        let cs ← lineEnd? cs
        lines? steps b cs

/-- The record that a document writes. A byte order mark at its front is not
part of it. -/
def read? (text : String) : Option Datum := do
  let cs := match text.toList with
    | '\uFEFF' :: cs => cs
    | cs => cs
  let b ← lines? (cs.length + 1) {} cs
  let root ← b.finish
  return .record (fieldsOf root)

end Recognizer.Toml
