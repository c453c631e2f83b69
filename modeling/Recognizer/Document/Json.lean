import Recognizer.Document.Datum

/-!
# JSON

`Json.render` writes a datum on one line without blanks and `Json.read?` reads
one. In a written string the quote, the backslash and the control characters are
escaped and every other character stands for itself.
-/
namespace Recognizer.Json

/-- The lower-case hexadecimal digit of a number below sixteen. -/
def hexDigit (n : Nat) : Char := if n < 10 then Char.ofNat (48 + n) else Char.ofNat (87 + n)

/-- A character inside a written string. -/
def escape (c : Char) : List Char :=
  if c = '\x22' then ['\\', '\x22']
  else if c = '\\' then ['\\', '\\']
  else if c = '\x08' then ['\\', 'b']
  else if c = '\t' then ['\\', 't']
  else if c = '\n' then ['\\', 'n']
  else if c = '\x0c' then ['\\', 'f']
  else if c = '\r' then ['\\', 'r']
  else if c.toNat < 0x20 then
    ['\\', 'u', '0', '0', hexDigit (c.toNat / 16), hexDigit (c.toNat % 16)]
  else [c]

/-- A written string. -/
def quoted (s : String) : List Char := '\x22' :: s.toList.flatMap escape ++ ['\x22']

mutual

/-- A datum as one line. -/
def render : Datum → List Char
  | .null => ['n', 'u', 'l', 'l']
  | .bool true => ['t', 'r', 'u', 'e']
  | .bool false => ['f', 'a', 'l', 's', 'e']
  | .natural n => (toString n).toList
  | .numeral written => written.toList
  | .text s => quoted s
  | .list [] => ['[', ']']
  | .list (d :: ds) => '[' :: (render d ++ renderItems ds)
  | .record [] => ['\x7b', '\x7d']
  | .record (f :: fs) => '\x7b' :: (quoted f.1 ++ ':' :: (render f.2 ++ renderFields fs))

/-- The items after the first one, and the closing bracket. -/
def renderItems : List Datum → List Char
  | [] => [']']
  | d :: ds => ',' :: (render d ++ renderItems ds)

/-- The fields after the first one, and the closing brace. -/
def renderFields : List (String × Datum) → List Char
  | [] => ['\x7d']
  | f :: fs => ',' :: (quoted f.1 ++ ':' :: (render f.2 ++ renderFields fs))

end

/-- The text of a datum. -/
def line (d : Datum) : String := String.ofList (render d)

/-- The characters between lexical elements. -/
def isBlank (c : Char) : Bool := c = ' ' || c = '\t' || c = '\n' || c = '\r'

/-- The text from the next lexical element on. -/
def skip (cs : List Char) : List Char := cs.dropWhile isBlank

/-- The value of a hexadecimal digit of either case. -/
def hexValue? (c : Char) : Option Nat :=
  if '0' ≤ c ∧ c ≤ '9' then some (c.toNat - 48)
  else if 'a' ≤ c ∧ c ≤ 'f' then some (c.toNat - 87)
  else if 'A' ≤ c ∧ c ≤ 'F' then some (c.toNat - 55)
  else none

/-- The number that four hexadecimal digits write. -/
def unit? (a b c d : Char) : Option Nat := do
  let a ← hexValue? a
  let b ← hexValue? b
  let c ← hexValue? c
  let d ← hexValue? d
  return ((a * 16 + b) * 16 + c) * 16 + d

/-- The character that an escape letter stands for. -/
def unescape? (c : Char) : Option Char :=
  if c = '\x22' || c = '\\' || c = '/' then some c
  else if c = 'b' then some '\x08'
  else if c = 't' then some '\t'
  else if c = 'n' then some '\n'
  else if c = 'f' then some '\x0c'
  else if c = 'r' then some '\r'
  else none

/-- What a written unit adds to a string: a character, or the first half of a
character that takes two units. The first half is followed by a second one and
by nothing else. -/
def addUnit? (read : List Char) (half : Option Nat) (n : Nat) : Option (List Char × Option Nat) :=
  match half with
  | some high =>
    if 0xDC00 ≤ n ∧ n < 0xE000 then
      some (Char.ofNat (0x10000 + (high - 0xD800) * 1024 + (n - 0xDC00)) :: read, none)
    else none
  | none =>
    if 0xD800 ≤ n ∧ n < 0xDC00 then some (read, some n)
    else if 0xDC00 ≤ n ∧ n < 0xE000 then none
    else some (Char.ofNat n :: read, none)

/-- The string whose characters so far are given, newest first, and the text
after its closing quote. -/
def string? (read : List Char) (half : Option Nat) : List Char → Option (String × List Char)
  | [] => none
  | '\\' :: 'u' :: a :: b :: c :: d :: cs =>
    match (unit? a b c d).bind (addUnit? read half) with
    | some (read, half) => string? read half cs
    | none => none
  | '\\' :: c :: cs =>
    match half, unescape? c with
    | none, some c => string? (c :: read) none cs
    | _, _ => none
  | c :: cs =>
    if half.isSome || c.toNat < 0x20 || c = '\\' then none
    else if c = '\x22' then some (String.ofList read.reverse, cs)
    else string? (c :: read) none cs

/-- The value of decimal digits. -/
def decimal (digits : List Char) : Nat := digits.foldl (fun n c => n * 10 + (c.toNat - 48)) 0

/-- The digits at the front of a text, of which there is at least one. -/
def digits? (cs : List Char) : Option (List Char × List Char) :=
  match cs.takeWhile Char.isDigit with
  | [] => none
  | ds => some (ds, cs.dropWhile Char.isDigit)

/-- The fraction at the front of a text, if there is one. -/
def fraction? : List Char → Option (List Char × List Char)
  | '.' :: cs => (digits? cs).map fun (ds, cs) => ('.' :: ds, cs)
  | cs => some ([], cs)

/-- The exponent at the front of a text, if there is one. -/
def exponent? : List Char → Option (List Char × List Char)
  | e :: cs =>
    if e = 'e' || e = 'E' then
      match cs with
      | s :: cs' =>
        if s = '+' || s = '-' then (digits? cs').map fun (ds, cs) => (e :: s :: ds, cs)
        else (digits? cs).map fun (ds, cs) => (e :: ds, cs)
      | [] => none
    else some ([], e :: cs)
  | [] => some ([], [])

/-- The number at the front of a text. A sign, a fraction or an exponent makes it
a numeral that is kept as written. -/
def number? (cs : List Char) : Option (Datum × List Char) := do
  let (sign, cs) := match cs with
    | '-' :: cs => (['-'], cs)
    | cs => ([], cs)
  let (ds, cs) ← digits? cs
  if ds.length ≠ 1 ∧ ds.head? = some '0' then none
  let (frac, cs) ← fraction? cs
  let (expo, cs) ← exponent? cs
  if sign.isEmpty && frac.isEmpty && expo.isEmpty then return (.natural (decimal ds), cs)
  else return (.numeral (String.ofList (sign ++ ds ++ frac ++ expo)), cs)

/-- A field of the same name keeps the place of the first one and the value of
the last one. -/
def setField (name : String) (d : Datum) : List (String × Datum) → List (String × Datum)
  | [] => [(name, d)]
  | f :: fs => if f.1 == name then (name, d) :: fs else f :: setField name d fs

mutual

/-- The value at the front of a text, within so many steps. -/
def value? : Nat → List Char → Option (Datum × List Char)
  | 0, _ => none
  | steps + 1, cs =>
    match skip cs with
    | 'n' :: 'u' :: 'l' :: 'l' :: cs => some (.null, cs)
    | 't' :: 'r' :: 'u' :: 'e' :: cs => some (.bool true, cs)
    | 'f' :: 'a' :: 'l' :: 's' :: 'e' :: cs => some (.bool false, cs)
    | '\x22' :: cs => (string? [] none cs).map fun (s, cs) => (.text s, cs)
    | '[' :: cs =>
      match skip cs with
      | ']' :: cs => some (.list [], cs)
      | cs => (items? steps [] cs).map fun (ds, cs) => (.list ds, cs)
    | '\x7b' :: cs =>
      match skip cs with
      | '\x7d' :: cs => some (.record [], cs)
      | cs => (fields? steps [] cs).map fun (fs, cs) => (.record fs, cs)
    | cs => number? cs

/-- Items up to the closing bracket, after those read so far, newest first. -/
def items? : Nat → List Datum → List Char → Option (List Datum × List Char)
  | 0, _, _ => none
  | steps + 1, read, cs =>
    match value? steps cs with
    | none => none
    | some (d, cs) =>
      match skip cs with
      | ',' :: cs => items? steps (d :: read) cs
      | ']' :: cs => some ((d :: read).reverse, cs)
      | _ => none

/-- Fields up to the closing brace, after those read so far. -/
def fields? : Nat → List (String × Datum) → List Char →
    Option (List (String × Datum) × List Char)
  | 0, _, _ => none
  | steps + 1, read, cs =>
    match skip cs with
    | '\x22' :: cs =>
      match string? [] none cs with
      | none => none
      | some (name, cs) =>
        match skip cs with
        | ':' :: cs =>
          match value? steps cs with
          | none => none
          | some (d, cs) =>
            let read := setField name d read
            match skip cs with
            | ',' :: cs => fields? steps read cs
            | '\x7d' :: cs => some (read, cs)
            | _ => none
        | _ => none
    | _ => none

end

/-- The datum that a text writes. A value takes at least one character, so twice
the number of characters bounds the steps. -/
def read? (text : String) : Option Datum :=
  let cs := text.toList
  match value? (2 * cs.length + 2) cs with
  | some (d, cs) => if (skip cs).isEmpty then some d else none
  | none => none

end Recognizer.Json
