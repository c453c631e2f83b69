import Recognizer.Document.Json

/-!
# Scalars of TOML

Strings in their four forms, numbers, dates and times. Every reader takes the
text from the scalar on and gives the scalar with the text after it, or nothing.
-/
namespace Recognizer.Toml

/-- Spaces and tabs. -/
def isBlank (c : Char) : Bool := c = ' ' || c = '\t'

/-- The characters of comments and, but for quotes and backslashes, of strings:
the tab and everything that is not a control character. -/
def isPlain (c : Char) : Bool := c = '\t' || (0x20 ≤ c.toNat && c.toNat ≠ 0x7F)

/-- The text without the blanks at its front. -/
def skipBlanks (cs : List Char) : List Char := cs.dropWhile isBlank

/-- The text after a line break at its front. -/
def lineBreak? : List Char → Option (List Char)
  | '\n' :: cs => some cs
  | '\r' :: '\n' :: cs => some cs
  | _ => none

/-- The character with a number that is neither a surrogate nor too large. -/
def scalar? (n : Nat) : Option Char :=
  if n < 0xD800 ∨ (0xE000 ≤ n ∧ n < 0x110000) then some (Char.ofNat n) else none

/-- The number that hexadecimal digits write. -/
def hexNumber? (cs : List Char) : Option Nat :=
  cs.foldl (fun n c => do return (← n) * 16 + (← Json.hexValue? c)) (some 0)

/-- The character that an escape letter stands for. -/
def unescape? (c : Char) : Option Char :=
  if c = '\x22' || c = '\\' then some c
  else if c = 'b' then some '\x08'
  else if c = 't' then some '\t'
  else if c = 'n' then some '\n'
  else if c = 'f' then some '\x0c'
  else if c = 'r' then some '\r'
  else none

/-- The rest of a string on one line with escapes. -/
def basic? (read : List Char) : List Char → Option (String × List Char)
  | [] => none
  | '\\' :: 'u' :: a :: b :: c :: d :: cs =>
    match (hexNumber? [a, b, c, d]).bind scalar? with
    | some x => basic? (x :: read) cs
    | none => none
  | '\\' :: 'U' :: a :: b :: c :: d :: e :: f :: g :: h :: cs =>
    match (hexNumber? [a, b, c, d, e, f, g, h]).bind scalar? with
    | some x => basic? (x :: read) cs
    | none => none
  | '\\' :: c :: cs =>
    match unescape? c with
    | some x => basic? (x :: read) cs
    | none => none
  | c :: cs =>
    if c = '\x22' then some (String.ofList read.reverse, cs)
    else if isPlain c && c ≠ '\\' then basic? (c :: read) cs
    else none

/-- The rest of a string on one line without escapes. -/
def literal? (cs : List Char) : Option (String × List Char) :=
  match cs.dropWhile fun c => isPlain c && c ≠ '\x27' with
  | '\x27' :: rest => some (String.ofList (cs.takeWhile fun c => isPlain c && c ≠ '\x27'), rest)
  | _ => none

/-- Where a reader of lines stands after a backslash at the end of a line. -/
inductive Fold where
  /-- Not after one. -/
  | none
  /-- After one, with its line break still to come. -/
  | pending
  /-- In the blanks and line breaks that are left out after it. -/
  | skipping
  deriving DecidableEq, Repr

/-- The end of a string on several lines after its three closing quotes: up to
two more quotes belong to the string. -/
def closeLines (quote : Char) (read : List Char) (cs : List Char) : String × List Char :=
  let extra := min 2 (cs.takeWhile (· = quote)).length
  (String.ofList (read.reverse ++ List.replicate extra quote), cs.drop extra)

/-- The rest of a string on several lines with escapes. -/
def basicLines? (fold : Fold) (read : List Char) : List Char → Option (String × List Char)
  | [] => none
  | '\x22' :: '\x22' :: '\x22' :: cs =>
    if fold = .pending then none else some (closeLines '\x22' read cs)
  | '\\' :: 'u' :: a :: b :: c :: d :: cs =>
    match fold, (hexNumber? [a, b, c, d]).bind scalar? with
    | .pending, _ | _, none => none
    | _, some x => basicLines? .none (x :: read) cs
  | '\\' :: 'U' :: a :: b :: c :: d :: e :: f :: g :: h :: cs =>
    match fold, (hexNumber? [a, b, c, d, e, f, g, h]).bind scalar? with
    | .pending, _ | _, none => none
    | _, some x => basicLines? .none (x :: read) cs
  | '\\' :: c :: cs =>
    if fold = .pending then none
    else if isBlank c then basicLines? .pending read cs
    else if c = '\n' then basicLines? .skipping read cs
    else if c = '\r' then
      if cs.head? = some '\n' then basicLines? .pending read cs else none
    else match unescape? c with
      | some x => basicLines? .none (x :: read) cs
      | none => none
  | c :: cs =>
    if c = '\r' then
      if cs.head? = some '\n' then basicLines? fold read cs else none
    else match fold with
      | .pending =>
        if isBlank c then basicLines? .pending read cs
        else if c = '\n' then basicLines? .skipping read cs
        else none
      | .skipping =>
        if isBlank c || c = '\n' then basicLines? .skipping read cs
        else if isPlain c && c ≠ '\\' then basicLines? .none (c :: read) cs
        else none
      | .none =>
        if c = '\n' || (isPlain c && c ≠ '\\') then basicLines? .none (c :: read) cs
        else none

/-- The rest of a string on several lines without escapes. -/
def literalLines? (read : List Char) : List Char → Option (String × List Char)
  | [] => none
  | '\x27' :: '\x27' :: '\x27' :: cs => some (closeLines '\x27' read cs)
  | c :: cs =>
    if c = '\r' then
      if cs.head? = some '\n' then literalLines? read cs else none
    else if c = '\n' || isPlain c then literalLines? (c :: read) cs
    else none

/-- The text after a line break at its front, if there is one. -/
def afterBreak (cs : List Char) : List Char := (lineBreak? cs).getD cs

/-- A string of any form. A line break right after three opening quotes does not
belong to it. -/
def string? : List Char → Option (String × List Char)
  | '\x22' :: '\x22' :: '\x22' :: cs => basicLines? .none [] (afterBreak cs)
  | '\x27' :: '\x27' :: '\x27' :: cs => literalLines? [] (afterBreak cs)
  | '\x22' :: cs => basic? [] cs
  | '\x27' :: cs => literal? cs
  | _ => none

/-- Digits with single underscores between them, after those read so far, newest
first. An underscore is followed by a digit. -/
def groupedLoop (isDigit : Char → Bool) (read : List Char) :
    List Char → Option (List Char × List Char)
  | [] => some (read.reverse, [])
  | [c] => if c = '_' then none else if isDigit c then some ((c :: read).reverse, [])
    else some (read.reverse, [c])
  | c :: d :: cs =>
    if c = '_' then
      if isDigit d then groupedLoop isDigit (d :: read) cs else none
    else if isDigit c then groupedLoop isDigit (c :: read) (d :: cs)
    else some (read.reverse, c :: d :: cs)

/-- One digit and more digits with single underscores between them. -/
def grouped? (isDigit : Char → Bool) : List Char → Option (List Char × List Char)
  | c :: cs => if isDigit c then groupedLoop isDigit [c] cs else none
  | [] => none

/-- The sign at the front of a text. -/
def sign : List Char → Bool × List Char
  | '-' :: cs => (true, cs)
  | '+' :: cs => (false, cs)
  | cs => (false, cs)

/-- Decimal digits without a leading zero, but for zero itself. -/
def decimal? : List Char → Option (List Char × List Char)
  | '0' :: cs => some (['0'], cs)
  | cs => grouped? Char.isDigit cs

/-- The value of digits in a base. -/
def valueIn (base : Nat) (digits : List Char) : Nat :=
  digits.foldl (fun n c => n * base + (Json.hexValue? c).getD 0) 0

/-- The value of digits in a base, if it is below a bound. More digits never make
a value smaller, so the bound holds at every digit. -/
def valueBelow? (bound base : Nat) (digits : List Char) : Option Nat :=
  digits.foldl (fun value c => do
    let n := (← value) * base + (Json.hexValue? c).getD 0
    if n < bound then some n else none) (some 0)

/-- A number in a base that is a power of two, which fits 63 bits. -/
def based? (base : Nat) (isDigit : Char → Bool) (cs : List Char) :
    Option (Datum × List Char) := do
  let (ds, cs) ← grouped? isDigit cs
  let n ← valueBelow? (Nat.pow 2 63) base ds
  return (.natural n, cs)

/-- An integer of 64 bits. -/
def integer? : List Char → Option (Datum × List Char)
  | '0' :: 'x' :: cs => based? 16 (fun c => (Json.hexValue? c).isSome) cs
  | '0' :: 'o' :: cs => based? 8 (fun c => '0' ≤ c && c ≤ '7') cs
  | '0' :: 'b' :: cs => based? 2 (fun c => c = '0' || c = '1') cs
  | cs => do
    let (negative, cs) := sign cs
    let (ds, cs) ← decimal? cs
    if negative then
      let n ← valueBelow? (Nat.pow 2 63 + 1) 10 ds
      return (if n = 0 then .natural 0 else .numeral ("-" ++ toString n), cs)
    else
      let n ← valueBelow? (Nat.pow 2 63) 10 ds
      return (.natural n, cs)

/-- Halfway from the largest double to the next power of two. From here on numbers
round to infinity. It has 309 decimal digits. -/
def infinityBound : Nat := Nat.pow 2 1024 - Nat.pow 2 970

/-- Whether a decimal number is too large for a double. The place of its first
digit decides, unless that is the place of the bound's first digit; then the
digits before the point are compared. -/
def overflows (whole frac : List Char) (exponent : Int) : Bool :=
  let digits := (whole ++ frac).dropWhile (· = '0')
  let point : Int := exponent + digits.length - frac.length
  if digits.isEmpty then false
  else if point = 309 then
    infinityBound ≤ valueIn 10 ((digits ++ List.replicate 309 '0').take 309)
  else 309 < point

/-- The value of the digits of an exponent. Digits after the value has reached
`2 ^ 16` are passed over. -/
def exponentValue (digits : List Char) : Nat :=
  digits.foldl (fun n c => if n < Nat.pow 2 16 then n * 10 + (Json.hexValue? c).getD 0 else n) 0

/-- The exponent at the front of a text. -/
def exponent? : List Char → Option (Int × List Char)
  | e :: cs =>
    if e = 'e' || e = 'E' then do
      let (negative, cs) := sign cs
      let (ds, cs) ← grouped? Char.isDigit cs
      let n : Int := exponentValue ds
      return (if negative then -n else n, cs)
    else none
  | [] => none

/-- A number with a fraction or an exponent, or one of the two special numbers.
A positive number too large for a double is refused. -/
def float? (cs : List Char) : Option (Datum × List Char) :=
  let (negative, rest) := sign cs
  match rest with
  | 'i' :: 'n' :: 'f' :: rest => some (.numeral "inf", rest)
  | 'n' :: 'a' :: 'n' :: rest => some (.numeral "nan", rest)
  | rest => do
    let (whole, rest) ← decimal? rest
    let (frac, exponent, rest) ← match rest with
      | '.' :: rest => do
        let (frac, rest) ← grouped? Char.isDigit rest
        match exponent? rest with
        | some (n, rest) => pure (frac, n, rest)
        | none => pure (frac, 0, rest)
      | rest => do
        let (n, rest) ← exponent? rest
        pure ([], n, rest)
    if !negative && overflows whole frac exponent then none
    else return (.numeral "float", rest)

/-- Exactly `n` decimal digits and their value. -/
def fixed? (n : Nat) (cs : List Char) : Option (Nat × List Char) :=
  let ds := cs.take n
  if ds.length = n ∧ ds.all Char.isDigit then some (valueIn 10 ds, cs.drop n) else none

/-- The text after a character at its front. -/
def after? (x : Char) : List Char → Option (List Char)
  | c :: cs => if c = x then some cs else none
  | [] => none

/-- Whether a year has a day more than others. -/
def isLeap (year : Nat) : Bool := year % 4 == 0 && (year % 100 != 0 || year % 400 == 0)

/-- The days of a month. -/
def daysIn (year month : Nat) : Nat :=
  if month = 2 then if isLeap year then 29 else 28
  else if month = 4 || month = 6 || month = 9 || month = 11 then 30
  else 31

/-- A date, year first. -/
def date? (cs : List Char) : Option (List Char) := do
  let (year, cs) ← fixed? 4 cs
  let cs ← after? '-' cs
  let (month, cs) ← fixed? 2 cs
  let cs ← after? '-' cs
  let (day, cs) ← fixed? 2 cs
  if 1 ≤ month ∧ month ≤ 12 ∧ 1 ≤ day ∧ day ≤ daysIn year month then some cs else none

/-- A fraction of a second, if there is one. -/
def secondFraction : List Char → List Char
  | '.' :: cs =>
    match cs.takeWhile Char.isDigit with
    | [] => '.' :: cs
    | _ => cs.dropWhile Char.isDigit
  | cs => cs

/-- A time of day. -/
def time? (cs : List Char) : Option (List Char) := do
  let (hour, cs) ← fixed? 2 cs
  let cs ← after? ':' cs
  let (minute, cs) ← fixed? 2 cs
  let cs ← after? ':' cs
  let (second, cs) ← fixed? 2 cs
  if hour ≤ 23 ∧ minute ≤ 59 ∧ second ≤ 60 then some (secondFraction cs) else none

/-- A distance from universal time. -/
def zone? : List Char → Option (List Char)
  | c :: cs =>
    if c = 'Z' || c = 'z' then some cs
    else if c = '+' || c = '-' then do
      let (hour, cs) ← fixed? 2 cs
      let cs ← after? ':' cs
      let (minute, cs) ← fixed? 2 cs
      if hour ≤ 23 ∧ minute ≤ 59 then some cs else none
    else none
  | [] => none

/-- The time of day after a date, if there is one. -/
def timeAfterDate (cs : List Char) : List Char :=
  match cs with
  | c :: rest =>
    if c = 'T' || c = 't' || c = ' ' then
      match time? rest with
      | some rest => (zone? rest).getD rest
      | none => cs
    else cs
  | [] => cs

/-- A date, a time or both. It reads as a record of one field. -/
def moment? (cs : List Char) : Option (Datum × List Char) :=
  let rest := match date? cs with
    | some cs => some (timeAfterDate cs)
    | none => time? cs
  rest.map fun rest => (.record [("datetime", .text "")], rest)

/-- A number, a date or a time. -/
def number? (cs : List Char) : Option (Datum × List Char) :=
  (moment? cs).or ((float? cs).or (integer? cs))

/-- A truth value. -/
def bool? : List Char → Option (Datum × List Char)
  | 't' :: 'r' :: 'u' :: 'e' :: cs => some (.bool true, cs)
  | 'f' :: 'a' :: 'l' :: 's' :: 'e' :: cs => some (.bool false, cs)
  | _ => none

end Recognizer.Toml
