/-!
# Data in documents

The values that documents carry, whatever their format. A record keeps its
fields in the order in which they are written. A numeral that is not a plain
natural number is kept as it is written, since nothing here computes with it.
-/
namespace Recognizer

/-- A value of a document. -/
inductive Datum where
  | null
  | bool (b : Bool)
  | natural (n : Nat)
  | numeral (written : String)
  | text (s : String)
  | list (items : List Datum)
  | record (fields : List (String × Datum))
  deriving Inhabited, Repr

namespace Datum

/-- The field of a record. -/
def field? (d : Datum) (name : String) : Option Datum :=
  match d with
  | record fields => fields.lookup name
  | _ => none

/-- The items of a list. -/
def items? : Datum → Option (List Datum)
  | list items => some items
  | _ => none

/-- The fields of a record. -/
def fields? : Datum → Option (List (String × Datum))
  | record fields => some fields
  | _ => none

/-- A text. -/
def text? : Datum → Option String
  | text s => some s
  | _ => none

/-- A truth value. -/
def bool? : Datum → Option Bool
  | bool b => some b
  | _ => none

/-- A natural number. -/
def natural? : Datum → Option Nat
  | natural n => some n
  | _ => none

/-- Whether a value is the null value. -/
def isNull : Datum → Bool
  | null => true
  | _ => false

/-- An optional value, or null. -/
def ofOption : Option Datum → Datum
  | some d => d
  | none => null

end Datum
end Recognizer
