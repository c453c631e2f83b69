import Recognizer.Document.Datum

/-!
# Tables of TOML

A document builds its tables by headers and by dotted keys. How a table came
about decides what may still be added to it: a header may complete a table that
earlier headers only passed through, a dotted key may only extend tables made by
dotted keys of the same section, and no key is set twice.
-/
namespace Recognizer.Toml

/-- How a table came about. -/
inductive Origin where
  /-- A header names it, or it is the root. -/
  | header
  /-- A header named a table inside it. -/
  | passed
  /-- A dotted key goes through it. -/
  | dotted
  deriving DecidableEq, Repr

/-- What a key is set to. -/
inductive Item where
  /-- A closed value. -/
  | leaf (d : Datum)
  | table (origin : Origin) (entries : List (String × Item))
  /-- The elements of an array of tables, newest first. -/
  | tables (elements : List (List (String × Item)))
  deriving Inhabited

/-- The keys of a table with what they are set to. -/
abbrev Entries := List (String × Item)

mutual

/-- The datum of an item. -/
def Item.datum : Item → Datum
  | .leaf d => d
  | .table _ entries => .record (fieldsOf entries)
  | .tables elements => .list (elementsOf [] elements)

/-- The fields of a table. -/
def fieldsOf : List (String × Item) → List (String × Datum)
  | [] => []
  | e :: es => (e.1, e.2.datum) :: fieldsOf es

/-- The elements of an array of tables, oldest first. -/
def elementsOf (read : List Datum) : List (List (String × Item)) → List Datum
  | [] => read
  | es :: rest => elementsOf (.record (fieldsOf es) :: read) rest

end

namespace Entries

/-- Replace what a key is set to. -/
def replace (key : String) (item : Item) : Entries → Entries
  | [] => []
  | e :: es => if e.1 == key then (key, item) :: es else e :: replace key item es

/-- Unset a key. -/
def remove (key : String) (es : Entries) : Entries := es.filter fun e => e.1 != key

/-- Change the table at a path and tell something about it. Missing tables on
the path are made; arrays of tables are entered at their newest element; values
are not entered, and dotted keys do not enter tables that a header names. -/
def within {α : Type} (dotted : Bool) (change : Origin → Entries → Option (α × Entries)) :
    List String → Origin → Entries → Option (α × Entries)
  | [], origin, es => change origin es
  | key :: path, _, es =>
    match es.lookup key with
    | none => do
      let made := if dotted then .dotted else .passed
      let (a, inner) ← within dotted change path made []
      return (a, es ++ [(key, .table made inner)])
    | some (.leaf _) => none
    | some (.tables []) => none
    | some (.tables (newest :: older)) => do
      let (a, newest) ← within dotted change path .header newest
      return (a, es.replace key (.tables (newest :: older)))
    | some (.table origin inner) =>
      if dotted && origin == .header then none
      else do
        let (a, inner) ← within dotted change path origin inner
        return (a, es.replace key (.table origin inner))

/-- Set a dotted key. Its last part must be unset, in a table that other dotted
keys made, or in the section itself if the key has one part only. -/
def assign (es : Entries) (path : List String) (key : String) (item : Item) : Option Entries :=
  (within true (fun origin es =>
    if (origin == .dotted) == path.isEmpty then none
    else if (es.lookup key).isSome then none
    else some ((), es ++ [(key, item)])) path .header es).map Prod.snd

/-- Take the table that a header names out of its parent: the entries it has if
earlier headers passed through it, and none if it is new. -/
def takeTable (es : Entries) (path : List String) (key : String) : Option (Entries × Entries) :=
  within false (fun _ es =>
    match es.lookup key with
    | none => some ([], es)
    | some (.table .passed inner) => some (inner, es.remove key)
    | some _ => none) path .header es

/-- Check that a header of an array of tables does not name anything else. -/
def checkTables (es : Entries) (path : List String) (key : String) : Option Entries :=
  (within false (fun _ es =>
    match es.lookup key with
    | none | some (.tables _) => some ((), es)
    | some _ => none) path .header es).map Prod.snd

/-- Put the table of a header into its parent. -/
def putTable (es : Entries) (path : List String) (key : String) (inner : Entries) :
    Option Entries :=
  (within false (fun _ es =>
    some ((), es.remove key ++ [(key, .table .header inner)])) path .header es).map Prod.snd

/-- Put a new element behind the others of an array of tables. -/
def putElement (es : Entries) (path : List String) (key : String) (inner : Entries) :
    Option Entries :=
  (within false (fun _ es =>
    match es.lookup key with
    | none => some ((), es ++ [(key, .tables [inner])])
    | some (.tables elements) => some ((), es.replace key (.tables (inner :: elements)))
    | some _ => none) path .header es).map Prod.snd

end Entries

/-- What a header names: its parent's path, its own key and whether it adds an
element to an array of tables. -/
structure Heading where
  path : List String
  key : String
  isElement : Bool

/-- A document read up to some line: the finished sections, the heading of
the open section and its entries. Before the first header there is no heading. -/
structure Builder where
  root : Entries := []
  heading? : Option Heading := none
  entries : Entries := []

namespace Builder

/-- Finish the open section. -/
def finish (b : Builder) : Option Entries :=
  match b.heading? with
  | none => some b.entries
  | some s =>
    if s.isElement then b.root.putElement s.path s.key b.entries
    else b.root.putTable s.path s.key b.entries

/-- Open the section of a table. -/
def openTable (b : Builder) (path : List String) (key : String) : Option Builder := do
  let root ← b.finish
  let (entries, root) ← root.takeTable path key
  return ⟨root, some ⟨path, key, false⟩, entries⟩

/-- Open the section of a new element of an array of tables. -/
def openElement (b : Builder) (path : List String) (key : String) : Option Builder := do
  let root ← b.finish
  let root ← root.checkTables path key
  return ⟨root, some ⟨path, key, true⟩, []⟩

/-- Set a dotted key in the open section. -/
def assign (b : Builder) (path : List String) (key : String) (d : Datum) : Option Builder := do
  let entries ← b.entries.assign path key (.leaf d)
  return { b with entries := entries }

end Builder
end Recognizer.Toml
