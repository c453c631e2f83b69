import Recognizer.Document.File

/-!
# File trees

The directories and files around a root. A path is a text; the place it leads to
is the list of names on the way from the root. Reading gives the newest file at
a place, and writing takes the place of what was there.
-/
namespace Recognizer

/-- The names that lead from the root to a place. Double dots stand at the front
only, where they lead above the root. -/
abbrev Place := List String

namespace Place

/-- The names in a path. Empty names and single dots lead nowhere. -/
def names (path : String) : List String :=
  (path.splitOn "/").filter fun name => name != "" && name != "."

/-- One step from a place whose names are given last first. A double dot takes
the last step back. -/
def step (here : List String) (name : String) : List String :=
  if name = ".." then
    match here with
    | last :: above => if last = ".." then name :: here else above
    | [] => [name]
  else name :: here

/-- The place that names lead to when every directory on the way is there. -/
def ofNames (names : List String) : Place := (names.foldl step []).reverse

end Place

/-- The directories and files around a root. -/
structure FileTree where
  root : String
  directories : List Place := []
  /-- The files with their bytes, newest first. -/
  files : List (Place × Bytes) := []

namespace FileTree

/-- Whether a directory stands at a place, as it does at the root and above. -/
def isDirectory (t : FileTree) (place : Place) : Bool :=
  place.all (· == "..") || t.directories.contains place

/-- Make the directories that names lead through and to. -/
def makeDirectories (t : FileTree) (names : List String) : FileTree :=
  let made := (List.range (names.length + 1)).map fun n => Place.ofNames (names.take n)
  { t with directories := made ++ t.directories }

/-- Put a file at a path from the root, and make the directories on the way. -/
def put (t : FileTree) (path : String) (bytes : Bytes) : FileTree :=
  let names := Place.names path
  let t := t.makeDirectories names.dropLast
  { t with files := (Place.ofNames names, bytes) :: t.files }

/-- Follow names from a place whose names are given last first. A double dot
leads out of directories only. -/
def follow? (t : FileTree) : List String → List String → Option Place
  | here, [] => some here.reverse
  | here, name :: rest =>
    if name == ".." && !t.isDirectory here.reverse then none
    else t.follow? (Place.step here name) rest

/-- The greatest number of bytes that a path may have. -/
def maxPath : Nat := 4095

/-- The place that a path leads to. A path that is too long leads nowhere, and
nothing is known of paths that do not begin with the root. -/
def locate? (t : FileTree) (path : String) : Option Place :=
  let below := t.root ++ "/"
  if path.utf8ByteSize ≤ maxPath ∧ below.isPrefixOf path then
    t.follow? [] (Place.names (path.drop below.length).toString)
  else none

/-- What stands at a place. -/
def stands (t : FileTree) (place : Place) : File :=
  match t.files.lookup place with
  | some bytes => .holding bytes
  | none => if t.isDirectory place then .directory else .missing

/-- What stands at a path. -/
def get (t : FileTree) (path : String) : File :=
  match t.locate? path with
  | some place => t.stands place
  | none => .missing

/-- Write a file at a path, in place of a file that is there already. A directory
is not written over, and none is made. -/
def write? (t : FileTree) (path : String) (bytes : Bytes) : Option FileTree :=
  match t.locate? path with
  | some place =>
    if t.isDirectory place ∨ ¬ t.isDirectory place.dropLast then none
    else some { t with files := (place, bytes) :: t.files }
  | none => none

/-- A path below another, unless it starts at the top. -/
def join (base path : String) : String :=
  if path.startsWith "/" then path
  else if base.endsWith "/" then base ++ path
  else base ++ "/" ++ path

/-- Which places are directories does not depend on the files. -/
theorem isDirectory_files (t : FileTree) (files : List (Place × Bytes)) (place : Place) :
    isDirectory { t with files := files } place = t.isDirectory place := rfl

/-- Where names lead does not depend on the files. -/
theorem follow?_files (t : FileTree) (files : List (Place × Bytes)) (here names : List String) :
    follow? { t with files := files } here names = t.follow? here names := by
  induction names generalizing here with
  | nil => rfl
  | cons name rest ih => rw [follow?, follow?, isDirectory_files, ih]

/-- Where a path leads does not depend on the files. -/
theorem locate?_files (t : FileTree) (files : List (Place × Bytes)) (path : String) :
    locate? { t with files := files } path = t.locate? path := by
  simp only [locate?, follow?_files]

/-- A written file can be read back. -/
theorem get_of_write? {t u : FileTree} {path : String} {bytes : Bytes}
    (h : t.write? path bytes = some u) : u.get path = .holding bytes := by
  unfold write? at h
  split at h
  · next place hp =>
    split at h
    · cases h
    · obtain rfl := Option.some.inj h
      rw [get, locate?_files, hp]
      simp [stands]
  · cases h

end FileTree
end Recognizer
