import Recognizer.Source.Span

/-!
# Files

What stands at a path, as far as reading a text from it is concerned.
-/
namespace Recognizer

/-- What stands at a path. -/
inductive File where
  | missing
  | directory
  | holding (bytes : Bytes)
  deriving DecidableEq, Repr

/-- Why no text can be read from a file. -/
inductive ReadFault where
  | missing
  | directory
  | notText
  deriving DecidableEq, Repr

/-- The wording of a fault. -/
def ReadFault.message : ReadFault → String
  | .missing => "No such file or directory (os error 2)"
  | .directory => "Is a directory (os error 21)"
  | .notText => "stream did not contain valid UTF-8"

/-- The text that bytes encode. -/
def Bytes.text? (bytes : Bytes) : Option String := String.fromUTF8? ⟨bytes.toArray⟩

/-- The text of a file. -/
def File.text : File → Except ReadFault String
  | .missing => .error .missing
  | .directory => .error .directory
  | .holding bytes =>
    match bytes.text? with
    | some text => .ok text
    | none => .error .notText

end Recognizer
