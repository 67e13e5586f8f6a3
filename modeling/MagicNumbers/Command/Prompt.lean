/-
  Asking for the file to scan.
-/
import MagicNumbers.Job
import MagicNumbers.Text.Blank
import MagicNumbers.Lexeme.Comment

namespace MagicNumbers.Command

/-- What is shown before a name is read. -/
def promptText : String := "Enter file to scan: "

/-- The name on the first line of what was typed, without the white space around it. -/
def readName (typed : Bytes) : Except Failure String :=
  match Utf8.decode? (typed.take (lineLength typed)) with
  | none => .error ⟨"read file name", [FileError.notText.message]⟩
  | some line =>
    let name := Text.trim line
    if name.isEmpty then .error ⟨"no file name given", []⟩ else .ok name

/-- Reads a name and scans the file or directory of that name.  Gives what is shown, and what went
    wrong. -/
def scanTyped (w : Workspace) (typed : Bytes) : String × Option Failure :=
  match readName typed with
  | .error e => (promptText, some e)
  | .ok name =>
    match writeReport w (Bytes.ofString name) { threads := some 1 } with
    | .error e => (promptText, some (e.under s!"scan {name}"))
    | .ok (output, _) => (promptText ++ output, none)

end MagicNumbers.Command
