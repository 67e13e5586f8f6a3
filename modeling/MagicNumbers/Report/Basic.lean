/-
  What is said about one file.
-/
import MagicNumbers.Scan.Finding

namespace MagicNumbers

/-- What became of a file. -/
inductive FileStatus where
  | scanned (findings : List Finding)
  /-- Its extension is none of those to scan. -/
  | unsupported
  /-- It is larger than the limit and was not read. -/
  | tooLarge (size max : Nat)
  /-- It could not be read or lexed; nothing found in it counts. -/
  | failed (reason : String)
  deriving DecidableEq, Repr

namespace FileStatus

/-- The status in one word. -/
def label : FileStatus → String
  | scanned _ => "scanned"
  | unsupported => "unsupported"
  | tooLarge .. => "too_large"
  | failed _ => "failed"

/-- Why a file was not scanned, if there is more to say than its status. -/
def reason : FileStatus → Option String
  | tooLarge size max => some s!"{size} bytes exceeds the {max} byte limit"
  | failed reason => some reason
  | scanned _ => none
  | unsupported => none

/-- The findings that count. -/
def findings : FileStatus → List Finding
  | scanned fs => fs
  | _ => []

end FileStatus

/-- A file, under the name it is shown by, and what became of it. -/
structure FileReport where
  file : String
  status : FileStatus
  deriving DecidableEq, Repr

namespace FileReport

/-- Whether the file was scanned and nothing was found. -/
def isClean (r : FileReport) : Bool := r.status == .scanned []

/-- One line of a report. -/
def findingLine (f : Finding) : String := s!"\n\t@ Line {f.line}: {f.text}"

/-- The report as text, without a line end after it. -/
def render (r : FileReport) : String :=
  match r.status with
  | .scanned [] => s!"{r.file} has no magic numbers."
  | .scanned fs =>
    s!"{r.file} has {fs.length} magic numbers:" ++ String.join (fs.map findingLine)
  | status =>
    match status.reason with
    | some reason => s!"{r.file} not scanned: {reason}"
    | none => s!"{r.file} not scanned."

end FileReport

end MagicNumbers
