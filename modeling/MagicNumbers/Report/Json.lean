/-
  Rows of a report in JSON.

  A row is an object whose members are texts and numbers, and a report is an array of rows on one
  line.  Quotes, backslashes and the characters below U+0020 are escaped, all others stand for
  themselves.
-/
import MagicNumbers.Report.Basic

namespace MagicNumbers.Json

/-- The value of a member. -/
inductive Scalar where
  | text (s : String)
  | number (n : Nat)
  deriving DecidableEq, Repr

/-- An object: its members in their order. -/
abbrev Row := List (String × Scalar)

/-! ## Printing -/

/-- A digit of base sixteen, in lower case. -/
def hexDigit (n : Nat) : Char :=
  if n < 10 then Char.ofNat ('0'.toNat + n) else Char.ofNat ('a'.toNat + (n - 10))

/-- A character as it stands between quotes. -/
def escapeChar (c : Char) : List Char :=
  if c = '"' then ['\\', '"']
  else if c = '\\' then ['\\', '\\']
  else if c = '\x08' then ['\\', 'b']
  else if c = '\t' then ['\\', 't']
  else if c = '\n' then ['\\', 'n']
  else if c = '\x0C' then ['\\', 'f']
  else if c = '\r' then ['\\', 'r']
  else if c.toNat < 0x20 then
    ['\\', 'u', '0', '0', hexDigit (c.toNat / 16), hexDigit (c.toNat % 16)]
  else [c]

/-- A text between quotes. -/
def quote (s : String) : List Char := '"' :: s.toList.flatMap escapeChar ++ ['"']

/-- A value. -/
def printScalar : Scalar → List Char
  | .text s => quote s
  | .number n => (toString n).toList

/-- A member of an object. -/
def printMember (m : String × Scalar) : List Char := quote m.1 ++ ':' :: printScalar m.2

/-- An object on one line. -/
def printRow (row : Row) : List Char :=
  '\x7b' :: [','].intercalate (row.map printMember) ++ ['\x7d']

/-! ## Rows of a file -/

/-- The row of a finding. -/
def findingRow (file : String) (f : Finding) : Row :=
  [("file", .text file), ("line", .number f.line), ("value", .text f.text)]

/-- The row of a file that was not scanned. -/
def statusRow (file : String) (status : FileStatus) : Row :=
  [("file", .text file), ("status", .text status.label)] ++
    (status.reason.map fun reason => ("reason", Scalar.text reason)).toList

/-- The rows that a report adds: one per finding, or one that says why there are none to have.  A clean
    file adds none. -/
def rows (r : FileReport) : List Row :=
  match r.status with
  | .scanned fs => fs.map (findingRow r.file)
  | status => [statusRow r.file status]

end MagicNumbers.Json
