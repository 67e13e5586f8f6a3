/-
  A report that is written into a file.

  A report is written piece by piece through a buffer.  A piece is held back until one comes that has no
  room beside it, so a file that is read while it is being written shows a part of the report.

  * `Buffer.write` writes a piece.
  * `Sink.pieces` gives the pieces that a report is written in.
  * `FileSink.write` writes a report.
-/
import MagicNumbers.Report.Sink

namespace MagicNumbers

/-! ## Buffers -/

/-- What is on its way into a file: the bytes that have reached it and those that are held back. -/
structure Buffer where
  reached : Bytes := []
  held : Bytes := []
  deriving DecidableEq, Repr

namespace Buffer

/-- How many bytes can be held back. -/
def capacity : Nat := 8192

/-- Lets through what is held back. -/
def flush (b : Buffer) : Buffer := ⟨b.reached ++ b.held, []⟩

/-- Writes a piece.  What is held back is let through before a piece that has no room beside it, and a
    piece that would fill the buffer is not held back. -/
def write (b : Buffer) (piece : Bytes) : Buffer :=
  let b := if capacity - b.held.length < piece.length then b.flush else b
  if capacity ≤ piece.length then { b with reached := b.reached ++ piece }
  else { b with held := b.held ++ piece }

end Buffer

/-! ## Pieces -/

namespace FileReport

/-- The pieces of one line of a report. -/
def findingPieces (f : Finding) : List String := ["\n\t@ Line ", toString f.line, ": ", f.text]

/-- The pieces of a report as text, without a line end after it. -/
def pieces (r : FileReport) : List String :=
  match r.status with
  | .scanned [] => [r.file, " has no magic numbers."]
  | .scanned fs =>
    [r.file, " has ", toString fs.length, " magic numbers:"] ++ fs.flatMap findingPieces
  | status =>
    match status.reason with
    | some reason => [r.file, " not scanned: ", reason]
    | none => [r.file, " not scanned."]

end FileReport

namespace Json

/-- Whether a character stands for itself between quotes. -/
def isPlain (c : Char) : Bool := escapeChar c == [c]

/-- The pieces of a text between quotes: each escape, and what stands between two of them. -/
def quotePieces (s : String) : List (List Char) :=
  let stretches := s.toList.splitBy fun a b => isPlain a && isPlain b
  ['"'] :: stretches.map (·.flatMap escapeChar) ++ [['"']]

/-- The pieces of a value. -/
def scalarPieces : Scalar → List (List Char)
  | .text s => quotePieces s
  | .number n => [(toString n).toList]

/-- The pieces of a member of an object. -/
def memberPieces (m : String × Scalar) : List (List Char) := quotePieces m.1 ++ [':'] :: scalarPieces m.2

/-- The pieces of an object. -/
def rowPieces (row : Row) : List (List Char) :=
  ['\x7b'] :: [[',']].intercalate (row.map memberPieces) ++ [['\x7d']]

end Json

namespace Sink

/-- The pieces of some rows, each parted from the one before. -/
def rowsPieces (isFirst : Bool) : List Json.Row → List String
  | [] => []
  | row :: rows =>
    let sep := if isFirst then [] else [","]
    sep ++ (Json.rowPieces row).map String.ofList ++ rowsPieces false rows

/-- The pieces that a report is written in. -/
def pieces (s : Sink) (r : FileReport) : List String :=
  match s.format with
  | .text => r.pieces ++ ["\n"]
  | .json => rowsPieces s.isFirst (Json.rows r)

end Sink

/-! ## Sinks -/

/-- A sink whose output goes into a file. -/
structure FileSink where
  sink : Sink
  buffer : Buffer
  deriving DecidableEq, Repr

namespace FileSink

/-- An open sink. -/
def start (format : OutputFormat) : FileSink :=
  let sink := Sink.start format
  ⟨sink, ({} : Buffer).write (Bytes.ofString sink.output)⟩

/-- Writes a report. -/
def write (s : FileSink) (r : FileReport) : FileSink :=
  ⟨s.sink.write r, ((s.sink.pieces r).map Bytes.ofString).foldl Buffer.write s.buffer⟩

end FileSink

end MagicNumbers
