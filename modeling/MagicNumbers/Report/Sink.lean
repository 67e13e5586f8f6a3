/-
  Writing reports one after another.

  A sink holds what has been written and the tally of the reports it came from.  As text each report
  is followed by a line end.  As JSON all rows make up one array.

  * `Sink.writeAll` writes a list of reports.
  * `Sink.receive` writes numbered reports that come in any order, each as soon as all before it have
    been written.
-/
import MagicNumbers.Report.Json
import MagicNumbers.Report.Delivery
import MagicNumbers.Settings

namespace MagicNumbers

/-- How many files came out how, and how many findings were written. -/
structure Tally where
  scanned : Nat := 0
  skipped : Nat := 0
  failed : Nat := 0
  findings : Nat := 0
  deriving DecidableEq, Repr

/-- The tally with one more report. -/
def Tally.add (t : Tally) (r : FileReport) : Tally :=
  let t := { t with findings := t.findings + r.status.findings.length }
  match r.status with
  | .scanned _ => { t with scanned := t.scanned + 1 }
  | .unsupported => { t with skipped := t.skipped + 1 }
  | .tooLarge .. => { t with skipped := t.skipped + 1 }
  | .failed _ => { t with failed := t.failed + 1 }

/-- Where reports are written to. -/
structure Sink where
  format : OutputFormat
  /-- Whether no row has been written yet. -/
  isFirst : Bool := true
  output : String := ""
  tally : Tally := {}
  deriving DecidableEq, Repr

namespace Sink

/-- An open sink. -/
def start (format : OutputFormat) : Sink :=
  match format with
  | .text => { format }
  | .json => { format, output := "[" }

/-- Writes a row, parted from the one before. -/
def writeRow (s : Sink) (row : Json.Row) : Sink :=
  let sep := if s.isFirst then "" else ","
  { s with isFirst := false, output := s.output ++ sep ++ String.ofList (Json.printRow row) }

/-- Writes a report. -/
def write (s : Sink) (r : FileReport) : Sink :=
  let s := { s with tally := s.tally.add r }
  match s.format with
  | .text => { s with output := s.output ++ r.render ++ "\n" }
  | .json => (Json.rows r).foldl writeRow s

/-- Closes the sink. -/
def finish (s : Sink) : String × Tally :=
  match s.format with
  | .text => (s.output, s.tally)
  | .json => (s.output ++ "]", s.tally)

/-- Writes reports in turn. -/
def writeAll (s : Sink) (reports : List FileReport) : Sink := reports.foldl write s

/-- Reports that never came. -/
def endedEarly (written count : Nat) : Failure :=
  ⟨s!"scan worker terminated early ({written}/{count} files reported)", []⟩

/-- Writes numbered reports as they come, of which there ought to be `count`. -/
def receive (s : Sink) (count : Nat) (arrivals : List (Nat × FileReport)) :
    Sink × Option Failure :=
  let (reports, d) := Delivery.arriveAll {} arrivals
  (s.writeAll reports, if d.next = count then none else some (endedEarly d.next count))

end Sink

end MagicNumbers
