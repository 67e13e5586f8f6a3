/-
  A run of the program, from its arguments to what it leaves behind.

  A scan opens its output file first, which empties a file of that name.  The settings, the input and
  the sources are read after that, and the report goes into the file while the sources are read.  So a
  run whose output file is among what it reads finds there what has reached the file by then.
-/
import MagicNumbers.Command.Request
import MagicNumbers.Command.Prompt

namespace MagicNumbers.Command

/-- What a run leaves behind: its exit code, what it wrote on either stream, and the files. -/
structure Outcome where
  code : Nat
  output : String
  error : String
  files : Workspace
  deriving DecidableEq, Repr

namespace Outcome

/-- A run that did what it was asked to. -/
def done (w : Workspace) (output : String) : Outcome := ⟨0, output, "", w⟩

/-- A run that failed. -/
def failed (w : Workspace) (output : String) (f : Failure) : Outcome := ⟨1, output, f.report, w⟩

/-- A run that was not understood. -/
def misused (w : Workspace) (e : UsageError) : Outcome := ⟨2, "", e.message, w⟩

end Outcome

/-- The name and the version of the program. -/
def versionText : String := "magicscan 0.1.0\n"

/-- How the program is used. -/
def helpText : String :=
  String.join <| [
    "Usage: magicscan [scan --input PATH [OPTIONS] | prompt]",
    "",
    "Options of scan:",
    "  --input PATH            file or directory to scan",
    "  --output FILE           write the report to a file",
    "  --format text|json      form of the report",
    "  --threads auto|N        number of workers",
    "  --max-file-size BYTES   leave larger files out",
    "  --config FILE           settings to use",
    "  --legacy-line-drift     count no lines of skipped blocks"].map (· ++ "\n")

/-- Reads a number of threads: `auto` leaves it open. -/
def threads? (s : String) : Except Failure (Option Nat) :=
  if s.toLower = "auto" then .ok none
  else
    match Text.natural? Text.maxWord s with
    | some (n + 1) => .ok (some (n + 1))
    | _ => .error ⟨s!"invalid --threads value: {s}", []⟩

/-- The options of a run that a request makes. -/
def ScanRequest.runOptions (r : ScanRequest) (threads : Option Nat) : RunOptions :=
  { maxFileSize := r.maxFileSize
    format := r.format
    settingsFile := r.settingsFile
    legacyLineDrift := r.legacyLineDrift
    threads }

/-- Scans, and says what goes wrong on the way.  The report is to be shown, or goes into the file at
    `output`. -/
def ScanRequest.scan (r : ScanRequest) (w : Workspace) (threads : Option Nat)
    (output : Option Location) : Except Failure String :=
  let report :=
    match output with
    | none => writeReport w r.input (r.runOptions threads)
    | some place => writeReportInto w place r.input (r.runOptions threads)
  match report with
  | .error e => .error (e.under "scan and write failed")
  | .ok (text, _) => .ok text

/-- Carries out a scan.  With an output file, nothing is shown. -/
def ScanRequest.run (r : ScanRequest) (w : Workspace) : Outcome :=
  match threads? r.threads with
  | .error e => .failed w "" e
  | .ok threads =>
    match r.output with
    | none =>
      match r.scan w threads none with
      | .error e => .failed w "" e
      | .ok text => .done w text
    | some file =>
      match w.create file with
      | .error e => .failed w "" ⟨"create output file", [e.message]⟩
      | .ok (place, w) =>
        match r.scan w threads (some place) with
        | .error e => .failed w "" e
        | .ok text => .done (w.put place (.file (Bytes.ofString text))) ""

/-- Carries out a request. -/
def Request.run (r : Request) (w : Workspace) (typed : Bytes) : Outcome :=
  match r with
  | .help => .done w helpText
  | .version => .done w versionText
  | .scan r => r.run w
  | .prompt =>
    match scanTyped w typed with
    | (output, none) => .done w output
    | (output, some e) => .failed w output e

/-- The options of a run that the settings are looked up with. -/
def Request.settingsFile : Request → Option Path
  | .scan r => r.settingsFile
  | _ => none

/-- The output file of a request. -/
def Request.outputFile : Request → Option Path
  | .scan r => r.output
  | _ => none

/-- The extensions that a request scans, once its output file is open.  Without valid settings there are
    none. -/
def Request.extensions (r : Request) (w : Workspace) : List String :=
  let opened :=
    match r.outputFile.map w.create with
    | some (.ok (_, w)) => w
    | _ => w
  match Settings.find opened r.settingsFile with
  | .ok s => s.extensions
  | .error _ => []

/-- A run of the program with some arguments, on some files, with some typed text. -/
def run (w : Workspace) (args : List String) (typed : Bytes) : Outcome :=
  match Request.ofArgs args with
  | .error e => .misused w e
  | .ok r => r.run w typed

end MagicNumbers.Command
