/-
  Scanning a file or a directory.

  * `reportOn` reports on one file.
  * `inputFiles` lists what is to be scanned: a file as it is given, or the supported files below a
    directory, sorted by their names from it on.
  * `Job.arrivals` lets workers share the files; `Job.writeReports` writes their reports in order.
  * `Job.writeInto` writes them into a file that may be one of those that are scanned.
  * `writeReport` is the whole of a run, from the settings to the finished text and tally;
    `writeReportInto` is the same with a file to write into.
-/
import MagicNumbers.Scan.Frames
import MagicNumbers.Report.FileSink
import MagicNumbers.Report.Delivery

namespace MagicNumbers

/-- Reports on a file.  Its extension is looked at before the file is. -/
def reportOn (w : Workspace) (opts : LexOptions) (extensions : List String) (p : Path) :
    FileReport :=
  let status :=
    if isSupported extensions p then
      match w.read p with
      | .error e => .failed e.message
      | .ok content =>
        match scan opts content with
        | .ok findings => .scanned findings
        | .error e => .failed e.message
    else .unsupported
  ⟨p.display, status⟩

/-- What it takes to report on each file of a run. -/
structure Job where
  lexing : LexOptions
  extensions : List String
  sizeLimit : Option Nat
  deriving DecidableEq, Repr

namespace Job

/-- The job that settings and options make. -/
def ofSettings (s : Settings) (run : RunOptions) : Job :=
  ⟨s.lexOptions run, s.extensions, s.sizeLimit run⟩

/-- The size of a file and the limit that it exceeds. -/
def excess? (job : Job) (w : Workspace) (p : Path) : Option (Nat × Nat) :=
  match job.sizeLimit, w.size? p with
  | some max, some size => if max < size then some (size, max) else none
  | _, _ => none

/-- Reports on a file.  One that is too large is neither read nor asked for its extension. -/
def report (job : Job) (w : Workspace) (p : Path) : FileReport :=
  match job.excess? w p with
  | some (size, max) => ⟨p.display, .tooLarge size max⟩
  | none => reportOn w job.lexing job.extensions p

/-! ## Sharing the work -/

/-- The numbered files that one of `workers` workers takes. -/
def share (workers k : Nat) (files : List (Nat × Path)) : List (Nat × Path) :=
  files.filter fun file => file.1 % workers == k

/-- The numbered reports of some workers, as each finishes its share. -/
def arrivals (job : Job) (w : Workspace) (workers : Nat) (files : List Path) :
    List (Nat × FileReport) :=
  let numbered := files.zipIdx.map fun (p, n) => (n, p)
  let tasks := (List.range workers).map fun k =>
    Task.spawn fun _ => (share workers k numbered).map fun (n, p) => (n, job.report w p)
  tasks.flatMap Task.get

/-- How many workers scan when the number is left open.  It stands for the number of processors.  By
    `Job.writeReports_eq` any number gives the same report, unless that goes into a file that is scanned. -/
def defaultWorkers : Nat := 4

/-- Writes the reports on some files to a sink.  A single worker, or a single file, needs no sharing. -/
def writeReports (job : Job) (w : Workspace) (threads : Option Nat) (files : List Path)
    (sink : Sink) : Sink × Option Failure :=
  let threads := threads.getD defaultWorkers
  if 1 < threads ∧ 1 < files.length then
    sink.receive files.length (job.arrivals w (min threads files.length) files)
  else (sink.writeAll (files.map (job.report w)), none)

/-! ## Writing into a file -/

/-- Writes the reports on some files in turn into the file at a place.  It may be one of them: each is
    read while that file holds what has reached it so far. -/
def writeInto (job : Job) (w : Workspace) (place : Location) (files : List Path) (s : FileSink) :
    FileSink :=
  files.foldl (fun s p => s.write (job.report (w.put place (.file s.buffer.reached)) p)) s

/-- Writes the reports on some files into the file at a place, which is empty.  Workers may read that
    file at any time before they are done; here they are done before anything reaches it. -/
def writeReportsInto (job : Job) (w : Workspace) (place : Location) (threads : Option Nat)
    (files : List Path) (format : OutputFormat) : Sink × Option Failure :=
  if 1 < threads.getD defaultWorkers ∧ 1 < files.length then
    job.writeReports w threads files (Sink.start format)
  else ((job.writeInto w place files (FileSink.start format)).sink, none)

end Job

/-! ## Files of a run -/

/-- The paths of the supported files below a directory.  They are sorted by the names that lead to them,
    one name after the other, each as bytes. -/
def supportedBelow (w : Workspace) (dir : Location) (input : Path) (extensions : List String) :
    List Path :=
  let places := (w.filesBelow dir).mergeSort fun a b => decide (a ≤ b)
  (places.map fun place => place.foldl Path.join input).filter (isSupported extensions)

/-- The files to scan.  A file that is named is taken whatever its extension. -/
def inputFiles (w : Workspace) (input : Path) (extensions : List String) :
    Except Failure (List Path) :=
  match w.follow input with
  | .ok (_, .file _) => .ok [input]
  | .ok (place, .directory) => .ok (supportedBelow w place input extensions)
  | .error _ => .error ⟨s!"input not found: {input.display}", []⟩

/-- Scans a file or a directory and writes the reports in a given way. -/
def reportWith (w : Workspace) (input : Path) (run : RunOptions)
    (write : Job → List Path → Sink × Option Failure) : Except Failure (String × Tally) :=
  match Settings.find w run.settingsFile with
  | .error e => .error e
  | .ok settings =>
    let job := Job.ofSettings settings run
    match inputFiles w input job.extensions with
    | .error e => .error e
    | .ok files =>
      match write job files with
      | (sink, none) => .ok sink.finish
      | (_, some e) => .error e

/-- Scans a file or a directory and writes the reports. -/
def writeReport (w : Workspace) (input : Path) (run : RunOptions) :
    Except Failure (String × Tally) :=
  reportWith w input run fun job files =>
    job.writeReports w run.threads files (Sink.start run.format)

/-- Scans a file or a directory and writes the reports into the file at a place, which is empty. -/
def writeReportInto (w : Workspace) (place : Location) (input : Path) (run : RunOptions) :
    Except Failure (String × Tally) :=
  reportWith w input run fun job files =>
    job.writeReportsInto w place run.threads files run.format

end MagicNumbers
