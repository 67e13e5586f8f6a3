/-
  Scanning a directory is scanning its files one after the other.

  The files of a directory are scanned as each of them is alone, although no extension is asked for
  when a file alone is listed.  The reports are written in turn, so as text they follow each other, and
  the tally is the sum of the tallies.

  * `Tally.foldl_add` — tallies added up.
  * `Workspace.Reordered` — trees that hold their entries in different orders; runs come out alike.
  * `scan_directory` — a scan of a directory against the scans of its files.
-/
import Mathlib.Data.List.Forall2
import MagicNumbers.Proofs.Delivery
import MagicNumbers.Proofs.Directory
import MagicNumbers.Proofs.JsonReport

open scoped List

namespace MagicNumbers

/-! ## Tallies added up -/

instance : Add Tally where
  add a b :=
    ⟨a.scanned + b.scanned, a.skipped + b.skipped, a.failed + b.failed, a.findings + b.findings⟩

instance : Zero Tally where
  zero := {}

namespace Tally

theorem plus_eq (a b : Tally) : a + b =
    ⟨a.scanned + b.scanned, a.skipped + b.skipped, a.failed + b.failed, a.findings + b.findings⟩ :=
  rfl

theorem zero_eq : (0 : Tally) = ⟨0, 0, 0, 0⟩ := rfl

theorem zero_add (t : Tally) : 0 + t = t := by
  simp only [plus_eq, zero_eq, Nat.zero_add]

/-- A report adds to a tally what it makes alone. -/
theorem add_eq (t : Tally) (r : FileReport) : t.add r = t + add 0 r := by
  obtain ⟨file, status⟩ := r
  cases status <;> simp [add, plus_eq, zero_eq]

theorem foldl_add (t : Tally) (reports : List FileReport) :
    reports.foldl add t = t + (reports.map (add 0)).sum := by
  induction reports generalizing t with
  | nil => simp [plus_eq, zero_eq]
  | cons r reports ih =>
    rw [List.foldl_cons, ih, add_eq, List.map_cons, List.sum_cons]
    simp only [plus_eq, Nat.add_assoc]

end Tally

/-! ## Reports one after the other -/

namespace Sink

theorem tally_start (format : OutputFormat) : (Sink.start format).tally = 0 := by
  cases format <;> rfl

/-- As text, each report is followed by a line end. -/
theorem output_writeAll_text {s : Sink} (h : s.format = .text) (reports : List FileReport) :
    (s.writeAll reports).finish.1 =
      s.output ++ String.join (reports.map fun r => r.render ++ "\n") := by
  obtain ⟨format, isFirst, output, tally⟩ := s
  obtain rfl : format = .text := h
  induction reports generalizing output tally with
  | nil => exact String.append_empty.symm
  | cons r reports ih =>
    rw [List.map_cons, String.join_cons, ← String.append_assoc, ← String.append_assoc]
    exact ih (output ++ r.render ++ "\n") (tally.add r)

end Sink

/-! ## Trees in another order -/

/-- Two trees with the same entries, in whatever order each holds them. -/
structure Workspace.Reordered (w w' : Workspace) : Prop where
  current : w.current = w'.current
  entries : w.entries ~ w'.entries

namespace Workspace.Reordered

variable {w w' : Workspace}

theorem node? (h : w.Reordered w') (htree : w.IsTree) (place : Location) :
    w.node? place = w'.node? place := by
  have hnodup' : (w'.entries.map Prod.fst).Nodup := (h.entries.map _).nodup_iff.1 htree.nodup
  rw [Workspace.node?, Workspace.node?]
  split
  · rfl
  · apply Option.ext
    intro node
    rw [lookup_eq_some_iff_mem htree.nodup, lookup_eq_some_iff_mem hnodup', h.entries.mem_iff]

theorem followParts (h : w.Reordered w') (htree : w.IsTree) (place : Location) (node : Node)
    (parts : List Name) : w.followParts place node parts = w'.followParts place node parts := by
  induction parts generalizing place node with
  | nil => rfl
  | cons part parts ih =>
    cases node with
    | file content => rfl
    | directory => simp only [Workspace.followParts, ih, h.node? htree]

theorem follow (h : w.Reordered w') (htree : w.IsTree) (p : Path) : w.follow p = w'.follow p := by
  rw [Workspace.follow, Workspace.follow, h.followParts htree, origin, origin, h.current]

theorem read (h : w.Reordered w') (htree : w.IsTree) (p : Path) : w.read p = w'.read p := by
  rw [Workspace.read, Workspace.read, h.follow htree]

/-- The settings are found in either tree. -/
theorem find (h : w.Reordered w') (htree : w.IsTree) (named : Option Path) :
    Settings.find w named = Settings.find w' named := by
  have hload : ∀ file, Settings.load w file = Settings.load w' file := by
    intro file
    rw [Settings.load, Settings.load, readText, readText, h.read htree]
  have hisFile : w.isFile Settings.defaultFile = w'.isFile Settings.defaultFile := by
    rw [isFile, isFile, h.follow htree]
  cases named with
  | some file => exact hload file
  | none => simp only [Settings.find, hload, hisFile]

/-- So are the files to scan. -/
theorem inputFiles (h : w.Reordered w') (htree : w.IsTree) (input : Path) (extensions : List String) :
    inputFiles w input extensions = inputFiles w' input extensions := by
  have hfiles : ∀ place, supportedBelow w place input extensions =
      supportedBelow w' place input extensions := by
    intro place
    rw [supportedBelow, supportedBelow, mergeSort_eq_of_perm (filesBelow_perm h.entries place)]
  rw [MagicNumbers.inputFiles, MagicNumbers.inputFiles, h.follow htree]
  simp only [hfiles]

/-- A file is reported on alike. -/
theorem report (h : w.Reordered w') (htree : w.IsTree) (job : Job) (p : Path) :
    job.report w p = job.report w' p := by
  rw [Job.report, Job.report, Job.excess?, Job.excess?, size?, size?, h.follow htree, reportOn,
    reportOn, h.read htree]

end Workspace.Reordered

/-! ## A directory and its files -/

section

variable {w : Workspace} {input : Path} {place : Location} {run : RunOptions} {settings : Settings}

/-- A run that knows its settings and files leaves what is written of them. -/
theorem reportWith_eq {write : Job → List Path → Sink × Option Failure} {files : List Path} {s : Sink}
    (hsettings : Settings.find w run.settingsFile = .ok settings)
    (hfiles : inputFiles w input settings.extensions = .ok files)
    (hwrite : write (Job.ofSettings settings run) files = (s, none)) :
    reportWith w input run write = .ok s.finish := by
  have hfiles' : inputFiles w input (Job.ofSettings settings run).extensions = .ok files := hfiles
  simp only [reportWith, hsettings, hfiles', hwrite]

/-- A run that ends well has found its settings and its files. -/
theorem exists_of_reportWith {write : Job → List Path → Sink × Option Failure}
    {report : String × Tally} (h : reportWith w input run write = .ok report) :
    ∃ settings files, Settings.find w run.settingsFile = .ok settings ∧
      inputFiles w input settings.extensions = .ok files := by
  cases hsettings : Settings.find w run.settingsFile with
  | error e =>
    rw [reportWith, hsettings] at h
    cases h
  | ok settings =>
    cases hfiles : inputFiles w input settings.extensions with
    | error e =>
      have hfiles' : inputFiles w input (Job.ofSettings settings run).extensions = .error e := hfiles
      simp only [reportWith, hsettings, hfiles'] at h
      cases h
    | ok files => exact ⟨settings, files, rfl, hfiles⟩

/-- What a run writes, once its settings and files are known. -/
theorem writeReport_eq {files : List Path}
    (hsettings : Settings.find w run.settingsFile = .ok settings)
    (hfiles : inputFiles w input settings.extensions = .ok files) :
    writeReport w input run = .ok ((Sink.start run.format).writeAll
      (files.map ((Job.ofSettings settings run).report w))).finish :=
  reportWith_eq hsettings hfiles (Job.writeReports_eq ..)

/-- **The order in which a tree holds its entries does not show.** -/
theorem writeReport_reordered {w' : Workspace} (htree : w.IsTree) (h : w.Reordered w') (input : Path)
    (run : RunOptions) : writeReport w input run = writeReport w' input run := by
  have hreports : ∀ (job : Job) (files : List Path),
      files.map (job.report w) = files.map (job.report w') := by
    intro job files
    exact List.map_congr_left fun p _ => h.report htree job p
  simp only [writeReport, reportWith, h.find htree, h.inputFiles htree, Job.writeReports_eq, hreports]

/-- The files of a directory and what comes of scanning each of them alone, as a scan of the directory
    puts them together. -/
structure ScansInTurn (w : Workspace) (input : Path) (place : Location) (settings : Settings)
    (run : RunOptions) (files : List Path) (parts : List (String × Tally)) : Prop where
  listed : inputFiles w input settings.extensions = .ok files
  /-- They are the files at any depth below the directory whose path has one of the extensions. -/
  mem_iff : ∀ p, p ∈ files ↔ ∃ below content, below ≠ [] ∧
    w.node? (place ++ below) = some (.file content) ∧ p = below.foldl Path.join input ∧
    isSupported settings.extensions p
  /-- The path of a file goes on with the names that lead to it. -/
  components_eq : ∀ below content, below ≠ [] → w.node? (place ++ below) = some (.file content) →
    Path.components (below.foldl Path.join input) = Path.components input ++ below
  /-- Their paths ascend, component by component, so that none stands twice. -/
  ascending : files.Pairwise fun p q => Path.components p < Path.components q
  /-- The files below any one directory follow each other. -/
  contiguous : ∀ dir p q r, [p, q, r].Sublist files → dir <+: Path.components p →
    dir <+: Path.components r → dir <+: Path.components q
  /-- Each of them can be scanned alone, and what comes of that is the report on it. -/
  alone : List.Forall₂ (fun p part => writeReport w p run = .ok part ∧
    part = ((Sink.start run.format).writeAll [(Job.ofSettings settings run).report w p]).finish)
    files parts
  /-- A scan of the directory writes the reports on them, each once and in this order. -/
  reported : writeReport w input run = .ok ((Sink.start run.format).writeAll
    (files.map ((Job.ofSettings settings run).report w))).finish
  /-- The tallies are added up; as text, what is written is put together. -/
  together : ∃ output, writeReport w input run = .ok (output, (parts.map Prod.snd).sum) ∧
    (run.format = .text → output = String.join (parts.map Prod.fst))

/-- A file that is scanned with its directory is scanned alone in the same way. -/
theorem writeReport_alone (htree : w.IsTree) (hinput : w.follow input = .ok (place, .directory))
    (hsettings : Settings.find w run.settingsFile = .ok settings) {p : Path}
    (hp : p ∈ supportedBelow w place input settings.extensions) :
    writeReport w p run = .ok
      ((Sink.start run.format).writeAll [(Job.ofSettings settings run).report w p]).finish := by
  obtain ⟨below, content, hne, hnode, rfl, -⟩ := (mem_supportedBelow htree).1 hp
  have hlisted : inputFiles w (below.foldl Path.join input) settings.extensions =
      .ok [below.foldl Path.join input] := by
    rw [inputFiles, htree.follow_joined hinput hne hnode]
  exact writeReport_eq hsettings hlisted

/-- The reports on some files, and the report on each of them. -/
theorem finish_writeAll (format : OutputFormat) (reports : List FileReport) :
    let parts := reports.map fun r => ((Sink.start format).writeAll [r]).finish
    let whole := ((Sink.start format).writeAll reports).finish
    whole.2 = (parts.map Prod.snd).sum ∧
      (format = .text → whole.1 = String.join (parts.map Prod.fst)) := by
  intro parts whole
  constructor
  · have hparts : parts.map Prod.snd = reports.map (Tally.add 0) := by
      rw [List.map_map]
      apply List.map_congr_left
      intro r _
      show ((Sink.start format).writeAll [r]).finish.2 = Tally.add 0 r
      rw [Sink.tally_finish, Sink.tally_writeAll, Sink.tally_start]
      rfl
    rw [hparts, Sink.tally_finish, Sink.tally_writeAll, Sink.tally_start, Tally.foldl_add,
      Tally.zero_add]
  · rintro rfl
    have hparts : parts.map Prod.fst = reports.map fun r => r.render ++ "\n" := by
      rw [List.map_map]
      apply List.map_congr_left
      intro r _
      show "" ++ r.render ++ "\n" = r.render ++ "\n"
      rw [String.empty_append]
    have hwhole := Sink.output_writeAll_text (s := Sink.start .text) rfl reports
    rw [hparts, hwhole]
    exact String.empty_append

/-- **A scan of a directory is the scans of its files in turn**, whatever the order in which the tree
    holds its entries. -/
theorem scan_directory (htree : w.IsTree) (hinput : w.follow input = .ok (place, .directory))
    (hsettings : Settings.find w run.settingsFile = .ok settings) :
    (∃ files parts, ScansInTurn w input place settings run files parts) ∧
    ∀ w', w.Reordered w' → writeReport w' input run = writeReport w input run := by
  obtain ⟨files, hfiles⟩ : ∃ files, supportedBelow w place input settings.extensions = files :=
    ⟨_, rfl⟩
  have hlisted : inputFiles w input settings.extensions = .ok files := by
    rw [inputFiles, hinput, ← hfiles]
  have hinputNe : input ≠ [] := (Workspace.follow_eq_ok_iff.1 hinput).1
  have hascending : files.Pairwise fun p q => Path.components p < Path.components q := by
    rw [← hfiles]
    exact pairwise_supportedBelow htree hinputNe
  have hreported := writeReport_eq hsettings hlisted
  obtain ⟨htally, houtput⟩ :=
    finish_writeAll run.format (files.map ((Job.ofSettings settings run).report w))
  constructor
  · refine ⟨files, _, hlisted, ?_, ?_, hascending, ?_, ?_, hreported, _, ?_, houtput⟩
    · intro p
      rw [← hfiles]
      exact mem_supportedBelow htree
    · intro below content hne hnode
      exact Path.components_joined hinputNe (htree.of_node? hne hnode).1
    · intro dir p q r hsublist hp hr
      obtain ⟨hpast, hordered⟩ := List.pairwise_cons.1 (hascending.sublist hsublist)
      have hpq := hpast q (List.mem_cons_self ..)
      have hqr := (List.pairwise_cons.1 hordered).1 r (List.mem_cons_self ..)
      exact prefix_of_between hp hr hpq hqr
    · rw [List.map_map, List.forall₂_map_right_iff, List.forall₂_same]
      intro p hp
      rw [← hfiles] at hp
      exact ⟨writeReport_alone htree hinput hsettings hp, rfl⟩
    · rw [hreported, ← htally]
  · intro w' h
    exact (writeReport_reordered htree h input run).symm

end

/-- What is in the directory `a` comes before the file `a-b.java`, although not by the bytes of the
    paths. -/
theorem scan_directory_two :
    let a := Bytes.ofString "a"
    let b := Bytes.ofString "a-b.java"
    let c := Bytes.ofString "c.java"
    let d := Bytes.ofString "d.txt"
    let w : Workspace := { entries := [([b], .file (Bytes.ofString "7")), ([a], .directory),
      ([a, c], .file (Bytes.ofString "\"")), ([a, d], .file [])] }
    w.IsTree ∧ w.follow Path.here = .ok ([], .directory) ∧ Settings.find w none = .ok {} ∧
    (∃ files parts, ScansInTurn w Path.here [] {} {} files parts) ∧
    inputFiles w Path.here ["java"] =
      .ok [Bytes.ofString "./a/c.java", Bytes.ofString "./a-b.java"] ∧
    writeReport w Path.here {} = .ok
      ("./a/c.java not scanned: unterminated string literal starting at line 1 (offset 0)\n" ++
        "./a-b.java has 1 magic numbers:\n\t@ Line 1: 7\n",
        { scanned := 1, failed := 1, findings := 1 }) := by
  intro a b c d w
  have htree : w.IsTree := by decide +kernel
  have hinput : w.follow Path.here = .ok ([], .directory) := rfl
  have hsettings : Settings.find w none = .ok {} := rfl
  have hsorted : ((w.filesBelow []).mergeSort fun x y => decide (x ≤ y)) = [[a, c], [a, d], [b]] := by
    have hperm : w.filesBelow [] ~ [[a, c], [a, d], [b]] := by decide +kernel
    rw [mergeSort_eq_of_perm hperm]
    exact List.mergeSort_of_pairwise (by decide +kernel)
  have hfiles : inputFiles w Path.here ["java"] =
      .ok [Bytes.ofString "./a/c.java", Bytes.ofString "./a-b.java"] := by
    rw [inputFiles, hinput]
    show Except.ok (supportedBelow w [] Path.here ["java"]) = _
    rw [supportedBelow, hsorted]
    rfl
  obtain ⟨files, parts, h⟩ := (@scan_directory w Path.here [] {} {} htree hinput hsettings).1
  obtain rfl := Except.ok.inj (hfiles.symm.trans h.listed)
  refine ⟨htree, hinput, hsettings, ⟨_, parts, h⟩, hfiles, ?_⟩
  rw [h.reported]
  decide +kernel

end MagicNumbers
