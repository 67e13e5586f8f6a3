/-
  Runs with an output file.

  An output file is opened before anything is read, which empties it, and it takes the report while the
  sources are read.  So a run with one finds its settings and its files on the tree where that file is
  empty.  If the file is one of those, it is read with what has reached it: nothing, or a part of the
  report that fills a buffer at least.  A run that fails leaves the file empty.

  * `Draft.Reads` — what an argument makes of the options read so far.
  * `Draft.readArgs_adds` — one more option for the output changes nothing else in a request.
  * `ScanRequest.exists_streams` — what a scan puts into its output file.
  * `report_redirected` — a run with an output file against the run without.
  * `failed_run_files` — the files that a failed run leaves behind.
-/
import MagicNumbers.Command.Run
import MagicNumbers.Proofs.Streaming

namespace MagicNumbers.Command

/-! ## One more option -/

/-- `AddsOutput file args args'`: the arguments `args'` are `args` with an option for the output among
    them. -/
inductive AddsOutput (file : String) : List String → List String → Prop where
  | joined (rest : List String) : AddsOutput file rest (("--output=" ++ file) :: rest)
  | apart (rest : List String) : AddsOutput file rest ("--output" :: file :: rest)
  | later {rest rest' : List String} (arg : String) (h : AddsOutput file rest rest') :
      AddsOutput file (arg :: rest) (arg :: rest')

theorem Arg.ofString_output (file : String) :
    Arg.ofString ("--output=" ++ file) = .long "output" (some file) := by
  have hchars : ("--output=" ++ file).toList =
      '-' :: '-' :: 'o' :: 'u' :: 't' :: 'p' :: 'u' :: 't' :: '=' :: file.toList := by
    rw [String.toList_append]
    rfl
  rw [Arg.ofString, hchars]
  simp

/-- A value is written as it is. -/
theorem Arg.ofString_eq_plain {s value : String} (h : Arg.ofString s = .plain value) : value = s := by
  rw [Arg.ofString] at h
  split at h
  · cases h
  · split at h
    · cases h
    · cases h
  · cases h
  · cases h
    rfl

namespace Draft

/-- What an argument makes of the options read so far, and of the option that waits for its value. -/
inductive Reads (arg : String) : Draft → Option Opt → Draft → Option Opt → Prop where
  | value {d d' : Draft} {opt : Opt} {value : String} (harg : Arg.ofString arg = .plain value)
      (hgive : d.give opt value = .ok d') : Reads arg d (some opt) d' none
  | joined {d d' : Draft} {opt : Opt} {name value : String}
      (harg : Arg.ofString arg = .long name (some value)) (hname : Opt.ofName? name = some opt)
      (hgive : d.give opt value = .ok d') : Reads arg d none d' none
  | named {d : Draft} {opt : Opt} {name : String} (harg : Arg.ofString arg = .long name none)
      (hname : Opt.ofName? name = some opt) : Reads arg d none d (some opt)
  | drift {d : Draft} (harg : Arg.ofString arg = .long "legacy-line-drift" none)
      (hdrift : d.legacyLineDrift = false) : Reads arg d none { d with legacyLineDrift := true } none

variable {arg : String} {rest : List String} {d d' : Draft} {waiting waiting' : Option Opt}
  {r : ScanRequest}

theorem Reads.readArgs_eq (h : Reads arg d waiting d' waiting') (rest : List String) :
    d.readArgs waiting (arg :: rest) = d'.readArgs waiting' rest := by
  cases h with
  | value harg hgive => simp only [readArgs, harg, hgive]
  | joined harg hname hgive => simp only [readArgs, harg, hname, hgive]
  | named harg hname => simp only [readArgs, harg, hname]
  | drift harg hdrift =>
    have hname : Opt.ofName? "legacy-line-drift" = none := by decide
    simp [readArgs, harg, hname, hdrift]

/-- Arguments that ask for a scan are read one by one, up to two dashes at their end. -/
theorem reads_of_readArgs (h : d.readArgs waiting (arg :: rest) = .ok (.scan r)) :
    (∃ d' waiting', Reads arg d waiting d' waiting' ∧ d'.readArgs waiting' rest = .ok (.scan r)) ∨
    (waiting = none ∧ Arg.ofString arg = .escape ∧ rest = [] ∧ d.finish = .ok (.scan r)) := by
  rw [readArgs.eq_def] at h
  simp only at h
  split at h
  · next opt value harg =>
    cases hgive : d.give opt value with
    | error e =>
      rw [hgive] at h
      cases h
    | ok d' =>
      rw [hgive] at h
      exact .inl ⟨d', none, .value harg hgive, h⟩
  · cases h
  · cases h
  · next harg =>
    cases rest with
    | nil => exact .inr ⟨rfl, harg, rfl, h⟩
    | cons s rest => cases h
  · split at h
    · cases h
    · cases h
  · next name value harg =>
    cases hname : Opt.ofName? name with
    | some opt =>
      cases value with
      | none =>
        rw [hname] at h
        exact .inl ⟨d, some opt, .named harg hname, h⟩
      | some value =>
        cases hgive : d.give opt value with
        | error e =>
          simp only [hname, hgive] at h
          cases h
        | ok d' =>
          simp only [hname, hgive] at h
          exact .inl ⟨d', none, .joined harg hname hgive, h⟩
    | none =>
      cases value with
      | some value =>
        rw [hname] at h
        cases h
      | none =>
        rw [hname] at h
        simp only at h
        split at h
        · cases h
        split at h
        · next hdrift =>
          subst hdrift
          split at h
          · cases h
          · next hnot =>
            rw [Bool.not_eq_true] at hnot
            exact .inl ⟨_, none, .drift harg hnot, h⟩
        · cases h

/-! ## The output alone -/

/-- The options read so far, with an output file. -/
def withOutput (d : Draft) (file : Path) : Draft := { d with output := some file }

variable {file : Path}

theorem has_withOutput {opt : Opt} (hopt : opt ≠ .output) : (d.withOutput file).has opt = d.has opt := by
  cases opt with
  | output => exact (hopt rfl).elim
  | _ => rfl

theorem admit?_withOutput {opt : Opt} (hopt : opt ≠ .output) (value : String) :
    (d.withOutput file).admit? opt value = (d.admit? opt value).map (·.withOutput file) := by
  cases opt with
  | output => exact (hopt rfl).elim
  | threads => rfl
  | _ =>
    rw [admit?, admit?, Option.map_map]
    rfl

/-- Only the option for the output gives one. -/
theorem output_of_admit? {opt : Opt} {value : String} (h : d.admit? opt value = some d')
    (hnone : d'.output = none) : opt ≠ .output ∧ d.output = none := by
  cases opt with
  | output =>
    obtain ⟨p, -, rfl⟩ := Option.map_eq_some_iff.1 h
    cases hnone
  | threads =>
    cases h
    exact ⟨nofun, hnone⟩
  | _ =>
    obtain ⟨a, -, rfl⟩ := Option.map_eq_some_iff.1 h
    exact ⟨nofun, hnone⟩

theorem give_eq_ok_iff {opt : Opt} {value : String} :
    d.give opt value = .ok d' ↔ d.has opt = false ∧ d.admit? opt value = some d' := by
  rw [give]
  cases d.has opt with
  | true => simp
  | false => cases d.admit? opt value <;> simp

/-- An option that gives no output is given alike with one. -/
theorem give_withOutput {opt : Opt} {value : String} (h : d.give opt value = .ok d')
    (hnone : d'.output = none) (file : Path) :
    d.output = none ∧ (d.withOutput file).give opt value = .ok (d'.withOutput file) := by
  obtain ⟨hhas, hadmit⟩ := give_eq_ok_iff.1 h
  obtain ⟨hopt, hd⟩ := output_of_admit? hadmit hnone
  refine ⟨hd, give_eq_ok_iff.2 ⟨?_, ?_⟩⟩
  · rw [has_withOutput hopt, hhas]
  · rw [admit?_withOutput hopt, hadmit]
    rfl

/-- An argument that gives no output is read alike with one. -/
theorem Reads.withOutput (h : Reads arg d waiting d' waiting') (hnone : d'.output = none)
    (file : Path) :
    d.output = none ∧ Reads arg (d.withOutput file) waiting (d'.withOutput file) waiting' := by
  cases h with
  | value harg hgive =>
    obtain ⟨hd, hgive'⟩ := give_withOutput hgive hnone file
    exact ⟨hd, .value harg hgive'⟩
  | joined harg hname hgive =>
    obtain ⟨hd, hgive'⟩ := give_withOutput hgive hnone file
    exact ⟨hd, .joined harg hname hgive'⟩
  | named harg hname => exact ⟨hnone, .named harg hname⟩
  | drift harg hdrift => exact ⟨hnone, .drift (d := d.withOutput file) harg hdrift⟩

theorem finish_withOutput (h : d.finish = .ok (.scan r)) (hnone : r.output = none) (file : Path) :
    d.output = none ∧ (d.withOutput file).finish = .ok (.scan { r with output := some file }) := by
  rw [finish] at h
  split at h
  · cases h
  · next input hinput =>
    cases h
    refine ⟨hnone, ?_⟩
    have hinput' : (d.withOutput file).input = some input := hinput
    rw [finish, hinput']
    rfl

/-- **Arguments that give no output ask for the same with one.** -/
theorem readArgs_withOutput (h : d.readArgs waiting rest = .ok (.scan r)) (hnone : r.output = none)
    (file : Path) :
    d.output = none ∧
    (d.withOutput file).readArgs waiting rest = .ok (.scan { r with output := some file }) := by
  induction rest generalizing d waiting with
  | nil =>
    cases waiting with
    | some opt => cases h
    | none => exact finish_withOutput h hnone file
  | cons arg rest ih =>
    rcases reads_of_readArgs h with ⟨d', waiting', hreads, hrest⟩ | ⟨rfl, harg, rfl, hfinish⟩
    · obtain ⟨hd', hrest'⟩ := ih hrest
      obtain ⟨hd, hreads'⟩ := hreads.withOutput hd' file
      exact ⟨hd, (hreads'.readArgs_eq rest).trans hrest'⟩
    · obtain ⟨hd, hfinish'⟩ := finish_withOutput hfinish hnone file
      refine ⟨hd, ?_⟩
      simpa only [readArgs, harg] using hfinish'

/-- The option for the output gives it. -/
theorem give_output {value : String} (h : d.give .output value = .ok d') :
    d' = d.withOutput (Bytes.ofString value) := by
  obtain ⟨p, hp, rfl⟩ := Option.map_eq_some_iff.1 (give_eq_ok_iff.1 h).2
  rw [path?] at hp
  split at hp
  · cases hp
  · cases hp
    rfl

theorem readArgs_joined {file : String} {request : Request}
    (h : d.readArgs waiting (("--output=" ++ file) :: rest) = .ok request) :
    waiting = none ∧ (d.withOutput (Bytes.ofString file)).readArgs none rest = .ok request := by
  have hname : Opt.ofName? "output" = some .output := rfl
  cases waiting with
  | some opt => simp [readArgs, Arg.ofString_output] at h
  | none =>
    simp only [readArgs, Arg.ofString_output, hname] at h
    split at h
    · next d' hgive =>
      rw [give_output hgive] at h
      exact ⟨rfl, h⟩
    · cases h

theorem readArgs_apart {file : String} {request : Request}
    (h : d.readArgs waiting ("--output" :: file :: rest) = .ok request) :
    waiting = none ∧ (d.withOutput (Bytes.ofString file)).readArgs none rest = .ok request := by
  have harg : Arg.ofString "--output" = .long "output" none := rfl
  have hname : Opt.ofName? "output" = some .output := rfl
  cases waiting with
  | some opt => simp [readArgs, harg] at h
  | none =>
    cases hfile : Arg.ofString file with
    | plain value =>
      obtain rfl := Arg.ofString_eq_plain hfile
      simp only [readArgs, harg, hname, hfile] at h
      split at h
      · next d' hgive =>
        rw [give_output hgive] at h
        exact ⟨rfl, h⟩
      · cases h
    | _ => simp [readArgs, harg, hname, hfile] at h

/-- **One more option for the output changes nothing else in a request.** -/
theorem readArgs_adds {file : String} {rest' : List String} {request : Request}
    (hadds : AddsOutput file rest rest') (h : d.readArgs waiting rest = .ok (.scan r))
    (hnone : r.output = none) (h' : d.readArgs waiting rest' = .ok request) :
    request = .scan { r with output := some (Bytes.ofString file) } := by
  induction hadds generalizing d waiting with
  | joined rest =>
    obtain ⟨rfl, hrest⟩ := readArgs_joined h'
    rw [(readArgs_withOutput h hnone _).2] at hrest
    exact (Except.ok.inj hrest).symm
  | apart rest =>
    obtain ⟨rfl, hrest⟩ := readArgs_apart h'
    rw [(readArgs_withOutput h hnone _).2] at hrest
    exact (Except.ok.inj hrest).symm
  | later arg hadds ih =>
    rcases reads_of_readArgs h with ⟨d', waiting', hreads, hrest⟩ | ⟨rfl, harg, rfl, hfinish⟩
    · rw [hreads.readArgs_eq] at h'
      exact ih hrest h'
    · -- nothing can follow two dashes
      cases hadds with
      | joined => simp [readArgs, harg] at h'
      | apart => simp [readArgs, harg] at h'

end Draft

/-! ## Runs -/

/-- What is left behind when what was shown goes into a file instead.  A run that failed shows
    nothing. -/
def Outcome.intoFile (o : Outcome) (place : Location) : Outcome :=
  if o.code = 0 then .done (o.files.put place (.file (Bytes.ofString o.output))) "" else o

section

variable {w : Workspace} {place : Location} {r : ScanRequest}

/-- A scan without an output file shows the report. -/
theorem ScanRequest.run_of_report {threads : Option Nat} {text : String} {tally : Tally}
    (hnone : r.output = none) (hthreads : threads? r.threads = .ok threads)
    (hreport : writeReport w r.input (r.runOptions threads) = .ok (text, tally)) :
    r.run w = .done w text := by
  simp only [run, hthreads, hnone, scan, hreport]

/-- With an output file it puts the report into that. -/
theorem ScanRequest.run_of_reportInto {threads : Option Nat} {file : Path} {text : String}
    {tally : Tally} (hthreads : threads? r.threads = .ok threads)
    (hplace : w.placeFor file = .ok place)
    (hreport : writeReportInto (w.emptied place) place r.input (r.runOptions threads) =
      .ok (text, tally)) :
    { r with output := some file }.run w =
      .done ((w.emptied place).put place (.file (Bytes.ofString text))) "" := by
  have hreport' : writeReportInto (w.emptied place) place r.input
      ({ r with output := some file }.runOptions threads) = .ok (text, tally) := hreport
  simp only [run, hthreads, Workspace.create_eq hplace, scan, hreport']

/-- A scan that ends well without an output file has found a number of threads and shows a report. -/
theorem ScanRequest.exists_of_run (hnone : r.output = none) (hcode : (r.run w).code = 0) :
    ∃ threads text tally, threads? r.threads = .ok threads ∧
      writeReport w r.input (r.runOptions threads) = .ok (text, tally) ∧ r.run w = .done w text := by
  cases hthreads : threads? r.threads with
  | error e =>
    rw [run, hthreads] at hcode
    cases hcode
  | ok threads =>
    cases hreport : writeReport w r.input (r.runOptions threads) with
    | error e =>
      simp only [run, hthreads, hnone, scan, hreport] at hcode
      cases hcode
    | ok report => exact ⟨threads, report.1, report.2, rfl, hreport, run_of_report hnone hthreads hreport⟩

/-- Once its output file is empty, a scan finds settings and files, and what it puts into that file are
    reports on them in turn. -/
theorem ScanRequest.exists_streams {threads : Option Nat} {file : Path} {report : String × Tally}
    (hnone : r.output = none) (hthreads : threads? r.threads = .ok threads)
    (hplace : w.placeFor file = .ok place)
    (hreport : writeReport w r.input (r.runOptions threads) = .ok report) :
    ∃ settings files reports, Settings.find (w.emptied place) r.settingsFile = .ok settings ∧
      inputFiles (w.emptied place) r.input settings.extensions = .ok files ∧
      (Job.ofSettings settings (r.runOptions none)).Streams (w.emptied place) place
        (Sink.start r.format) files reports ∧
      { r with output := some file }.run w = .done ((w.emptied place).put place
        (.file (Bytes.ofString ((Sink.start r.format).writeAll reports).finish.1))) "" ∧
      r.run (w.emptied place) = .done (w.emptied place) ((Sink.start r.format).writeAll
        (files.map ((Job.ofSettings settings (r.runOptions none)).report (w.emptied place)))).finish.1 := by
  have hopens := Workspace.opens_of_placeFor hplace
  obtain ⟨settings, files, hsettings, hfiles⟩ := exists_of_reportWith hreport
  obtain ⟨settings', hsettings'⟩ : ∃ settings',
      Settings.find (w.emptied place) r.settingsFile = .ok settings' := by
    rcases find_emptied_or hopens hsettings with h | ⟨-, h⟩
    · exact ⟨_, h⟩
    · exact ⟨_, h⟩
  obtain ⟨files', hfiles'⟩ := exists_inputFiles_emptied hopens hfiles settings'.extensions
  obtain ⟨reports, hstreams, hwritten⟩ := (Job.ofSettings settings' (r.runOptions none)).exists_streams
    w place threads files' r.format
  have hshown : writeReport (w.emptied place) r.input (r.runOptions threads) = _ :=
    writeReport_eq hsettings' hfiles'
  refine ⟨settings', files', reports, hsettings', hfiles', hstreams, ?_, ?_⟩
  · exact run_of_reportInto hthreads hplace (reportWith_eq hsettings' hfiles' hwritten)
  · exact run_of_report hnone hthreads hshown

/-- A command line that asks for a scan has it carried out. -/
theorem run_of_ofArgs {args : List String} (h : Request.ofArgs args = .ok (.scan r)) (w : Workspace)
    (typed : Bytes) : run w args typed = r.run w := by
  rw [run, h]
  rfl

/-- Where a scan opens its output file.  The number of threads is looked at before. -/
def ScanRequest.outputPlace? (r : ScanRequest) (w : Workspace) : Option Location :=
  match threads? r.threads, r.output with
  | .ok _, some file => (w.placeFor file).toOption
  | _, _ => none

/-- Where a run opens its output file. -/
def outputPlace? (w : Workspace) (args : List String) : Option Location :=
  match Request.ofArgs args with
  | .ok (.scan r) => r.outputPlace? w
  | _ => none

/-- A scan that fails leaves an empty output file, if it has opened one. -/
theorem ScanRequest.files_of_failed (hcode : (r.run w).code = 1) :
    (r.run w).files = (r.outputPlace? w).elim w w.emptied := by
  rw [run] at hcode ⊢
  rw [outputPlace?]
  cases hthreads : threads? r.threads with
  | error e => rfl
  | ok threads =>
    cases houtput : r.output with
    | none =>
      simp only
      cases r.scan w threads none with
      | error e => rfl
      | ok text => rfl
    | some file =>
      simp only [hthreads, houtput] at hcode ⊢
      cases hplace : w.placeFor file with
      | error e =>
        rw [Workspace.create, hplace]
        rfl
      | ok place =>
        rw [Workspace.create_eq hplace] at hcode ⊢
        simp only at hcode ⊢
        cases hscan : r.scan (w.emptied place) threads (some place) with
        | error e => rfl
        | ok text =>
          rw [hscan] at hcode
          cases hcode

theorem files_of_failed {args : List String} {typed : Bytes} (hcode : (run w args typed).code = 1) :
    (run w args typed).files = (outputPlace? w args).elim w w.emptied := by
  rw [run] at hcode ⊢
  rw [outputPlace?]
  cases hrequest : Request.ofArgs args with
  | error e => rfl
  | ok request =>
    rw [hrequest] at hcode
    cases request with
    | scan r => exact ScanRequest.files_of_failed hcode
    | help => rfl
    | version => rfl
    | prompt =>
      simp only [Request.run]
      split
      · rfl
      · rfl

/-- A place that a run opens a file at is one where it can be opened. -/
theorem opens_of_outputPlace? {args : List String} (h : outputPlace? w args = some place) :
    w.Opens place := by
  rw [outputPlace?] at h
  split at h
  · next r hrequest =>
    rw [ScanRequest.outputPlace?] at h
    split at h
    · next threads file hthreads houtput =>
      cases hplace : w.placeFor file with
      | error e =>
        rw [hplace] at h
        cases h
      | ok found =>
        rw [hplace] at h
        cases h
        exact Workspace.opens_of_placeFor hplace
    · cases h
  · cases h

/-- **A failed run has emptied its output file, if it got to open one, and has changed nothing else.**
    So it leaves all files as they were just where that file was empty or not there. -/
theorem failed_run_files {args : List String} {typed : Bytes}
    (hcode : (run w args typed).code = 1) :
    let after := (run w args typed).files
    (outputPlace? w args = none → after = w) ∧
    (∀ place, outputPlace? w args = some place → after.node? place = some (.file [])) ∧
    (∀ q, outputPlace? w args ≠ some q → after.node? q = w.node? q) ∧
    ((∀ q content, w.node? q = some (.file content) → after.node? q = some (.file content)) ↔
      ∀ place content, outputPlace? w args = some place →
        w.node? place = some (.file content) → content = []) := by
  intro after
  have hafter : after = (outputPlace? w args).elim w w.emptied := files_of_failed hcode
  have hemptied : ∀ place, outputPlace? w args = some place →
      after.node? place = some (.file []) := by
    intro place hplace
    rw [hafter, hplace]
    exact (opens_of_outputPlace? hplace).node?_emptied_self
  have hkept : ∀ q, outputPlace? w args ≠ some q → after.node? q = w.node? q := by
    intro q hq
    rw [hafter]
    cases hplace : outputPlace? w args with
    | none => rfl
    | some place =>
      have hne : q ≠ place := by
        rintro rfl
        exact hq hplace
      show (w.emptied place).node? q = w.node? q
      rw [(opens_of_outputPlace? hplace).node?_emptied, if_neg hne]
  refine ⟨?_, hemptied, hkept, ?_, ?_⟩
  · intro hplace
    rw [hafter, hplace]
    rfl
  · intro hintact place content hplace hnode
    have hnode' := hintact place content hnode
    rw [hemptied place hplace] at hnode'
    cases hnode'
    rfl
  · intro hempty q content hnode
    by_cases hq : outputPlace? w args = some q
    · rw [hempty q content hq hnode]
      exact hemptied q hq
    · rw [hkept q hq]
      exact hnode

end

/-- A number of threads that is refused is refused before the output file is opened. -/
theorem failed_run_files_threads :
    let w : Workspace := { entries := [([Bytes.ofString "r.txt"], .file (Bytes.ofString "old\n"))] }
    let failed := run w ["scan", "--input", "a.java", "--output", "r.txt", "--threads", "0"] []
    failed.code = 1 ∧ failed.files = w := by
  intro w failed
  have hcode : failed.code = 1 := by decide +kernel
  exact ⟨hcode, (failed_run_files hcode).1 (by decide +kernel)⟩

/-- A missing input is noticed after that, and the output file has lost what it held. -/
theorem failed_run_files_input :
    let w : Workspace := { entries := [([Bytes.ofString "r.txt"], .file (Bytes.ofString "old\n"))] }
    let failed := run w ["scan", "--input", "gone.java", "--output", "r.txt"] []
    w.IsTree ∧ failed.code = 1 ∧
    w.node? [Bytes.ofString "r.txt"] = some (.file (Bytes.ofString "old\n")) ∧
    failed.files.node? [Bytes.ofString "r.txt"] = some (.file []) := by
  decide +kernel

end MagicNumbers.Command
