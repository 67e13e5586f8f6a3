/-
  A file that takes a report while files are read.

  What has reached a file through a buffer is a part of what has been written, and nothing reaches it
  before the buffer is full.  So a file that is scanned while it takes the report shows a part of the
  reports before it, and shows nothing as long as these are short.

  * `Buffer.Holds` — a buffer through which some bytes have been written; kept by each piece.
  * `Sink.output_write` — the pieces of a report are what it adds to the output.
  * `Job.Streams` — reports on files in turn, each made while the open file shows what it may by then.
  * `Job.exists_streams` — such reports are what is written, by one worker or by many.
  * `Streams.eq_map_of_unseen` — where the open file is not listed behind another one, or the reports are
    short, they are those on a tree where it is empty.
-/
import Mathlib.Data.List.SplitBy
import MagicNumbers.Proofs.Opening
import MagicNumbers.Proofs.Utf8

namespace MagicNumbers

/-! ## Buffers -/

namespace Buffer

/-- Some bytes have been written through a buffer: they have reached the file or are held back, none has
    reached it before they filled the buffer, and no more are held back than it has room for. -/
structure Holds (b : Buffer) (written : Bytes) : Prop where
  all_eq : b.reached ++ b.held = written
  full : b.reached ≠ [] → capacity ≤ written.length
  fits : b.held.length ≤ capacity

variable {b : Buffer} {written : Bytes}

/-- One more piece is written after all before it. -/
theorem Holds.write (h : b.Holds written) (piece : Bytes) :
    (b.write piece).Holds (written ++ piece) := by
  obtain ⟨rfl, hfull, hfits⟩ := h
  have hcapacity : capacity = 8192 := rfl
  rw [Buffer.write]
  by_cases hroom : capacity - b.held.length < piece.length
  · have hlen : capacity ≤ (b.reached ++ b.held ++ piece).length := by
      rw [List.length_append, List.length_append]
      omega
    rw [if_pos hroom, flush]
    split
    · exact ⟨List.append_nil _, fun _ => hlen, Nat.zero_le _⟩
    · next hsmall => exact ⟨rfl, fun _ => hlen, Nat.le_of_not_le hsmall⟩
  · rw [if_neg hroom]
    split
    · next hlarge =>
      -- there is room for such a piece only if nothing is held back
      have hheld : b.held = [] := List.eq_nil_of_length_eq_zero (by omega)
      refine ⟨by simp [hheld], ?_, hfits⟩
      intro _
      rw [List.length_append]
      omega
    · refine ⟨(List.append_assoc ..).symm, ?_, ?_⟩
      · intro hreached
        have hbefore := hfull hreached
        rw [List.length_append]
        omega
      · rw [List.length_append]
        omega

theorem Holds.writeAll (h : b.Holds written) (pieces : List Bytes) :
    (pieces.foldl Buffer.write b).Holds (written ++ pieces.flatten) := by
  induction pieces generalizing b written with
  | nil =>
    rw [List.flatten_nil, List.append_nil]
    exact h
  | cons piece pieces ih =>
    have hmore := ih (h.write piece)
    rw [List.append_assoc] at hmore
    exact hmore

end Buffer

/-! ## Pieces -/

theorem join_map_ofList (pieces : List (List Char)) :
    String.join (pieces.map String.ofList) = String.ofList pieces.flatten := by
  induction pieces with
  | nil => rfl
  | cons piece pieces ih =>
    rw [List.map_cons, String.join_cons, ih, List.flatten_cons, String.ofList_append]

namespace FileReport

theorem join_findingPieces (f : Finding) : String.join (findingPieces f) = findingLine f := by
  simp only [findingPieces, String.join_cons, String.join_nil, String.append_empty,
    ← String.append_assoc]
  rfl

theorem join_flatMap_findingPieces (fs : List Finding) :
    String.join (fs.flatMap findingPieces) = String.join (fs.map findingLine) := by
  induction fs with
  | nil => rfl
  | cons f fs ih =>
    rw [List.flatMap_cons, String.join_append, join_findingPieces, ih, List.map_cons,
      String.join_cons]

/-- The pieces of a report are the report. -/
theorem join_pieces (r : FileReport) : String.join r.pieces = r.render := by
  obtain ⟨file, status⟩ := r
  rw [pieces, render]
  cases status with
  | scanned fs =>
    cases fs with
    | nil => exact String.append_assoc ..
    | cons f fs =>
      show String.join (_ ++ (f :: fs).flatMap findingPieces) = _
      rw [String.join_append, join_flatMap_findingPieces]
      rfl
  | unsupported => rfl
  | tooLarge size max => rfl
  | failed reason => rfl

end FileReport

namespace Json

theorem flatten_quotePieces (s : String) : (quotePieces s).flatten = quote s := by
  have hstretches : ∀ groups : List (List Char),
      (groups.map (·.flatMap escapeChar)).flatten = groups.flatten.flatMap escapeChar := by
    intro groups
    rw [← List.flatMap_def, ← List.flatMap_id, List.flatMap_assoc]
    rfl
  rw [quotePieces, List.flatten_append, List.flatten_cons, hstretches, List.flatten_splitBy]
  rfl

theorem flatten_memberPieces (m : String × Scalar) : (memberPieces m).flatten = printMember m := by
  have hscalar : ∀ v, (scalarPieces v).flatten = printScalar v := by
    intro v
    cases v with
    | text s => exact flatten_quotePieces s
    | number n => exact List.append_nil _
  rw [memberPieces, List.flatten_append, flatten_quotePieces, List.flatten_cons, hscalar]
  rfl

/-- Pieces that are parted by a piece make up texts that are parted by it. -/
theorem flatten_intercalate (sep : List Char) (groups : List (List (List Char))) :
    ([sep].intercalate groups).flatten = sep.intercalate (groups.map List.flatten) := by
  induction groups with
  | nil => rfl
  | cons group groups ih =>
    cases groups with
    | nil => simp
    | cons group' groups =>
      rw [List.intercalate_cons_cons, List.flatten_append, List.flatten_append, ih, List.map_cons,
        List.map_cons, List.map_cons, List.intercalate_cons_cons]
      simp

/-- The pieces of a row are the row. -/
theorem flatten_rowPieces (row : Row) : (rowPieces row).flatten = printRow row := by
  have hmembers : (row.map memberPieces).map List.flatten = row.map printMember := by
    rw [List.map_map]
    exact List.map_congr_left fun m _ => flatten_memberPieces m
  rw [rowPieces, List.flatten_append, List.flatten_cons, flatten_intercalate, hmembers]
  rfl

end Json

namespace Sink

variable {s : Sink}

/-- The pieces of some rows are what they add to the output. -/
theorem output_writeRows (s : Sink) (rows : List Json.Row) :
    (rows.foldl writeRow s).output = s.output ++ String.join (rowsPieces s.isFirst rows) := by
  induction rows generalizing s with
  | nil => exact String.append_empty.symm
  | cons row rows ih =>
    have hsep : String.join (if s.isFirst then [] else [","]) = if s.isFirst then "" else "," := by
      cases s.isFirst <;> rfl
    rw [List.foldl_cons, ih, rowsPieces, String.join_append, String.join_append, hsep,
      join_map_ofList, Json.flatten_rowPieces, ← String.append_assoc, ← String.append_assoc]
    rfl

/-- The pieces of a report are what it adds to the output. -/
theorem output_write (s : Sink) (r : FileReport) :
    (s.write r).output = s.output ++ String.join (s.pieces r) := by
  obtain ⟨format, isFirst, output, tally⟩ := s
  cases format with
  | text =>
    show output ++ r.render ++ "\n" = output ++ String.join (r.pieces ++ ["\n"])
    rw [String.join_append, FileReport.join_pieces, String.append_assoc]
    rfl
  | json => exact output_writeRows _ (Json.rows r)

/-- What a file may hold once a sink has written its output through a buffer: a part of the output, and
    nothing before the output has filled the buffer. -/
structure MayShow (s : Sink) (shown : Bytes) : Prop where
  isPart : shown <+: Bytes.ofString s.output
  full : shown ≠ [] → Buffer.capacity ≤ (Bytes.ofString s.output).length

variable {shown : Bytes}

theorem mayShow_nil (s : Sink) : s.MayShow [] := ⟨List.nil_prefix, fun h => (h rfl).elim⟩

theorem MayShow.eq_nil (h : s.MayShow shown)
    (hshort : (Bytes.ofString s.output).length < Buffer.capacity) : shown = [] := by
  by_contra hshown
  exact Nat.not_le_of_lt hshort (h.full hshown)

/-- What has been written stays. -/
theorem length_output_le_writeAll (s : Sink) (reports : List FileReport) :
    (Bytes.ofString s.output).length ≤ (Bytes.ofString (s.writeAll reports).output).length := by
  induction reports generalizing s with
  | nil => exact Nat.le_refl _
  | cons r reports ih =>
    refine Nat.le_trans ?_ (ih (s.write r))
    rw [output_write, Bytes.ofString_append, List.length_append]
    exact Nat.le_add_right ..

theorem length_output_le_finish (s : Sink) :
    (Bytes.ofString s.output).length ≤ (Bytes.ofString s.finish.1).length := by
  rw [finish]
  cases s.format with
  | text => exact Nat.le_refl _
  | json =>
    show _ ≤ (Bytes.ofString (s.output ++ "]")).length
    rw [Bytes.ofString_append, List.length_append]
    exact Nat.le_add_right ..

end Sink

namespace FileSink

/-- A sink whose buffer holds what it has written. -/
def Sound (s : FileSink) : Prop := s.buffer.Holds (Bytes.ofString s.sink.output)

theorem sound_start (format : OutputFormat) : (FileSink.start format).Sound := by
  have hempty : ({} : Buffer).Holds [] := ⟨rfl, fun h => (h rfl).elim, Nat.zero_le _⟩
  exact hempty.write (Bytes.ofString (Sink.start format).output)

variable {s : FileSink}

theorem Sound.write (h : s.Sound) (r : FileReport) : (s.write r).Sound := by
  have hmore := Buffer.Holds.writeAll h ((s.sink.pieces r).map Bytes.ofString)
  rw [← Bytes.ofString_join, ← Bytes.ofString_append, ← Sink.output_write] at hmore
  exact hmore

theorem Sound.mayShow (h : s.Sound) : s.sink.MayShow s.buffer.reached :=
  ⟨⟨s.buffer.held, h.all_eq⟩, h.full⟩

end FileSink

/-! ## Reports in turn -/

/-- Reports on some files in turn, which go to a sink that writes into the file at a place.  Each is made
    while that file holds what it may by then. -/
inductive Job.Streams (job : Job) (w : Workspace) (place : Location) :
    Sink → List Path → List FileReport → Prop where
  | nil (s : Sink) : Streams job w place s [] []
  | cons {s : Sink} {p : Path} {files : List Path} {reports : List FileReport} {shown : Bytes}
      (hshown : s.MayShow shown)
      (hrest : Streams job w place (s.write (job.report (w.put place (.file shown)) p)) files reports) :
      Streams job w place s (p :: files) (job.report (w.put place (.file shown)) p :: reports)

namespace Job

variable {job : Job} {w : Workspace} {place : Location} {s : Sink} {files : List Path}
  {reports : List FileReport}

theorem exists_streams_writeInto (job : Job) (w : Workspace) (place : Location) (files : List Path)
    {s : FileSink} (h : s.Sound) :
    ∃ reports, job.Streams w place s.sink files reports ∧
      (job.writeInto w place files s).sink = s.sink.writeAll reports := by
  induction files generalizing s with
  | nil => exact ⟨[], .nil _, rfl⟩
  | cons p files ih =>
    obtain ⟨reports, hstreams, hsink⟩ :=
      ih (h.write (job.report (w.put place (.file s.buffer.reached)) p))
    exact ⟨_ :: reports, .cons h.mayShow hstreams, hsink⟩

/-- Workers that are done before anything reaches the file find it empty. -/
theorem streams_emptied (job : Job) (w : Workspace) (place : Location) (s : Sink)
    (files : List Path) :
    job.Streams (w.emptied place) place s files (files.map (job.report (w.emptied place))) := by
  induction files generalizing s with
  | nil => exact .nil s
  | cons p files ih =>
    have hreport : job.report (w.emptied place) p =
        job.report ((w.emptied place).put place (.file [])) p := by
      rw [Workspace.emptied, Workspace.put_put]
    rw [List.map_cons, hreport]
    exact .cons s.mayShow_nil (ih _)

/-- **Whoever reads the files, reports in turn are what is written.** -/
theorem exists_streams (job : Job) (w : Workspace) (place : Location) (threads : Option Nat)
    (files : List Path) (format : OutputFormat) :
    ∃ reports, job.Streams (w.emptied place) place (Sink.start format) files reports ∧
      job.writeReportsInto (w.emptied place) place threads files format =
        ((Sink.start format).writeAll reports, none) := by
  rw [writeReportsInto]
  split
  · exact ⟨_, job.streams_emptied w place _ files, job.writeReports_eq ..⟩
  · obtain ⟨reports, hstreams, hsink⟩ :=
      job.exists_streams_writeInto (w.emptied place) place files (FileSink.sound_start format)
    exact ⟨reports, hstreams, congrArg (·, none) hsink⟩

/-! ## Files that are elsewhere -/

/-- What an open file holds does not show in a report on another. -/
theorem report_put (hne : place ≠ []) {p : Path}
    (hp : ∀ node, (w.emptied place).follow p ≠ .ok (place, node)) (shown : Bytes) :
    job.report ((w.emptied place).put place (.file shown)) p = job.report (w.emptied place) p := by
  have hput : (w.emptied place).put place (.file shown) = w.put place (.file shown) :=
    Workspace.put_put ..
  have hshown : (w.put place (.file shown)).node? place = some (.file shown) :=
    Workspace.node?_put_self hne _
  have hagree : Workspace.AgreeBut place (w.put place (.file shown)) (w.emptied place) := by
    refine ⟨rfl, ?_, ?_⟩
    · intro q hq
      rw [Workspace.emptied, Workspace.node?_put hne, Workspace.node?_put hne, if_neg hq, if_neg hq]
    · rw [hshown]
      exact nofun
  rw [hput]
  rcases hagree.follow_or (Workspace.node?_put_self hne _) p with hthere | hsame | ⟨hnone, -⟩
  · exact (hp _ hthere).elim
  · exact report_congr hsame.symm job
  · rw [hshown] at hnone
    cases hnone

namespace Streams

/-- Files elsewhere are reported on as if the open file were empty. -/
theorem eq_map (hne : place ≠ []) (h : job.Streams (w.emptied place) place s files reports)
    (hfiles : ∀ p ∈ files, ∀ node, (w.emptied place).follow p ≠ .ok (place, node)) :
    reports = files.map (job.report (w.emptied place)) := by
  induction h with
  | nil => rfl
  | cons hshown hrest ih =>
    rw [List.forall_mem_cons] at hfiles
    rw [List.map_cons, report_put hne hfiles.1, ih hfiles.2]

/-- So is the first file wherever it is, as long as nothing has filled the buffer. -/
theorem eq_map_of_tail (hne : place ≠ []) (h : job.Streams (w.emptied place) place s files reports)
    (hshort : (Bytes.ofString s.output).length < Buffer.capacity)
    (hfiles : ∀ p ∈ files.tail, ∀ node, (w.emptied place).follow p ≠ .ok (place, node)) :
    reports = files.map (job.report (w.emptied place)) := by
  cases h with
  | nil => rfl
  | cons hshown hrest =>
    obtain rfl := hshown.eq_nil hshort
    rw [List.map_cons, hrest.eq_map hne hfiles, Workspace.emptied, Workspace.put_put]

/-- So are all files, if all that is written does not fill it. -/
theorem eq_map_of_short (h : job.Streams (w.emptied place) place s files reports)
    (hshort : (Bytes.ofString (s.writeAll (files.map (job.report (w.emptied place)))).output).length <
      Buffer.capacity) :
    reports = files.map (job.report (w.emptied place)) := by
  induction h with
  | nil => rfl
  | cons hshown hrest ih =>
    obtain rfl := hshown.eq_nil
      (Nat.lt_of_le_of_lt (Sink.length_output_le_writeAll _ _) hshort)
    have hput : (w.emptied place).put place (.file []) = w.emptied place := Workspace.put_put ..
    rw [hput] at ih ⊢
    rw [List.map_cons, ih hshort]

/-- **What the open file holds does not show in a run**, unless the run lists it behind another file and
    what is written of the empty one fills the buffer. -/
theorem eq_map_of_unseen {input : Path} {named : Option Path} {settings : Settings}
    {format : OutputFormat} (hne : place ≠ [])
    (h : job.Streams (w.emptied place) place (Sink.start format) files reports)
    (hsettings : Settings.find (w.emptied place) named = .ok settings)
    (hfiles : inputFiles (w.emptied place) input settings.extensions = .ok files)
    (hunseen : ¬ ListsLater (w.emptied place) input named place ∨
      (Bytes.ofString ((Sink.start format).writeAll
        (files.map (job.report (w.emptied place)))).finish.1).length < Buffer.capacity) :
    reports = files.map (job.report (w.emptied place)) := by
  rcases hunseen with hlater | hshort
  · apply h.eq_map_of_tail hne
    · cases format <;> decide
    · intro p hp node hfollow
      exact hlater ⟨settings, files, hsettings, hfiles, p, hp, node, hfollow⟩
  · exact h.eq_map_of_short (Nat.lt_of_le_of_lt (Sink.length_output_le_finish _) hshort)

end Streams

end Job

end MagicNumbers
