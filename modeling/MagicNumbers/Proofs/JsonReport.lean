/-
  A report in JSON says what was found.

  What a sink writes is one array.  Its rows come from all reports in turn, and the flag that decides
  about a comma goes with the rows that have been written, whichever reports they came from.

  * `denotes_printRows` — rows with commas between them stand for the rows.
  * `Sink.Wrote` — which rows a sink has written; kept by each row, hence by each report.
  * `json_report_denotes` — the finished text stands for the findings and for the files that were not
    scanned, and the tally counts both.
-/
import Mathlib.Data.List.Forall2
import Mathlib.Data.List.TakeWhile
import MagicNumbers.Proofs.JsonText
import MagicNumbers.Report.Sink

namespace MagicNumbers

namespace Json

/-! ## Characters and texts -/

/-- Any character below U+0020 in four digits of base sixteen. -/
theorem spelled?_control : ∀ n < 0x20,
    spelled? ['\\', 'u', '0', '0', hexDigit (n / 16), hexDigit (n % 16)] = some (Char.ofNat n) := by
  decide

/-- A character is spelled so that it is read back. -/
theorem spelled?_escapeChar (c : Char) : spelled? (escapeChar c) = some c := by
  fun_cases escapeChar c with
  | case8 h1 h2 h3 h4 h5 h6 h7 hcontrol =>
    have h := spelled?_control c.toNat hcontrol
    rw [Char.ofNat_toNat] at h
    exact h
  | case9 h1 h2 h3 h4 h5 h6 h7 hcontrol =>
    exact if_neg (not_or.2 ⟨h1, not_or.2 ⟨h2, hcontrol⟩⟩)
  | _ =>
    subst c
    rfl

/-- A text between quotes is read back. -/
theorem quotes_quote (s : String) : Quotes (quote s) s := by
  refine ⟨s.toList.map escapeChar, ?_, ?_⟩
  · rw [List.forall₂_map_left_iff, List.forall₂_same]
    exact fun c _ => spelled?_escapeChar c
  · rw [quote, List.flatMap_def]
    rfl

/-! ## Numbers -/

/-- No number in decimal starts with a zero, but zero. -/
theorem toDigits_eq_of_head? {n : Nat} (h : (Nat.toDigits 10 n).head? = some '0') :
    Nat.toDigits 10 n = ['0'] := by
  induction n using Nat.strongRecOn with
  | ind n ih =>
    rcases Nat.lt_or_ge n 10 with hn | hn
    · rw [Nat.toDigits_of_lt_base hn] at h ⊢
      rw [Option.some.inj h]
    · rw [Nat.toDigits_of_base_le (by omega) hn, List.head?_append,
        Option.or_of_isSome (List.isSome_head?.2 Nat.toDigits_ne_nil)] at h
      -- the digits without the last start with a zero too, so they are those of zero
      have hdigits := ih (n / 10) (by omega) h
      have hvalue := Nat.ofDigitChars_ten_toDigits (n := n / 10)
      rw [hdigits] at hvalue
      have hzero : Nat.ofDigitChars 10 ['0'] 0 = 0 := by decide
      omega

/-- No digit ends a word or number. -/
theorem not_isDelimiter_of_isDigit {c : Char} (h : c.isDigit) : isDelimiter c = false := by
  by_contra hc
  rw [Bool.not_eq_false] at hc
  have hmem : c ∈ " \t\n\r[]\x7b\x7d,:\"".toList := by
    simpa [isDelimiter, isBlank, or_assoc] using hc
  have hnone : " \t\n\r[]\x7b\x7d,:\"".toList.all fun d => !d.isDigit := by decide
  have hc := List.all_eq_true.1 hnone c hmem
  rw [h] at hc
  cases hc

theorem isDigit_of_mem_toDigits {n : Nat} {c : Char} (h : c ∈ Nat.toDigits 10 n) : c.isDigit :=
  Nat.isDigit_of_mem_toDigits (by decide) (by decide) h

theorem unsigned?_toDigits (n : Nat) : unsigned? (Nat.toDigits 10 n) = some (n : ℚ) := by
  have hall : ∀ c ∈ Nat.toDigits 10 n, c.isDigit := fun c hc => isDigit_of_mem_toDigits hc
  have htake : (Nat.toDigits 10 n).takeWhile Char.isDigit = Nat.toDigits 10 n :=
    List.takeWhile_eq_self_iff.2 hall
  have hdrop : (Nat.toDigits 10 n).dropWhile Char.isDigit = [] :=
    List.dropWhile_eq_nil_iff.2 hall
  have hwhole : ¬ (Nat.toDigits 10 n = [] ∨
      ((Nat.toDigits 10 n).head? = some '0' ∧ Nat.toDigits 10 n ≠ ['0'])) := by
    rintro (h | ⟨h, hne⟩)
    · exact Nat.toDigits_ne_nil h
    · exact hne (toDigits_eq_of_head? h)
  simp only [unsigned?, htake, hdrop, if_neg hwhole, fraction?, exponent?, List.append_nil,
    Nat.ofDigitChars_ten_toDigits, List.length_nil, Option.map_some]
  simp

/-- A number in decimal is read back. -/
theorem bare?_toDigits (n : Nat) : bare? (Nat.toDigits 10 n) = some (.number n) := by
  have hn := unsigned?_toDigits n
  cases hdigits : Nat.toDigits 10 n with
  | nil => exact (Nat.toDigits_ne_nil hdigits).elim
  | cons c cs =>
    have hc : c.isDigit := by
      apply isDigit_of_mem_toDigits (n := n)
      rw [hdigits]
      exact List.mem_cons_self ..
    have hword : ∀ ds, ds.head?.map Char.isDigit = some false → c :: cs ≠ ds := by
      rintro _ h rfl
      rw [List.head?_cons, Option.map_some, hc] at h
      cases h
    have hsign : c ≠ '-' := by
      rintro rfl
      cases hc
    rw [hdigits] at hn
    rw [bare?, if_neg (hword _ rfl), if_neg (hword _ rfl), if_neg (hword _ rfl), number?,
      if_neg hsign, hn]
    rfl

/-! ## Rows -/

/-- What a member's value stands for. -/
def Scalar.value : Scalar → Value
  | .text s => .text s
  | .number n => .number n

/-- What a row stands for. -/
def rowValue (row : Row) : Value := .object (row.map fun m => (m.1, m.2.value))

theorem denotes_printScalar (x : Scalar) : Denotes (printScalar x) (.value x.value) := by
  cases x with
  | text s => exact .text (quotes_quote s)
  | number n =>
    rw [printScalar, Nat.toString_eq_repr, Nat.toList_repr]
    exact .bare (fun c hc => not_isDelimiter_of_isDigit (isDigit_of_mem_toDigits hc))
      (bare?_toDigits n)

theorem denotes_printMember (m : String × Scalar) :
    Denotes (printMember m) (.member m.1 m.2.value) := by
  have h := Denotes.member List.all_nil (quotes_quote m.1) List.all_nil (denotes_printScalar m.2)
  rw [List.nil_append, List.append_nil] at h
  exact h

/-- Texts with commas between them, from what one text is and what one before others is. -/
theorem intercalate_map_induction {α β : Type} {P : List Char → List β → Prop}
    {print : α → List Char} {f : α → β} (hnil : P [] []) (hlast : ∀ a, P (print a) [f a])
    (hnext : ∀ a cs b bs, P cs (b :: bs) → P (print a ++ ',' :: cs) (f a :: b :: bs)) (as : List α) :
    P ([','].intercalate (as.map print)) (as.map f) := by
  induction as with
  | nil => exact hnil
  | cons a as ih =>
    cases as with
    | nil =>
      rw [List.map_singleton, List.intercalate_singleton]
      exact hlast a
    | cons b as =>
      rw [List.map_cons, List.map_cons, List.intercalate_cons_cons, List.append_assoc,
        List.singleton_append]
      exact hnext a _ _ _ ih

theorem denotes_printRow (row : Row) : Denotes (printRow row) (.value (rowValue row)) := by
  apply Denotes.object
  apply intercalate_map_induction (P := fun cs ms => Denotes cs (.members ms))
  · exact .noMembers rfl
  · intro m
    exact .lastMember (denotes_printMember m)
  · intro m cs n ms h
    exact .nextMember (denotes_printMember m) h

/-- Rows with commas between them stand for the rows. -/
theorem denotes_printRows (rows : List Row) :
    Denotes ([','].intercalate (rows.map printRow)) (.items (rows.map rowValue)) := by
  apply intercalate_map_induction (P := fun cs vs => Denotes cs (.items vs))
  · exact .noItems rfl
  · intro row
    exact .lastItem (denotes_printRow row)
  · intro row cs v vs h
    exact .nextItem (denotes_printRow row) h

/-- What has to be said about a file: where each of its numbers is, or why it was not scanned. -/
def reportValues (r : FileReport) : List Value :=
  match r.status with
  | .scanned findings =>
    findings.map fun f =>
      .object [("file", .text r.file), ("line", .number f.line), ("value", .text f.text)]
  | .unsupported => [.object [("file", .text r.file), ("status", .text "unsupported")]]
  | .tooLarge size max =>
    [.object [("file", .text r.file), ("status", .text "too_large"),
      ("reason", .text s!"{size} bytes exceeds the {max} byte limit")]]
  | .failed reason =>
    [.object [("file", .text r.file), ("status", .text "failed"), ("reason", .text reason)]]

theorem map_rowValue_rows (r : FileReport) : (rows r).map rowValue = reportValues r := by
  obtain ⟨file, status⟩ := r
  cases status with
  | scanned findings =>
    rw [rows, List.map_map]
    rfl
  | unsupported => rfl
  | tooLarge size max => rfl
  | failed reason => rfl

theorem map_rowValue_flatMap (reports : List FileReport) :
    (reports.flatMap rows).map rowValue = reports.flatMap reportValues := by
  rw [List.map_flatMap]
  exact List.flatMap_congr fun r _ => map_rowValue_rows r

end Json

namespace Sink

open Json

/-! ## Writing -/

/-- One more text is parted from those before it, if there are any. -/
theorem intercalate_concat (texts : List (List Char)) (next : List Char) :
    [','].intercalate (texts ++ [next]) =
      [','].intercalate texts ++ (if texts.isEmpty then [] else [',']) ++ next := by
  induction texts with
  | nil => simp
  | cons text texts ih =>
    cases texts with
    | nil => simp
    | cons text' texts =>
      rw [List.cons_append, List.cons_append, List.intercalate_cons_cons, ← List.cons_append, ih,
        List.intercalate_cons_cons]
      simp only [List.append_assoc]
      rfl

/-- The rows that a sink has written. -/
structure Wrote (s : Sink) (rows : List Row) : Prop where
  format : s.format = .json
  isFirst : s.isFirst = rows.isEmpty
  output : s.output.toList = '[' :: [','].intercalate (rows.map printRow)

theorem wrote_start : Wrote (Sink.start .json) [] := ⟨rfl, rfl, rfl⟩

/-- A row that is written comes after those before it. -/
theorem Wrote.writeRow {s : Sink} {rows : List Row} (h : s.Wrote rows) (row : Row) :
    (s.writeRow row).Wrote (rows ++ [row]) := by
  refine ⟨h.format, ?_, ?_⟩
  · cases rows <;> rfl
  · -- the flag tells whether there is a row to be parted from
    have hsep : (if s.isFirst then "" else ",").toList =
        if (rows.map printRow).isEmpty then [] else [','] := by
      rw [h.isFirst, List.isEmpty_map]
      cases rows <;> simp
    rw [Sink.writeRow, String.toList_append, String.toList_append, h.output, String.toList_ofList,
      hsep, List.map_append, List.map_singleton, intercalate_concat]
    rfl

theorem Wrote.writeRows {s : Sink} {rows : List Row} (h : s.Wrote rows) (more : List Row) :
    (more.foldl Sink.writeRow s).Wrote (rows ++ more) := by
  induction more generalizing s rows with
  | nil =>
    rw [List.append_nil]
    exact h
  | cons row more ih =>
    have hmore := ih (h.writeRow row)
    rw [List.append_assoc, List.singleton_append] at hmore
    exact hmore

theorem write_json {s : Sink} (h : s.format = .json) (r : FileReport) :
    s.write r = (Json.rows r).foldl Sink.writeRow { s with tally := s.tally.add r } := by
  obtain ⟨format, isFirst, output, tally⟩ := s
  obtain rfl : format = .json := h
  rfl

/-- A report adds its rows, be they none, one or many. -/
theorem Wrote.write {s : Sink} {rows : List Row} (h : s.Wrote rows) (r : FileReport) :
    (s.write r).Wrote (rows ++ Json.rows r) := by
  have hs : Wrote { s with tally := s.tally.add r } rows := ⟨h.format, h.isFirst, h.output⟩
  rw [write_json h.format]
  exact hs.writeRows (Json.rows r)

theorem Wrote.writeAll {s : Sink} {rows : List Row} (h : s.Wrote rows)
    (reports : List FileReport) : (s.writeAll reports).Wrote (rows ++ reports.flatMap Json.rows) := by
  induction reports generalizing s rows with
  | nil =>
    rw [List.flatMap_nil, List.append_nil]
    exact h
  | cons r reports ih =>
    have hmore := ih (h.write r)
    rw [List.append_assoc, ← List.flatMap_cons] at hmore
    exact hmore

/-- What has been written makes up an array once the sink is closed. -/
theorem Wrote.denotes {s : Sink} {rows : List Row} (h : s.Wrote rows) :
    Denotes s.finish.1.toList (.value (.array (rows.map rowValue))) := by
  have hfinish : s.finish.1 = s.output ++ "]" := by
    rw [finish, h.format]
  rw [hfinish, String.toList_append, h.output]
  exact .array (denotes_printRows rows)

/-! ## Counting -/

theorem tally_finish (s : Sink) : s.finish.2 = s.tally := by
  rw [finish]
  cases s.format <;> rfl

/-- The tally does not ask for the format. -/
theorem tally_write (s : Sink) (r : FileReport) : (s.write r).tally = s.tally.add r := by
  have hrows : ∀ (rows : List Row) (s : Sink), (rows.foldl writeRow s).tally = s.tally := by
    intro rows
    induction rows with
    | nil => exact fun s => rfl
    | cons row rows ih => exact fun s => ih (s.writeRow row)
  rw [Sink.write]
  cases s.format with
  | text => rfl
  | json => exact hrows (Json.rows r) _

theorem tally_writeAll (s : Sink) (reports : List FileReport) :
    (s.writeAll reports).tally = reports.foldl Tally.add s.tally := by
  induction reports generalizing s with
  | nil => rfl
  | cons r reports ih =>
    rw [List.foldl_cons, ← tally_write]
    exact ih (s.write r)

end Sink

namespace Tally

/-- Each report is counted once, and adds as many rows as the tally gains by findings and by files
    that were not scanned. -/
theorem add_counts (t : Tally) (r : FileReport) :
    (t.add r).scanned + (t.add r).skipped + (t.add r).failed =
      t.scanned + t.skipped + t.failed + 1 ∧
    (t.add r).findings + (t.add r).skipped + (t.add r).failed =
      t.findings + t.skipped + t.failed + (Json.reportValues r).length := by
  obtain ⟨file, status⟩ := r
  cases status with
  | scanned findings =>
    simp only [add, FileStatus.findings, Json.reportValues, List.length_map]
    omega
  | unsupported | tooLarge size max | failed reason =>
    simp only [add, FileStatus.findings, Json.reportValues, List.length_nil, List.length_singleton]
    omega

theorem foldl_add_counts (t : Tally) (reports : List FileReport) :
    (reports.foldl add t).scanned + (reports.foldl add t).skipped + (reports.foldl add t).failed =
      t.scanned + t.skipped + t.failed + reports.length ∧
    (reports.foldl add t).findings + (reports.foldl add t).skipped + (reports.foldl add t).failed =
      t.findings + t.skipped + t.failed + (reports.flatMap Json.reportValues).length := by
  induction reports generalizing t with
  | nil => exact ⟨rfl, rfl⟩
  | cons r reports ih =>
    obtain ⟨hfiles, hrows⟩ := ih (t.add r)
    obtain ⟨hfile, hrow⟩ := t.add_counts r
    rw [List.foldl_cons, List.flatMap_cons, List.length_append, List.length_cons]
    omega

end Tally

/-- **A report in JSON is well-formed and says what was found**: it stands for one array, of a row for
    each finding and one for each file that was not scanned, in the order of the reports.  The tally
    counts every report once and every row once, and it is the tally of the same reports as text. -/
theorem json_report_denotes (reports : List FileReport) :
    let written := ((Sink.start .json).writeAll reports).finish
    let rows := reports.flatMap Json.reportValues
    (∀ v, Json.Denotes written.1.toList (.value v) ↔ v = .array rows) ∧
    written.2.scanned + written.2.skipped + written.2.failed = reports.length ∧
    rows.length = written.2.findings + written.2.skipped + written.2.failed ∧
    written.2 = ((Sink.start .text).writeAll reports).finish.2 := by
  intro written rows
  have hdenotes : Json.Denotes written.1.toList (.value (.array rows)) := by
    have hwrote := (Sink.wrote_start.writeAll reports).denotes
    rw [List.nil_append, Json.map_rowValue_flatMap] at hwrote
    exact hwrote
  have htally : written.2 = reports.foldl Tally.add {} := by
    rw [Sink.tally_finish, Sink.tally_writeAll]
    rfl
  have htext : ((Sink.start .text).writeAll reports).finish.2 = reports.foldl Tally.add {} := by
    rw [Sink.tally_finish, Sink.tally_writeAll]
    rfl
  obtain ⟨hfiles, hrows⟩ := Tally.foldl_add_counts {} reports
  rw [htally, htext]
  refine ⟨fun v => ⟨fun hv => hv.unique hdenotes, ?_⟩, ?_, ?_, rfl⟩
  · rintro rfl
    exact hdenotes
  · rw [hfiles]
    exact Nat.zero_add _
  · rw [hrows]
    exact (Nat.zero_add _).symm

/-- Clean files before the first row, between two and after the last. -/
example : ((Sink.start .json).writeAll [⟨"a", .scanned []⟩, ⟨"b", .unsupported⟩, ⟨"c", .scanned []⟩,
      ⟨"d", .failed "\"\n"⟩, ⟨"e", .scanned []⟩]).finish.1 =
    "[\x7b\"file\":\"b\",\"status\":\"unsupported\"\x7d," ++
      "\x7b\"file\":\"d\",\"status\":\"failed\",\"reason\":\"\\\"\\n\"\x7d]" := by
  decide +kernel

end MagicNumbers
