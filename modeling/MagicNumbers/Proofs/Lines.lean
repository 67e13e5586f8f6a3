/-
  The lines of what is found.

  A scan counts line ends as it goes: those in each comment and each literal, those that stand by
  themselves, and those of a block that it passes over.  A block that it opens is counted from the
  inside, and the brace that closes it is counted by nobody.

  * `lineAt` — the line of a place, counted from the start of the source.
  * `ScanState.Numbered` — the invariant: what was found carries the line it is on, and the count is
    the line of the place that the innermost scope has come to.
  * `Reachable.numbered` — so it is in every state of a scan that counts all line ends.
-/
import MagicNumbers.Proofs.Stack

namespace MagicNumbers

/-! ## Counting from the start -/

/-- The line of the place `pos` bytes into a source: one more than the line ends before it. -/
def lineAt (src : Bytes) (pos : Nat) : Nat := 1 + newlines (src.take pos)

theorem lineAt_zero (src : Bytes) : lineAt src 0 = 1 := rfl

/-- From a place to one that is `n` bytes further the line ends in between are added. -/
theorem lineAt_add (src : Bytes) (pos n : Nat) :
    lineAt src (pos + n) = lineAt src pos + newlines ((src.drop pos).take n) := by
  rw [lineAt, lineAt, List.take_add, newlines_append, Nat.add_assoc]

/-- Behind a byte that is no line feed the line is the same. -/
theorem lineAt_succ {src s : Bytes} {b : UInt8} {pos : Nat} (hs : src.drop pos = b :: s)
    (hb : b ≠ Byte.lineFeed) : lineAt src (pos + 1) = lineAt src pos := by
  rw [lineAt_add, hs, List.take_succ_cons, List.take_zero, newlines, List.count_singleton,
    if_neg (by simpa using hb), Nat.add_zero]

/-- Over a token the line grows by the line ends in it. -/
theorem Frame.Lies.lineAt_advance {opts : LexOptions} {src : Bytes} {frame : Frame}
    (h : frame.Lies opts src) (n : Nat) :
    lineAt src (frame.cursor.advance n).offset =
      lineAt src frame.cursor.offset + newlines (frame.cursor.rest.take n) := by
  rw [Cursor.offset_advance, lineAt_add, h.rest_eq]

/-- Over one byte that is no line feed the line stays. -/
theorem Frame.Lies.lineAt_advance_one {opts : LexOptions} {src : Bytes} {frame : Frame} {b : UInt8}
    {s : Bytes} (h : frame.Lies opts src) (hr : frame.cursor.rest = b :: s)
    (hb : b ≠ Byte.lineFeed) :
    lineAt src (frame.cursor.advance 1).offset = lineAt src frame.cursor.offset := by
  rw [Cursor.offset_advance]
  exact lineAt_succ (h.rest_eq.symm.trans hr) hb

/-! ## The invariant -/

/-- What was found carries the line it is on, and the count is the line of the place that the
    innermost scope has come to. -/
structure ScanState.Numbered (src : Bytes) (st : ScanState) : Prop where
  found : ∀ f ∈ st.found, f.line = lineAt src f.offset
  line : ∀ frame ∈ st.frames.head?, st.line = lineAt src frame.cursor.offset

/-- A scan that has just begun has found nothing and stands on the first line. -/
theorem ScanState.numbered_start (opts : LexOptions) (src : Bytes) :
    (ScanState.start opts src).Numbered src := by
  constructor
  · intro f hf
    cases Array.not_mem_empty f hf
  · intro frame hframe
    cases hframe
    exact (lineAt_zero src).symm

/-- A finding with the line of its place may be added. -/
theorem lines_push {src : Bytes} {found : Array Finding} {new : Finding}
    (h : ∀ f ∈ found, f.line = lineAt src f.offset) (hnew : new.line = lineAt src new.offset) :
    ∀ f ∈ found.push new, f.line = lineAt src f.offset := by
  intro f hf
  rcases Array.mem_push.1 hf with hf | rfl
  · exact h f hf
  · exact hnew

/-- **A step that counts all line ends keeps the count.** -/
theorem ScanState.Numbered.step {opts : LexOptions} {src : Bytes} {st st' : ScanState}
    {frame : Frame} {below : List Frame} (h : st.Numbered src) (hf : st.frames = frame :: below)
    (hlies : frame.Lies opts src) (hstacked : Stacked src (frame :: below))
    (hdrift : opts.legacyLineDrift = false) (hs : Step opts st frame below st') :
    st'.Numbered src := by
  have hline : st.line = lineAt src frame.cursor.offset := h.line frame (by rw [hf]; rfl)
  -- where the innermost scope has moved over a token, its line ends have been added
  have moved : ∀ n, st.line + newlines (frame.cursor.rest.take n) =
      lineAt src (frame.cursor.advance n).offset := by
    intro n
    rw [hlies.lineAt_advance, hline]
  cases hs with
  | close hend =>
    refine ⟨h.found, ?_⟩
    intro outer houter
    cases hstacked with
    | bottom => cases houter
    | inner hclose hnext =>
      -- the scope around it goes on behind the brace, which is no line end
      cases houter
      obtain ⟨heq, s, hr⟩ := hclose.rest_of_end hend
      have hbrace := hlies.lineAt_advance_one hr (by decide)
      rw [Cursor.offset_advance, heq] at hbrace
      show st.line = lineAt src outer.cursor.offset
      rw [hnext, hbrace, hline, heq]
  | @skip b s t ht hk =>
    refine ⟨h.found, ?_⟩
    intro next hnext
    cases hnext
    exact moved t.length
  | @semicolon b s t ht hk =>
    refine ⟨h.found, ?_⟩
    intro next hnext
    cases hnext
    show st.line = lineAt src (frame.cursor.advance t.length).offset
    cases Token.reads_of_read ht.read with
    | semicolon hb => rw [hline, hlies.lineAt_advance_one ht.rest (by rw [hb]; decide)]
    | _ => cases hk
  | @literal b s t safe ht hk ha =>
    constructor
    · cases safe with
      | true => exact h.found
      | false => exact lines_push h.found hline
    · intro next hnext
      cases hnext
      exact moved t.length
  | @pass b s t ht hk ha =>
    refine ⟨h.found, ?_⟩
    intro next hnext
    cases hnext
    show st.line + (if opts.legacyLineDrift then 0 else _) = _
    rw [hdrift]
    exact moved t.length
  | @enter b s t ht hk ha =>
    refine ⟨h.found, ?_⟩
    intro next hnext
    cases hnext
    show st.line = lineAt src (frame.cursor.advance 1).offset
    have hb := (Token.kind_eq_block_iff ht.read).1 hk
    rw [hline, hlies.lineAt_advance_one ht.rest (by rw [hb]; decide)]

/-- **In every state that a scan comes to the count is right**, if it counts all line ends. -/
theorem Reachable.numbered {opts : LexOptions} {src : Bytes} {st : ScanState}
    (h : Reachable opts src st) (hdrift : opts.legacyLineDrift = false) : st.Numbered src := by
  induction h with
  | start => exact ScanState.numbered_start opts src
  | step hst hf hs ih =>
    obtain ⟨hlies, hstacked⟩ := hst.top hf
    exact ih.step hf hlies hstacked hdrift (step_of_eq_ok hs)

/-- **Every finding is on the line it says**: one more than the line feeds before its offset, whatever
    precedes it. -/
theorem line_of_mem_scan {src : Bytes} {keywords : List Bytes} {found : List Finding}
    (h : scan ⟨keywords, false⟩ src = .ok found) :
    ∀ f ∈ found, f.line = 1 + newlines (src.take f.offset) := by
  intro f hf
  obtain ⟨last, hrun, rfl⟩ := run_of_scan_ok h
  have hlast := (Reachable.start.run_ok hrun).1
  exact (hlast.numbered rfl).found f (Array.mem_toList_iff.1 hf)

/-- A comment, a literal with an escape and a comment in it, the block of a constant and two nested
    blocks, each with line ends, precede what is found. -/
theorem line_of_mem_scan_nested :
    let src := Bytes.ofString
      "/*\n*/f(\"\\\"/*\"\n*/\");static final int A=\x7b\n\x7b1\n\x7d\x7d\x7b\n\x7b\n\x7d3\n\x7d\n5"
    let found : List Finding :=
      [⟨2, 7, Bytes.ofString "\"\\\"/*\"\n*/\""⟩, ⟨7, 50, Bytes.ofString "3"⟩,
        ⟨9, 54, Bytes.ofString "5"⟩]
    scan {} src = .ok found ∧ ∀ f ∈ found, f.line = 1 + newlines (src.take f.offset) := by
  intro src found
  have h : scan {} src = .ok found := eq_ok_of_toOption (by decide +kernel)
  exact ⟨h, line_of_mem_scan h⟩

end MagicNumbers
