/-
  The steps of a scan.

  A step takes one token of the innermost scope.  What it does depends on the role of the token, and for
  a literal or a block on what is known about the statement; so a step has one equation for each role
  and each answer.

  * `Token.role` — every token has one of four roles.
  * `ScanState.step_of_skipped` and the others — what a step makes of a token with that role.
  * `ScanState.run_cons` — a run is a step and the run from there.
-/
import MagicNumbers.Proofs.Walk
import MagicNumbers.Scan.Frames

namespace MagicNumbers

/-! ## The role of a token in a scan -/

namespace Token

/-- The token is passed over: it ends no statement and is no literal. -/
def IsSkipped (t : Token) : Prop := t.kind = .comment ∨ t.kind = .name ∨ t.kind = .other

/-- The token is reported unless its statement declares a constant. -/
def IsLiteral (t : Token) : Prop := t.kind = .quoted ∨ t.kind = .number

/-- How far the statement of a literal at `pos` is asked: through a quoted literal, up to a number. -/
def bound (t : Token) (pos : Nat) : Nat := if t.kind = .quoted then pos + t.length else pos

/-- A statement is asked no further than to the end of the literal. -/
theorem bound_le (t : Token) (pos : Nat) : t.bound pos ≤ pos + t.length := by
  rw [bound]
  split
  · exact Nat.le_refl _
  · exact Nat.le_add_right _ _

theorem bound_add (t : Token) (m n : Nat) : t.bound (m + n) = m + t.bound n := by
  rw [bound, bound]
  split
  · exact Nat.add_assoc m n t.length
  · rfl

/-- Every token has one of four roles. -/
theorem role (t : Token) :
    t.IsSkipped ∨ t.kind = .semicolon ∨ t.IsLiteral ∨ t.kind = .block := by
  obtain ⟨kind, n⟩ := t
  cases kind <;> simp [IsSkipped, IsLiteral]

theorem IsSkipped.ne_block {t : Token} (h : t.IsSkipped) : t.kind ≠ .block := by
  rcases h with h | h | h <;> simp [h]

theorem IsLiteral.ne_block {t : Token} (h : t.IsLiteral) : t.kind ≠ .block := by
  rcases h with h | h <;> simp [h]

end Token

/-! ## Where a scope stands -/

/-- The scope has come to `pos` in its source, in a statement that starts at `start` and knows what it
    has to. -/
structure Frame.IsAt (opts : LexOptions) (src : Bytes) (start pos : Nat) (frame : Frame) : Prop where
  cursor : frame.cursor = .ofOffset src pos
  start : frame.statement.start = .ofOffset src start
  knows : frame.statement.Knows opts.safeKeywords

theorem Frame.isAt_enter (opts : LexOptions) (src : Bytes) (pos stop : Nat) :
    (Frame.enter opts (.ofOffset src pos) stop).IsAt opts src pos pos :=
  ⟨rfl, rfl, Statement.knows_fresh _ _⟩

section

variable {opts : LexOptions} {src : Bytes} {start pos : Nat} {frame : Frame}

theorem Frame.IsAt.offset_eq (h : frame.IsAt opts src start pos) : frame.cursor.offset = pos := by
  rw [h.cursor, Cursor.offset_ofOffset]

theorem Frame.IsAt.rest_eq (h : frame.IsAt opts src start pos) :
    frame.cursor.rest = src.drop pos := by
  rw [h.cursor, Cursor.rest_ofOffset]

theorem Frame.IsAt.lead_eq (h : frame.IsAt opts src start pos) :
    frame.cursor.lead = leadOf (src.take pos) := by
  rw [h.cursor, Cursor.lead_ofOffset]

/-- Some bytes further, the scope is at the place that many bytes further. -/
theorem Frame.IsAt.advance (h : frame.IsAt opts src start pos) (n : Nat) :
    frame.cursor.advance n = .ofOffset src (pos + n) := by
  rw [h.cursor, Cursor.advance_ofOffset]

end

/-! ## One step -/

@[simp] theorem Frame.stop_enter (opts : LexOptions) (c : Cursor) (stop : Nat) :
    (Frame.enter opts c stop).stop = stop := rfl

@[simp] theorem Frame.cursor_enter (opts : LexOptions) (c : Cursor) (stop : Nat) :
    (Frame.enter opts c stop).cursor = c := rfl

@[simp] theorem Frame.start_enter (opts : LexOptions) (c : Cursor) (stop : Nat) :
    (Frame.enter opts c stop).statement.start = c := rfl

namespace ScanState

variable {opts : LexOptions} {st : ScanState} {frame : Frame} {below : List Frame} {b : UInt8}
  {s : Bytes} {t : Token}

/-- A scope that has come to its end is closed. -/
theorem step_of_end (h : frame.cursor.rest = [] ∨ frame.stop ≤ frame.cursor.offset) :
    step opts st frame below = .ok { st with frames := below } := by
  rw [step]
  split
  · rfl
  · next hr =>
    rcases h with h | h
    · rw [hr] at h; cases h
    · exact if_pos h

/-- What is unclosed ends the scan. -/
theorem step_of_error {e : Unclosed} (hr : frame.cursor.rest = b :: s)
    (hlt : frame.cursor.offset < frame.stop) (ht : Token.read frame.cursor.lead b s = .error e) :
    step opts st frame below = .error (e.shift frame.cursor.offset) := by
  simp only [step, hr, if_neg (Nat.not_le.2 hlt), ht]

/-- What is passed over moves the scope on and counts its line ends. -/
theorem step_of_skipped (hr : frame.cursor.rest = b :: s)
    (hlt : frame.cursor.offset < frame.stop) (ht : Token.read frame.cursor.lead b s = .ok t)
    (hk : t.IsSkipped) :
    step opts st frame below =
      .ok
        { st with
          frames := { frame with cursor := frame.cursor.advance t.length } :: below
          line := st.line + newlines (frame.cursor.rest.take t.length) } := by
  obtain ⟨kind, n⟩ := t
  rcases hk with hk | hk | hk <;>
    · cases hk
      simp only [step, hr, if_neg (Nat.not_le.2 hlt), ht]

/-- A semicolon ends the statement. -/
theorem step_of_semicolon (hr : frame.cursor.rest = b :: s)
    (hlt : frame.cursor.offset < frame.stop) (ht : Token.read frame.cursor.lead b s = .ok t)
    (hk : t.kind = .semicolon) :
    step opts st frame below =
      .ok { st with frames := .enter opts (frame.cursor.advance t.length) frame.stop :: below } := by
  obtain ⟨kind, n⟩ := t
  cases hk
  simp only [step, hr, if_neg (Nat.not_le.2 hlt), ht]

/-- A literal asks its statement. -/
theorem step_of_literal (hr : frame.cursor.rest = b :: s)
    (hlt : frame.cursor.offset < frame.stop) (ht : Token.read frame.cursor.lead b s = .ok t)
    (hk : t.IsLiteral) :
    step opts st frame below =
      takeLiteral st frame below t.length (t.bound frame.cursor.offset) := by
  obtain ⟨kind, n⟩ := t
  rcases hk with hk | hk <;>
    · cases hk
      simp [step, hr, if_neg (Nat.not_le.2 hlt), ht, Token.bound]

/-- A block asks its statement. -/
theorem step_of_block (hr : frame.cursor.rest = b :: s)
    (hlt : frame.cursor.offset < frame.stop) (ht : Token.read frame.cursor.lead b s = .ok t)
    (hk : t.kind = .block) :
    step opts st frame below = takeBlock opts st frame below t.length := by
  obtain ⟨kind, n⟩ := t
  cases hk
  simp only [step, hr, if_neg (Nat.not_le.2 hlt), ht]

/-! ## What a statement answers -/

/-- A literal whose statement cannot be answered for ends the scan. -/
theorem takeLiteral_of_error {length bound : Nat} {e : Unclosed}
    (ha : (frame.statement.ask bound).1 = .error e) :
    takeLiteral st frame below length bound = .error e := by
  rw [takeLiteral]
  split
  · next h => rw [h] at ha; cases ha; rfl
  · next h => rw [h] at ha; cases ha

/-- A literal is reported unless it is safe, and the scope moves on behind it. -/
theorem takeLiteral_of_ok {length bound : Nat} {safe : Bool}
    (ha : (frame.statement.ask bound).1 = .ok safe) :
    takeLiteral st frame below length bound =
      .ok
        { frames :=
            { frame with
              cursor := frame.cursor.advance length
              statement := (frame.statement.ask bound).2 } :: below
          line := st.line + newlines (frame.cursor.rest.take length)
          found :=
            if safe then st.found
            else st.found.push ⟨st.line, frame.cursor.offset, frame.cursor.rest.take length⟩ } := by
  rw [takeLiteral]
  split
  · next h => rw [h] at ha; cases ha
  · next h => rw [h] at ha ⊢; cases ha; rfl

theorem takeBlock_of_error {length : Nat} {e : Unclosed}
    (ha : (frame.statement.ask (frame.cursor.offset - 1)).1 = .error e) :
    takeBlock opts st frame below length = .error e := by
  simp only [takeBlock, ha]

/-- The block of a constant is passed over. -/
theorem takeBlock_of_safe {length : Nat}
    (ha : (frame.statement.ask (frame.cursor.offset - 1)).1 = .ok true) :
    takeBlock opts st frame below length =
      .ok
        { st with
          frames := .enter opts (frame.cursor.advance length) frame.stop :: below
          line :=
            st.line +
              if opts.legacyLineDrift then 0 else newlines (frame.cursor.rest.take length) } := by
  simp only [takeBlock, ha]

/-- Any other block is a scope of its own, which the scope around it waits for behind the block. -/
theorem takeBlock_of_not_safe {length : Nat}
    (ha : (frame.statement.ask (frame.cursor.offset - 1)).1 = .ok false) :
    takeBlock opts st frame below length =
      .ok
        { st with
          frames :=
            .enter opts (frame.cursor.advance 1) (frame.cursor.offset + length - 1) ::
              .enter opts (frame.cursor.advance length) frame.stop :: below } := by
  simp only [takeBlock, ha, Cursor.offset_advance]

/-! ## Runs -/

/-- Without an open scope the scan is over. -/
theorem run_nil (line : Nat) (found : Array Finding) :
    run opts ⟨[], line, found⟩ = .ok ⟨[], line, found⟩ := by
  rw [run]

/-- A run is a step and the run from there. -/
theorem run_cons (line : Nat) (found : Array Finding) :
    run opts ⟨frame :: below, line, found⟩ =
      match step opts ⟨frame :: below, line, found⟩ frame below with
      | .ok st => run opts st
      | .error e => .error e := by
  rw [run]
  split
  · next h => cases h
  · next h =>
    cases h
    split
    · next hs => rw [hs]
    · next hs => rw [hs]

/-- So it is for a state of which only the scopes are known. -/
theorem run_of_frames (hf : st.frames = frame :: below) :
    run opts st =
      match step opts st frame below with
      | .ok st => run opts st
      | .error e => .error e := by
  obtain ⟨frames, line, found⟩ := st
  cases hf
  exact run_cons line found

end ScanState

/-- A scan that succeeds is a run that does. -/
theorem run_of_scan_ok {opts : LexOptions} {src : Bytes} {found : List Finding}
    (h : scan opts src = .ok found) :
    ∃ last, (ScanState.start opts src).run opts = .ok last ∧ last.found.toList = found := by
  rw [scan] at h
  split at h
  · next last hlast => cases h; exact ⟨last, hlast, rfl⟩
  · cases h

/-- A scan that fails is a run that does, and the error is placed in the source. -/
theorem run_of_scan_error {opts : LexOptions} {src : Bytes} {e : Malformed}
    (h : scan opts src = .error e) :
    ∃ u, (ScanState.start opts src).run opts = .error u ∧ u.inSource src = e := by
  rw [scan] at h
  split at h
  · cases h
  · next u hu => cases h; exact ⟨u, hu, rfl⟩

end MagicNumbers
