/-
  Scanning a source scope by scope.

  A scan keeps a stack of frames, one per scope that is open, and takes one token of the innermost
  scope at a time.  A block whose header does not declare a constant is a scope of its own: the frame
  around it moves on past the block first, and the new frame is then scanned to its end before the
  outer one goes on.  So literals are found in the order of the source, however deep they are
  nested, and no depth is too much.

  * `ScanState.step` takes one token, or closes a scope that has come to its end.
  * `weight_step` : a step leaves less to do, so `ScanState.run` ends.
  * `scan` : the findings of a whole source, or the construct that is not closed in it.
-/
import MagicNumbers.Lexeme.Token
import MagicNumbers.Context.Statement
import MagicNumbers.Scan.Finding

namespace MagicNumbers

/-- A scope that is being scanned: the place reached, the offset it ends at, and the statement that the
    place belongs to. -/
structure Frame where
  cursor : Cursor
  stop : Nat
  statement : Statement
  deriving DecidableEq, Repr

/-- A scope at the beginning of a statement. -/
def Frame.enter (opts : LexOptions) (cursor : Cursor) (stop : Nat) : Frame :=
  ⟨cursor, stop, .fresh opts.safeKeywords cursor⟩

/-- The whole of a scan: the open scopes, innermost first, the line of the place reached in the
    innermost, and what has been found. -/
structure ScanState where
  frames : List Frame
  line : Nat
  found : Array Finding
  deriving DecidableEq, Repr

namespace ScanState

/-- The state before the first token. -/
def start (opts : LexOptions) (src : Bytes) : ScanState :=
  ⟨[.enter opts (.start src) src.length], 1, #[]⟩

/-- What a block does: after it comes a new statement of its scope.  It is scanned as a scope of its own
    unless its header, which ends one byte before the brace, declares a constant. -/
def takeBlock (opts : LexOptions) (st : ScanState) (frame : Frame) (below : List Frame)
    (length : Nat) : Except Unclosed ScanState :=
  let c := frame.cursor
  let close := c.advance length
  let after := Frame.enter opts close frame.stop
  match (frame.statement.ask (c.offset - 1)).1 with
  | .error e => .error e
  | .ok true =>
    let passed := if opts.legacyLineDrift then 0 else newlines (c.rest.take length)
    .ok { st with frames := after :: below, line := st.line + passed }
  | .ok false =>
    let inner := Frame.enter opts (c.advance 1) (close.offset - 1)
    .ok { st with frames := inner :: after :: below }

/-- What a literal does: it is reported unless its statement declares a constant.  The statement is
    asked for what lies before `bound`. -/
def takeLiteral (st : ScanState) (frame : Frame) (below : List Frame) (length bound : Nat) :
    Except Unclosed ScanState :=
  let c := frame.cursor
  let span := c.rest.take length
  match frame.statement.ask bound with
  | (.error e, _) => .error e
  | (.ok safe, statement) =>
    .ok
      { frames := { frame with cursor := c.advance length, statement } :: below
        line := st.line + newlines span
        found := if safe then st.found else st.found.push ⟨st.line, c.offset, span⟩ }

/-- One step of the innermost scope `frame`, which is closed once its end is reached. -/
def step (opts : LexOptions) (st : ScanState) (frame : Frame) (below : List Frame) :
    Except Unclosed ScanState :=
  let c := frame.cursor
  match c.rest with
  | [] => .ok { st with frames := below }
  | b :: s =>
    if frame.stop ≤ c.offset then .ok { st with frames := below }
    else
      match Token.read c.lead b s with
      | .error e => .error (e.shift c.offset)
      | .ok ⟨.block, n⟩ => takeBlock opts st frame below n
      | .ok ⟨.quoted, n⟩ => takeLiteral st frame below n (c.offset + n)
      | .ok ⟨.number, n⟩ => takeLiteral st frame below n c.offset
      | .ok ⟨.semicolon, n⟩ =>
        .ok { st with frames := .enter opts (c.advance n) frame.stop :: below }
      | .ok ⟨_, n⟩ =>
        .ok
          { st with
            frames := { frame with cursor := c.advance n } :: below
            line := st.line + newlines (c.rest.take n) }

/-! ## A step leaves less to do -/

/-- What is left to do in some scopes.  A scope counts three times what it would count without its next
    byte, so that two scopes over the rest still count less. -/
def weight : List Frame → Nat
  | [] => 0
  | frame :: below => Nat.pow 3 frame.cursor.rest.length + weight below

theorem weight_cons (frame : Frame) (below : List Frame) :
    weight (frame :: below) = Nat.pow 3 frame.cursor.rest.length + weight below :=
  rfl

theorem weight_step {opts : LexOptions} {st st' : ScanState} {frame : Frame} {below : List Frame}
    (h : step opts st frame below = .ok st') : weight st'.frames < weight (frame :: below) := by
  have pos : ∀ n, 0 < Nat.pow 3 n := fun n => Nat.pow_pos (by omega)
  have mono : ∀ {m n}, m < n → Nat.pow 3 m < Nat.pow 3 n := fun hmn =>
    Nat.pow_lt_pow_right (by omega) hmn
  rw [weight_cons]
  unfold step at h
  simp only at h
  split at h
  · cases h
    have := pos frame.cursor.rest.length
    show weight below < _
    omega
  · next b s hr =>
    have hlen : frame.cursor.rest.length = s.length + 1 := by simp [hr]
    -- a place `n` bytes further counts less
    have less : ∀ n, 0 < n → Nat.pow 3 (frame.cursor.advance n).rest.length <
        Nat.pow 3 frame.cursor.rest.length := by
      intro n hn
      apply mono
      rw [Cursor.rest_advance, List.length_drop]
      omega
    split at h
    · cases h
      have := pos frame.cursor.rest.length
      show weight below < _
      omega
    · split at h
      · cases h
      · -- a block
        next n ht =>
        have hb := Token.read_bounds ht
        simp only at hb
        unfold takeBlock at h
        simp only at h
        split at h
        · cases h
        · cases h
          have := less n (by omega)
          simpa [weight_cons, Frame.enter] using this
        · cases h
          have h1 : Nat.pow 3 (frame.cursor.advance 1).rest.length = Nat.pow 3 s.length := by
            simp [hlen]
          have h2 : Nat.pow 3 (frame.cursor.advance n).rest.length ≤ Nat.pow 3 s.length := by
            apply Nat.pow_le_pow_right (by omega)
            rw [Cursor.rest_advance, List.length_drop]
            omega
          have h3 : Nat.pow 3 frame.cursor.rest.length = Nat.pow 3 s.length * 3 := by
            rw [hlen]
            rfl
          have := pos s.length
          simp only [weight_cons, Frame.enter]
          omega
      · -- a quoted literal
        next n ht =>
        have hb := Token.read_bounds ht
        simp only at hb
        unfold takeLiteral at h
        simp only at h
        split at h
        · cases h
        · cases h
          have := less n (by omega)
          simpa [weight_cons] using this
      · -- a number
        next n ht =>
        have hb := Token.read_bounds ht
        simp only at hb
        unfold takeLiteral at h
        simp only at h
        split at h
        · cases h
        · cases h
          have := less n (by omega)
          simpa [weight_cons] using this
      · next n ht =>
        have hb := Token.read_bounds ht
        simp only at hb
        cases h
        have := less n (by omega)
        simpa [weight_cons, Frame.enter] using this
      · next n _ _ _ _ ht =>
        have hb := Token.read_bounds ht
        simp only at hb
        cases h
        have := less n (by omega)
        simpa [weight_cons] using this

/-- Takes steps until no scope is open. -/
def run (opts : LexOptions) (st : ScanState) : Except Unclosed ScanState :=
  match _hf : st.frames with
  | [] => .ok st
  | frame :: below =>
    match _hs : step opts st frame below with
    | .error e => .error e
    | .ok st => run opts st
termination_by weight st.frames
decreasing_by
  rw [_hf]
  exact weight_step _hs

end ScanState

/-- The magic literals of a source in the order of the source.  A source that leaves a construct open
    has none: the lines after it could not be trusted. -/
def scan (opts : LexOptions) (src : Bytes) : Except Malformed (List Finding) :=
  match (ScanState.start opts src).run opts with
  | .ok st => .ok st.found.toList
  | .error e => .error (e.inSource src)

/-- Adds the findings of a source to a list.  A source that fails adds nothing. -/
def scanInto (opts : LexOptions) (src : Bytes) (found : List Finding) :
    Option Malformed × List Finding :=
  match scan opts src with
  | .ok new => (none, found ++ new)
  | .error e => (some e, found)

/-! ## Scans on examples -/

/-- The line, the offset and the bytes of each finding. -/
example : (scan {} (Bytes.ofString "a();\nb(42, 'c');")).toOption =
    some [⟨2, 7, Bytes.ofString "42"⟩, ⟨2, 11, Bytes.ofString "'c'"⟩] := by
  decide +kernel

/-- Constants, lone zeros and ones, and digits of names are not reported. -/
example : (scan {} (Bytes.ofString "static final int A = 42; x1 = y + 0;")).toOption = some [] := by
  decide +kernel

/-- The line ends of a constant's block count, unless they are to be left out. -/
example : (scan {} (Bytes.ofString "static final int[] A = \x7b\n2\n\x7d; 5")).toOption =
    some [⟨3, 30, Bytes.ofString "5"⟩] := by
  decide +kernel

example :
    (scan { legacyLineDrift := true }
      (Bytes.ofString "static final int[] A = \x7b\n2\n\x7d; 5")).toOption =
    some [⟨1, 30, Bytes.ofString "5"⟩] := by
  decide +kernel

/-- A source that leaves a construct open has no findings. -/
example : (scanInto {} (Bytes.ofString "5; /*") []).1 = some ⟨⟨.blockComment, 3⟩, 1⟩ := by
  decide +kernel

end MagicNumbers
