/-
  Scanning by recursion over the scopes.

  The plainest way to say what a scan finds: a scope is walked from left to right, a block that has to
  be scanned is a walk of its own, and each question about a statement is answered afresh from the
  start of the statement.  All places are offsets into the one source.

  `scanRange` gives the line at the end of a range and the findings in it.  It keeps no stack and
  remembers nothing about a statement, which is what `scan` does to spare time and depth.
-/
import MagicNumbers.Context.Range
import MagicNumbers.Lexeme.Number
import MagicNumbers.Scan.Finding

namespace MagicNumbers

/-- The end of the comment, the literal or the block that begins at a place lies after that place. -/
theorem lt_of_commentExtent {src : Bytes} {pos : Nat} {lines : Bool} {k : Extent}
    (h : commentExtent src pos lines = .ok k) : pos < k.stop := by
  unfold commentExtent at h
  cases hc : commentLength (src.drop pos) with
  | error e => simp [hc, locate, Except.map] at h
  | ok n =>
    have := commentLength_pos hc
    simp [hc, locate, Except.map, Extent.over] at h
    simp [← h]
    omega

theorem lt_of_quotedExtent {src s : Bytes} {b : UInt8} {pos : Nat} {lines : Bool} {k : Extent}
    (hs : src.drop pos = b :: s) (h : quotedExtent src pos lines = .ok k) : pos < k.stop := by
  unfold quotedExtent at h
  rw [hs] at h
  cases hq : quotedLength (b :: s) with
  | error e => simp [hq, locate, Except.map] at h
  | ok n =>
    have := quotedLength_pos hq
    simp [hq, locate, Except.map, Extent.over] at h
    simp [← h]
    omega

theorem lt_of_blockStop {src s : Bytes} {b : UInt8} {pos close : Nat}
    (hs : src.drop pos = b :: s) (h : blockStop src pos = .ok close) : pos + 1 < close := by
  unfold blockStop at h
  rw [hs] at h
  cases hb : blockLength (b :: s) with
  | error e => simp [hb, locate, Except.map] at h
  | ok n =>
    have := blockLength_bounds hb
    simp [hb, locate, Except.map] at h
    omega

/-- Puts findings in front of those of what follows. -/
def prepend (found : List Finding) (rest : Nat × List Finding) : Nat × List Finding :=
  (rest.1, found ++ rest.2)

/-- The bytes from `pos` up to `stop`. -/
def slice (src : Bytes) (pos stop : Nat) : Bytes := (src.drop pos).take (stop - pos)

/-- The finding of a literal, if it is to be reported. -/
def reported (safe : Bool) (src : Bytes) (line pos stop : Nat) : List Finding :=
  if safe then [] else [⟨line, pos, slice src pos stop⟩]

/-- Scans from `pos` up to `stop`, the current statement having started at `statement` and the line of
    `pos` being `line`. -/
def scanRange (opts : LexOptions) (src : Bytes) (stop statement pos line : Nat) :
    Except Malformed (Nat × List Finding) :=
  match _hs : src.drop pos with
  | [] => .ok (line, [])
  | b :: s =>
    if stop ≤ pos then .ok (line, [])
    else if b = Byte.lineFeed then scanRange opts src stop statement (pos + 1) (line + 1)
    else if b = Byte.slash then
      match _hk : commentExtent src pos true with
      | .error e => .error e
      | .ok k => scanRange opts src stop statement k.stop (line + k.newlines)
    else if b = Byte.openBrace then
      match _hk : blockStop src pos with
      | .error e => .error e
      | .ok close =>
        match rangeHoldsAll src statement (pos - 1) opts.safeKeywords with
        | .error e => .error e
        | .ok true =>
          let passed := if opts.legacyLineDrift then 0 else newlines (slice src (pos + 1) close)
          scanRange opts src stop close close (line + passed)
        | .ok false =>
          match scanRange opts src (close - 1) (pos + 1) (pos + 1) line with
          | .error e => .error e
          | .ok (line, inner) => (scanRange opts src stop close close line).map (prepend inner)
    else if b = Byte.semicolon then scanRange opts src stop (pos + 1) (pos + 1) line
    else if Byte.isQuote b then
      match _hk : quotedExtent src pos true with
      | .error e => .error e
      | .ok k =>
        match rangeHoldsAll src statement k.stop opts.safeKeywords with
        | .error e => .error e
        | .ok safe =>
          (scanRange opts src stop statement k.stop (line + k.newlines)).map
            (prepend (reported safe src line pos k.stop))
    else if Byte.isDigit b then
      if isPartOfName b (leadOf (src.take pos)) || isSentinel b s then
        scanRange opts src stop statement (pos + nameLength s) line
      else
        match rangeHoldsAll src statement pos opts.safeKeywords with
        | .error e => .error e
        | .ok safe =>
          (scanRange opts src stop statement (pos + numberLength b s) line).map
            (prepend (reported safe src line pos (pos + numberLength b s)))
    else scanRange opts src stop statement (pos + 1) line
termination_by src.length - pos
decreasing_by
  all_goals
    have hlen := congrArg List.length _hs
    simp at hlen
  · omega
  · have := lt_of_commentExtent _hk
    omega
  · have := lt_of_blockStop _hs _hk
    omega
  · omega
  · have := lt_of_blockStop _hs _hk
    omega
  · omega
  · have := lt_of_quotedExtent _hs _hk
    omega
  · have := nameLength_pos s
    omega
  · have := numberLength_pos b s
    omega
  · omega

/-- The line at the end of a source and its magic literals. -/
def scanRecursive (opts : LexOptions) (src : Bytes) : Except Malformed (Nat × List Finding) :=
  scanRange opts src src.length 0 0 1

end MagicNumbers
