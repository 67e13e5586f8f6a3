/-
  A scan with a stack of scopes is a scan by recursion.

  Both scans go token by token; so each gets one equation for each role that a token may play, and the
  two are compared role by role.
-/
import MagicNumbers.Proofs.Steps
import MagicNumbers.Scan.Recursive

namespace MagicNumbers

/-! ## Extents of tokens -/

@[simp] theorem locate_ok (src : Bytes) (pos : Nat) {α : Type} (a : α) :
    locate src pos (.ok a) = .ok a := rfl

@[simp] theorem locate_error (src : Bytes) (pos : Nat) {α : Type} (e : Unclosed) :
    locate src pos (.error e : Except Unclosed α) = .error ((e.shift pos).inSource src) := rfl

/-- What was made of a length in the source was made of a length. -/
theorem map_locate_eq_ok_iff {src : Bytes} {pos : Nat} {α β : Type} {f : α → β}
    {r : Except Unclosed α} {y : β} :
    (locate src pos r).map f = .ok y ↔ ∃ a, r = .ok a ∧ f a = y := by
  cases r with
  | ok a => simp [Except.map]
  | error u => simp [Except.map]

/-- A failure that was placed in the source is one of lexing. -/
theorem map_locate_eq_error_iff {src : Bytes} {pos : Nat} {α β : Type} {f : α → β}
    {r : Except Unclosed α} {e : Malformed} :
    (locate src pos r).map f = .error e ↔ ∃ u, r = .error u ∧ e = (u.shift pos).inSource src := by
  cases r with
  | ok a => simp [Except.map]
  | error u => simp [Except.map, eq_comm]

theorem newlines_cons {b : UInt8} (hb : b ≠ Byte.lineFeed) (s : Bytes) :
    newlines (b :: s) = newlines s :=
  List.count_cons_of_ne hb

theorem slice_add (src : Bytes) (pos n : Nat) : slice src pos (pos + n) = (src.drop pos).take n := by
  rw [slice, Nat.add_sub_cancel_left]

/-- A comment counts its line ends; where none begins there is none to count. -/
theorem commentExtent_of_ok {src s : Bytes} {pos n : Nat} (hs : src.drop pos = Byte.slash :: s)
    (hn : commentLength (Byte.slash :: s) = .ok n) :
    commentExtent src pos true = .ok ⟨pos + n, newlines ((Byte.slash :: s).take n)⟩ := by
  rw [commentExtent, hs, hn]
  by_cases hone : n = 1
  · subst hone
    rfl
  · simp [Except.map, Extent.over, hs, hone]

theorem commentExtent_of_error {src s : Bytes} {pos : Nat} {e : Unclosed} (hs : src.drop pos = s)
    (he : commentLength s = .error e) (lines : Bool) :
    commentExtent src pos lines = .error ((e.shift pos).inSource src) := by
  rw [commentExtent, hs, he]
  rfl

theorem quotedExtent_of_ok {src s : Bytes} {pos n : Nat} (hs : src.drop pos = s)
    (hn : quotedLength s = .ok n) :
    quotedExtent src pos true = .ok ⟨pos + n, newlines (s.take n)⟩ := by
  rw [quotedExtent, hs, hn]
  simp [Except.map, Extent.over, hs]

theorem quotedExtent_of_error {src s : Bytes} {pos : Nat} {e : Unclosed} (hs : src.drop pos = s)
    (he : quotedLength s = .error e) (lines : Bool) :
    quotedExtent src pos lines = .error ((e.shift pos).inSource src) := by
  rw [quotedExtent, hs, he]
  rfl

theorem blockStop_of_ok {src s : Bytes} {pos n : Nat} (hs : src.drop pos = s)
    (hn : blockLength s = .ok n) : blockStop src pos = .ok (pos + n) := by
  rw [blockStop, hs, hn]
  rfl

theorem blockStop_of_error {src s : Bytes} {pos : Nat} {e : Unclosed} (hs : src.drop pos = s)
    (he : blockLength s = .error e) :
    blockStop src pos = .error ((e.shift pos).inSource src) := by
  rw [blockStop, hs, he]
  rfl

/-! ## The recursive scan, token by token -/

/-- What the recursive scan does when it has read the token `t` at `pos`. -/
def scanToken (opts : LexOptions) (src : Bytes) (stop statement pos line : Nat) (t : Token) :
    Except Malformed (Nat × List Finding) :=
  let next := pos + t.length
  let passed := newlines (slice src pos next)
  match t.kind with
  | .block =>
    match rangeHoldsAll src statement (pos - 1) opts.safeKeywords with
    | .error e => .error e
    | .ok true =>
      scanRange opts src stop next next (line + if opts.legacyLineDrift then 0 else passed)
    | .ok false =>
      match scanRange opts src (next - 1) (pos + 1) (pos + 1) line with
      | .error e => .error e
      | .ok (line, inner) => (scanRange opts src stop next next line).map (prepend inner)
  | .semicolon => scanRange opts src stop next next line
  | .quoted | .number =>
    match rangeHoldsAll src statement (t.bound pos) opts.safeKeywords with
    | .error e => .error e
    | .ok safe =>
      (scanRange opts src stop statement next (line + passed)).map
        (prepend (reported safe src line pos next))
  | .comment | .name | .other => scanRange opts src stop statement next (line + passed)

section

variable {opts : LexOptions} {src : Bytes} {stop statement pos line : Nat} {b : UInt8} {s : Bytes}

/-- At its end a range holds nothing more. -/
theorem scanRange_of_end (h : src.drop pos = [] ∨ stop ≤ pos) :
    scanRange opts src stop statement pos line = .ok (line, []) := by
  rw [scanRange]
  split
  · rfl
  · next hs =>
    rcases h with h | h
    · rw [hs] at h; cases h
    · rw [if_pos h]

/-- **The recursive scan goes token by token.** -/
theorem scanRange_of_token {t : Token} (hs : src.drop pos = b :: s) (hlt : pos < stop)
    (ht : Token.read (leadOf (src.take pos)) b s = .ok t) :
    scanRange opts src stop statement pos line = scanToken opts src stop statement pos line t := by
  have hpassed : ∀ n, newlines (slice src pos (pos + n)) = newlines ((b :: s).take n) := by
    intro n
    rw [slice_add, hs]
  rw [scanRange]
  split
  · next hs' => rw [hs] at hs'; cases hs'
  next b' s' hs' =>
  rw [hs] at hs'
  cases hs'
  rw [if_neg (by omega)]
  cases Token.reads_of_read ht with
  | @comment n hb hn =>
    subst hb
    rw [if_neg (by decide), if_pos rfl]
    split
    · next h => rw [commentExtent_of_ok hs hn] at h; cases h
    · next h =>
      rw [commentExtent_of_ok hs hn] at h
      cases h
      simp only [scanToken, hpassed]
  | @block n hb hn =>
    subst hb
    rw [if_neg (by decide), if_neg (by decide), if_pos rfl]
    split
    · next h => rw [blockStop_of_ok hs hn] at h; cases h
    · next h =>
      rw [blockStop_of_ok hs hn] at h
      cases h
      have hpos := (blockLength_bounds hn).1
      have hslice : newlines (slice src (pos + 1) (pos + n)) = newlines (slice src pos (pos + n)) := by
        rw [hpassed, show n = n - 1 + 1 by omega, List.take_succ_cons, newlines_cons (by decide),
          show pos + (n - 1 + 1) = pos + 1 + (n - 1) by omega, slice_add, ← List.drop_drop, hs,
          List.drop_succ_cons, List.drop_zero]
      exact hslice ▸ rfl
  | semicolon hb =>
    subst hb
    rw [if_neg (by decide), if_neg (by decide), if_neg (by decide), if_pos rfl]
    rfl
  | @quoted n hb hn =>
    rw [if_neg (Byte.ne_of_class hb (by decide)), if_neg (Byte.ne_of_class hb (by decide)),
      if_neg (Byte.ne_of_class hb (by decide)), if_neg (Byte.ne_of_class hb (by decide)), if_pos hb]
    split
    · next h => rw [quotedExtent_of_ok hs hn] at h; cases h
    · next h =>
      rw [quotedExtent_of_ok hs hn] at h
      cases h
      simp only [scanToken, hpassed]
      rfl
  | name hb hname =>
    have hplain := (plain_nameLength hb s).newlines_eq
    rw [if_neg (Byte.ne_of_class hb (by decide)), if_neg (Byte.ne_of_class hb (by decide)),
      if_neg (Byte.ne_of_class hb (by decide)), if_neg (Byte.ne_of_class hb (by decide)),
      if_neg (by simp [Byte.isQuote_of_isDigit hb]), if_pos hb, if_pos hname]
    simp only [scanToken, hpassed, hplain, Nat.add_zero]
  | number hb hname =>
    have hplain := (plain_numberLength hb s).newlines_eq
    rw [if_neg (Byte.ne_of_class hb (by decide)), if_neg (Byte.ne_of_class hb (by decide)),
      if_neg (Byte.ne_of_class hb (by decide)), if_neg (Byte.ne_of_class hb (by decide)),
      if_neg (by simp [Byte.isQuote_of_isDigit hb]), if_pos hb, if_neg (by simp [hname])]
    simp only [scanToken, hpassed, hplain, Nat.add_zero]
    rfl
  | other hslash hbrace hsemi hquote hdigit =>
    simp only [scanToken, hpassed]
    by_cases hb : b = Byte.lineFeed
    · subst hb
      rw [if_pos rfl]
      rfl
    · rw [if_neg hb, if_neg hslash, if_neg hbrace, if_neg hsemi, if_neg (by simp [hquote]),
        if_neg (by simp [hdigit]), List.take_succ_cons, newlines_cons hb]
      rfl

/-- What is passed over moves the recursive scan on. -/
theorem scanToken_of_skipped {t : Token} (hk : t.IsSkipped) :
    scanToken opts src stop statement pos line t =
      scanRange opts src stop statement (pos + t.length)
        (line + newlines ((src.drop pos).take t.length)) := by
  rw [← slice_add]
  rcases hk with hk | hk | hk <;> simp only [scanToken, hk]

theorem scanToken_of_semicolon {t : Token} (hk : t.kind = .semicolon) :
    scanToken opts src stop statement pos line t =
      scanRange opts src stop (pos + t.length) (pos + t.length) line := by
  simp only [scanToken, hk]

theorem scanToken_of_literal {t : Token} (hk : t.IsLiteral) :
    scanToken opts src stop statement pos line t =
      match rangeHoldsAll src statement (t.bound pos) opts.safeKeywords with
      | .error e => .error e
      | .ok safe =>
        (scanRange opts src stop statement (pos + t.length)
          (line + newlines ((src.drop pos).take t.length))).map
          (prepend (reported safe src line pos (pos + t.length))) := by
  rw [← slice_add]
  rcases hk with hk | hk <;> simp only [scanToken, hk]

theorem scanToken_of_block {t : Token} (hk : t.kind = .block) :
    scanToken opts src stop statement pos line t =
      match rangeHoldsAll src statement (pos - 1) opts.safeKeywords with
      | .error e => .error e
      | .ok true =>
        scanRange opts src stop (pos + t.length) (pos + t.length)
          (line + if opts.legacyLineDrift then 0 else newlines ((src.drop pos).take t.length))
      | .ok false =>
        match scanRange opts src (pos + t.length - 1) (pos + 1) (pos + 1) line with
        | .error e => .error e
        | .ok (line, inner) =>
          (scanRange opts src stop (pos + t.length) (pos + t.length) line).map (prepend inner) := by
  rw [← slice_add]
  simp only [scanToken, hk]

/-- What is put in front of the findings is there whenever there are any. -/
theorem eq_ok_of_map_prepend {r : Except Malformed (Nat × List Finding)} {new found : List Finding}
    {last : Nat} (h : r.map (prepend new) = .ok (last, found)) :
    ∃ rest, r = .ok (last, rest) ∧ found = new ++ rest := by
  cases r with
  | error e => cases h
  | ok r =>
    cases h
    exact ⟨r.2, rfl, rfl⟩

/-- A literal that is passed has an answer, and what follows it is scanned. -/
theorem scanToken_literal_ok {t : Token} {last : Nat} {found : List Finding} (hk : t.IsLiteral)
    (h : scanToken opts src stop statement pos line t = .ok (last, found)) :
    ∃ safe rest, rangeHoldsAll src statement (t.bound pos) opts.safeKeywords = .ok safe ∧
      scanRange opts src stop statement (pos + t.length)
        (line + newlines ((src.drop pos).take t.length)) = .ok (last, rest) ∧
      found = reported safe src line pos (pos + t.length) ++ rest := by
  rw [scanToken_of_literal hk] at h
  split at h
  · cases h
  · next safe hsafe =>
    obtain ⟨rest, hrest, hfound⟩ := eq_ok_of_map_prepend h
    exact ⟨safe, rest, hsafe, hrest, hfound⟩

/-- A block that is passed is that of a constant, or it is scanned before what follows it. -/
theorem scanToken_block_ok {t : Token} {last : Nat} {found : List Finding} (hk : t.kind = .block)
    (h : scanToken opts src stop statement pos line t = .ok (last, found)) :
    (rangeHoldsAll src statement (pos - 1) opts.safeKeywords = .ok true ∧
      scanRange opts src stop (pos + t.length) (pos + t.length)
        (line + if opts.legacyLineDrift then 0 else newlines ((src.drop pos).take t.length)) =
        .ok (last, found)) ∨
    (rangeHoldsAll src statement (pos - 1) opts.safeKeywords = .ok false ∧
      ∃ between inner rest,
        scanRange opts src (pos + t.length - 1) (pos + 1) (pos + 1) line = .ok (between, inner) ∧
        scanRange opts src stop (pos + t.length) (pos + t.length) between = .ok (last, rest) ∧
        found = inner ++ rest) := by
  rw [scanToken_of_block hk] at h
  split at h
  · cases h
  · next hsafe => exact .inl ⟨hsafe, h⟩
  · next hsafe =>
    split at h
    · cases h
    · next between inner hinner =>
      obtain ⟨rest, hrest, hfound⟩ := eq_ok_of_map_prepend h
      exact .inr ⟨hsafe, between, inner, rest, hinner, hrest, hfound⟩

/-- What is unclosed ends the recursive scan. -/
theorem scanRange_of_error {e : Unclosed} (hs : src.drop pos = b :: s) (hlt : pos < stop)
    (ht : Token.read (leadOf (src.take pos)) b s = .error e) :
    scanRange opts src stop statement pos line = .error ((e.shift pos).inSource src) := by
  rw [scanRange]
  split
  · next hs' => rw [hs] at hs'; cases hs'
  next b' s' hs' =>
  rw [hs] at hs'
  cases hs'
  rw [if_neg (by omega)]
  rcases Token.unclosed_of_read ht with ⟨hb, he⟩ | ⟨hb, he⟩ | ⟨hb, he⟩
  · subst hb
    rw [if_neg (by decide), if_pos rfl]
    split
    · next h => rw [commentExtent_of_error hs he] at h; cases h; rfl
    · next h => rw [commentExtent_of_error hs he] at h; cases h
  · subst hb
    rw [if_neg (by decide), if_neg (by decide), if_pos rfl]
    split
    · next h => rw [blockStop_of_error hs he] at h; cases h; rfl
    · next h => rw [blockStop_of_error hs he] at h; cases h
  · rw [if_neg (Byte.ne_of_class hb (by decide)), if_neg (Byte.ne_of_class hb (by decide)),
      if_neg (Byte.ne_of_class hb (by decide)), if_neg (Byte.ne_of_class hb (by decide)), if_pos hb]
    split
    · next h => rw [quotedExtent_of_error hs he] at h; cases h; rfl
    · next h => rw [quotedExtent_of_error hs he] at h; cases h

/-- A range that can be scanned is at its end, or its next token is taken. -/
theorem scanRange_ok {last : Nat} {found : List Finding}
    (h : scanRange opts src stop statement pos line = .ok (last, found)) :
    ((src.drop pos = [] ∨ stop ≤ pos) ∧ last = line ∧ found = []) ∨
    ∃ b s t, src.drop pos = b :: s ∧ pos < stop ∧
      Token.read (leadOf (src.take pos)) b s = .ok t ∧
      scanToken opts src stop statement pos line t = .ok (last, found) := by
  by_cases hend : src.drop pos = [] ∨ stop ≤ pos
  · rw [scanRange_of_end hend] at h
    cases h
    exact .inl ⟨hend, rfl, rfl⟩
  obtain ⟨hne, hle⟩ := not_or.1 hend
  obtain ⟨b, s, hs⟩ := List.exists_cons_of_ne_nil hne
  have hlt : pos < stop := Nat.lt_of_not_le hle
  cases ht : Token.read (leadOf (src.take pos)) b s with
  | error e =>
    rw [scanRange_of_error hs hlt ht] at h
    cases h
  | ok t =>
    rw [scanRange_of_token hs hlt ht] at h
    exact .inr ⟨b, s, t, hs, hlt, ht, h⟩

end

/-! ## The stack and the recursion -/

/-- Question and answer in terms of positions. -/
theorem Frame.IsAt.locate_ask {opts : LexOptions} {src : Bytes} {start pos : Nat} {frame : Frame}
    (h : frame.IsAt opts src start pos) (bound : Nat) :
    locate src 0 (frame.statement.ask bound).1 =
      rangeHoldsAll src start bound opts.safeKeywords := by
  rw [Statement.ask_eq h.knows, h.start, rangeHoldsAll]

/-- From `pos` on, the innermost scope is scanned to its end as by recursion, and then the scopes around
    it go on. -/
def RunsAsRange (opts : LexOptions) (src : Bytes) (pos : Nat) : Prop :=
  ∀ ⦃start : Nat⦄ ⦃frame : Frame⦄ (line : Nat) (below : List Frame) (found : Array Finding),
    frame.IsAt opts src start pos →
    locate src 0 (ScanState.run opts ⟨frame :: below, line, found⟩) =
      match scanRange opts src frame.stop start pos line with
      | .error e => .error e
      | .ok (line, new) => locate src 0 (ScanState.run opts ⟨below, line, found ++ new⟩)

section

variable {opts : LexOptions} {src : Bytes} {start pos : Nat} {frame : Frame} {t : Token}

/-- A literal is taken as by recursion, if what follows it is. -/
theorem RunsAsRange.literal (hnext : RunsAsRange opts src (pos + t.length)) (line : Nat)
    (below : List Frame) (found : Array Finding) (h : frame.IsAt opts src start pos)
    (hk : t.IsLiteral) :
    locate src 0
        (match ScanState.takeLiteral ⟨frame :: below, line, found⟩ frame below t.length
          (t.bound frame.cursor.offset) with
        | .ok st => ScanState.run opts st
        | .error e => .error e) =
      match scanToken opts src frame.stop start pos line t with
      | .error e => .error e
      | .ok (line, new) => locate src 0 (ScanState.run opts ⟨below, line, found ++ new⟩) := by
  rw [scanToken_of_literal hk, ← h.locate_ask, h.offset_eq]
  cases ha : (frame.statement.ask (t.bound pos)).1 with
  | error e => rw [ScanState.takeLiteral_of_error ha]; rfl
  | ok safe =>
    obtain ⟨hknows, hstart⟩ := Statement.ask_knows h.knows (t.bound pos)
    rw [ScanState.takeLiteral_of_ok ha, h.rest_eq, h.offset_eq]
    simp only [locate_ok]
    rw [hnext _ below _ ⟨h.advance t.length, hstart.trans h.start, hknows⟩]
    cases hrec : scanRange opts src frame.stop start (pos + t.length)
        (line + newlines ((src.drop pos).take t.length)) with
    | error e => rfl
    | ok r => cases safe <;> simp [Except.map, prepend, reported, slice_add]

/-- A block is taken as by recursion, if what is in it and what follows it are. -/
theorem RunsAsRange.block (hfirst : RunsAsRange opts src (pos + 1))
    (hnext : RunsAsRange opts src (pos + t.length)) (line : Nat) (below : List Frame)
    (found : Array Finding) (h : frame.IsAt opts src start pos) (hk : t.kind = .block) :
    locate src 0
        (match ScanState.takeBlock opts ⟨frame :: below, line, found⟩ frame below t.length with
        | .ok st => ScanState.run opts st
        | .error e => .error e) =
      match scanToken opts src frame.stop start pos line t with
      | .error e => .error e
      | .ok (line, new) => locate src 0 (ScanState.run opts ⟨below, line, found ++ new⟩) := by
  have hafter := Frame.isAt_enter opts src (pos + t.length) frame.stop
  rw [scanToken_of_block hk, ← h.locate_ask, ← h.offset_eq]
  cases ha : (frame.statement.ask (frame.cursor.offset - 1)).1 with
  | error e => rw [ScanState.takeBlock_of_error ha]; rfl
  | ok safe =>
    cases safe with
    | true =>
      rw [ScanState.takeBlock_of_safe ha, h.offset_eq, h.advance, h.rest_eq]
      exact hnext _ below found hafter
    | false =>
      -- the block first, and then what follows it
      rw [ScanState.takeBlock_of_not_safe ha, h.offset_eq, h.advance, h.advance]
      simp only [locate_ok]
      rw [hfirst line _ found (Frame.isAt_enter _ _ _ _), Frame.stop_enter]
      cases hinner : scanRange opts src (pos + t.length - 1) (pos + 1) (pos + 1) line with
      | error e => rfl
      | ok inner =>
        simp only
        rw [hnext _ below _ hafter, Frame.stop_enter]
        cases hrec : scanRange opts src frame.stop (pos + t.length) (pos + t.length) inner.1 with
        | error e => rfl
        | ok r =>
          have happend : found ++ inner.2 ++ r.2 = found ++ (inner.2 ++ r.2) :=
            Array.ext' (by simp)
          simp only [Except.map, prepend, happend]

end

/-- **The innermost scope is scanned to its end as by recursion, and then the scopes around it go on.** -/
theorem runsAsRange (opts : LexOptions) (src : Bytes) (pos : Nat) : RunsAsRange opts src pos := by
  induction hn : src.length - pos using Nat.strongRecOn generalizing pos with
  | _ n ih =>
  subst hn
  intro start frame line below found h
  rw [ScanState.run_cons]
  by_cases hend : src.drop pos = [] ∨ frame.stop ≤ pos
  · have hend' : frame.cursor.rest = [] ∨ frame.stop ≤ frame.cursor.offset := by
      rw [h.rest_eq, h.offset_eq]
      exact hend
    rw [ScanState.step_of_end hend', scanRange_of_end hend]
    simp
  obtain ⟨hne, hle⟩ := not_or.1 hend
  obtain ⟨b, s, hs⟩ := List.exists_cons_of_ne_nil hne
  have hlt : pos < frame.stop := Nat.lt_of_not_le hle
  have hlt' : frame.cursor.offset < frame.stop := by rw [h.offset_eq]; exact hlt
  have hr : frame.cursor.rest = b :: s := h.rest_eq.trans hs
  have hlen : src.length - pos = s.length + 1 := by
    have := congrArg List.length hs
    rwa [List.length_drop, List.length_cons] at this
  -- what is further on in the source is known to be scanned alike
  have later : ∀ n, 0 < n → RunsAsRange opts src (pos + n) := fun n hpos =>
    ih (src.length - (pos + n)) (by omega) (pos + n) rfl
  cases ht : Token.read (leadOf (src.take pos)) b s with
  | error e =>
    have ht' : Token.read frame.cursor.lead b s = .error e := by rw [h.lead_eq]; exact ht
    rw [ScanState.step_of_error hr hlt' ht', scanRange_of_error hs hlt ht, h.offset_eq]
    simp
  | ok t =>
    have hpos := (Token.read_bounds ht).1
    have ht' : Token.read frame.cursor.lead b s = .ok t := by rw [h.lead_eq]; exact ht
    have hnext := later t.length hpos
    rw [scanRange_of_token hs hlt ht]
    rcases t.role with hk | hk | hk | hk
    · rw [ScanState.step_of_skipped hr hlt' ht' hk, scanToken_of_skipped hk, h.rest_eq]
      exact hnext _ below found ⟨h.advance t.length, h.start, h.knows⟩
    · rw [ScanState.step_of_semicolon hr hlt' ht' hk, scanToken_of_semicolon hk, h.advance]
      exact hnext _ below found (Frame.isAt_enter _ _ _ _)
    · rw [ScanState.step_of_literal hr hlt' ht' hk]
      exact hnext.literal line below found h hk
    · rw [ScanState.step_of_block hr hlt' ht' hk]
      exact (later 1 Nat.one_pos).block hnext line below found h hk

/-- The line and the findings that a run from the start of a source ends with are those of the recursion
    over the whole source. -/
theorem locate_run_start (opts : LexOptions) (src : Bytes) :
    locate src 0 (((ScanState.start opts src).run opts).map fun st => (st.line, st.found.toList)) =
      scanRange opts src src.length 0 0 1 := by
  have hstart : Cursor.ofOffset src 0 = Cursor.start src := Cursor.advance_zero _
  have hst : ScanState.start opts src = ⟨[.enter opts (.ofOffset src 0) src.length], 1, #[]⟩ := by
    rw [hstart]
    rfl
  have hrun := runsAsRange opts src 0 1 [] #[] (Frame.isAt_enter opts src 0 src.length)
  rw [← hst, Frame.stop_enter] at hrun
  cases hrec : scanRange opts src src.length 0 0 1 with
  | error e =>
    rw [hrec] at hrun
    cases h : (ScanState.start opts src).run opts with
    | error e' => rw [h] at hrun; simpa [Except.map] using hrun
    | ok st => rw [h] at hrun; cases hrun
  | ok r =>
    rw [hrec] at hrun
    cases h : (ScanState.start opts src).run opts with
    | error e' => rw [h] at hrun; simp [ScanState.run_nil] at hrun
    | ok st =>
      rw [h] at hrun
      simp only [ScanState.run_nil, locate_ok, Except.ok.injEq] at hrun
      simp [hrun, Except.map]

/-- A scan has the findings of the recursion, and its failures. -/
theorem scan_eq_scanRange (opts : LexOptions) (src : Bytes) :
    scan opts src = (scanRange opts src src.length 0 0 1).map (·.2) := by
  rw [← locate_run_start, scan]
  cases (ScanState.start opts src).run opts with
  | error e => rfl
  | ok st => rfl

/-- **A scan with a stack and remembered searches is the plain recursive scan.**  Whether a source can be
    scanned, what is unclosed in it, the findings in their order and the line at the end are all those
    of the recursion, which keeps no stack and asks every question afresh. -/
theorem scan_eq_scanRecursive (opts : LexOptions) (src : Bytes) :
    scan opts src = (scanRecursive opts src).map (·.2) ∧
    locate src 0 (((ScanState.start opts src).run opts).map fun st => (st.line, st.found.toList)) =
      scanRecursive opts src :=
  ⟨scan_eq_scanRange opts src, locate_run_start opts src⟩

end MagicNumbers
