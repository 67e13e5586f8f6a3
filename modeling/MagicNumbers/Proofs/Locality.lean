/-
  Scopes by themselves.

  A block that is a scope of its own is scanned where it is: what precedes its brace and what follows
  it can be read as well, and nothing is cut out.  All the same the scope finds what a scan of the text
  between the braces finds, for nothing that begins in a block is read past the brace that closes it.

  * `Surroundings.Encloses` — a text lies in a larger one, and a brace follows it.
  * `Surroundings.Encloses.token`, `.answer` — up to the brace that closes the text, both texts have
    the same tokens, and statements have the same answers.
  * `Surroundings.Encloses.scansAlike` — so the text is scanned in the larger one as it is alone.
  * `found_in_block` — what a scan finds between the braces of a scope is what a scan of the text
    between them finds.
-/
import MagicNumbers.Proofs.Composition
import MagicNumbers.Proofs.Nesting
import MagicNumbers.Proofs.Order

namespace MagicNumbers

/-! ## A text before a brace -/

/-- The text lies in a larger one, and a brace follows it. -/
structure Surroundings.Encloses (w : Surroundings) (src body : Bytes) : Prop where
  place : ∀ {pos : Nat}, pos ≤ body.length →
    Cursor.ofOffset src (w.offset + pos) = (Cursor.ofOffset body pos).within w
  brace : ∃ more, w.after = Byte.closeBrace :: more

/-- The token `t` is the next one at a place of the text and at the same place of the larger one. -/
structure Surroundings.Shares (w : Surroundings) (src body : Bytes) (pos : Nat) (b : UInt8) (s : Bytes)
    (t : Token) : Prop where
  rest : body.drop pos = b :: s
  read : Token.read (leadOf (body.take pos)) b s = .ok t
  rest_within : src.drop (w.offset + pos) = b :: (s ++ w.after)
  read_within : Token.read (leadOf (src.take (w.offset + pos))) b (s ++ w.after) = .ok t

section

variable {w : Surroundings} {src body : Bytes}

/-- **Up to the brace that closes the text, both texts have the same tokens.** -/
theorem Surroundings.Encloses.token (h : w.Encloses src body) {stop pos : Nat}
    (hstop : stop ≤ body.length)
    (hclose : (Cursor.ofOffset src (w.offset + pos)).ClosesAt (w.offset + stop)) :
    pos = stop ∨ pos < stop ∧ ∃ b s t, w.Shares src body pos b s t ∧
      (Cursor.ofOffset src (w.offset + (pos + t.length))).ClosesAt (w.offset + stop) := by
  have hle := hclose.offset_le
  rw [Cursor.offset_ofOffset] at hle
  have hplace := h.place (show pos ≤ body.length by omega)
  have hlead := congrArg Cursor.lead hplace
  have hrest := congrArg Cursor.rest hplace
  rw [Cursor.lead_within, Cursor.lead_ofOffset, Cursor.lead_ofOffset] at hlead
  rw [Cursor.rest_within, Cursor.rest_ofOffset, Cursor.rest_ofOffset] at hrest
  obtain ⟨b, l, hr, hcase⟩ := hclose.token
  rw [Cursor.offset_ofOffset, Cursor.lead_ofOffset] at hcase
  rw [Cursor.rest_ofOffset, hrest] at hr
  rcases hcase with ⟨heq, -⟩ | ⟨hlt, t, ht, hafter⟩
  · left
    omega
  · right
    rw [Cursor.advance_ofOffset, Nat.add_assoc] at hafter
    have hend := hafter.offset_le
    rw [Cursor.offset_ofOffset] at hend
    obtain ⟨s, hs, rfl⟩ := cons_of_append hr (by rw [List.length_drop]; omega)
    have hlen := congrArg List.length hs
    rw [List.length_drop, List.length_cons] at hlen
    refine ⟨by omega, b, s, t, ⟨hs, ?_, ?_, ht⟩, hafter⟩
    · -- the token ends before the brace, so it is read without it
      obtain ⟨more, hmore⟩ := h.brace
      rw [hlead, hmore] at ht
      exact Token.read_of_append (by decide) ht (by omega)
    · rw [hrest, hs, List.cons_append]

/-- A walk to a place that is not behind the text starts in the text, and behind the text no name goes
    on. -/
theorem Surroundings.Encloses.reach (h : w.Encloses src body) {start : Nat} {c : Cursor}
    (hwalk : Walk (.ofOffset src (w.offset + start)) c) (hc : c.offset ≤ w.offset + body.length) :
    start ≤ body.length ∧ w.Reach (.ofOffset body start) c := by
  obtain ⟨more, hmore⟩ := h.brace
  have hle := hwalk.offset_le
  rw [Cursor.offset_ofOffset] at hle
  refine ⟨by omega, ?_, ?_⟩
  · rw [Cursor.offset_ofOffset, Cursor.rest_ofOffset, List.length_drop]
    omega
  · rw [hmore]
    exact .inl rfl

/-- **A statement of the text has the same answer in both texts**, if a walk in the larger one has passed
    what it is asked for. -/
theorem Surroundings.Encloses.answer (h : w.Encloses src body) {start bound : Nat} {c : Cursor}
    (hwalk : Walk (.ofOffset src (w.offset + start)) c) (hc : c.offset ≤ w.offset + body.length)
    (hbound : w.offset + bound ≤ c.offset) (words : List Bytes) :
    ∃ safe, rangeHoldsAll body start bound words = .ok safe ∧
      rangeHoldsAll src (w.offset + start) (w.offset + bound) words = .ok safe := by
  obtain ⟨safe, hsafe⟩ := hwalk.holdsAll_ok hbound words
  obtain ⟨hstart, hreach⟩ := h.reach hwalk hc
  rw [h.place hstart] at hwalk hsafe
  refine ⟨safe, ?_, ?_⟩
  · rw [rangeHoldsAll, ← hwalk.holdsAll_within hreach hbound, hsafe, locate_ok]
  · rw [rangeHoldsAll, h.place hstart, hsafe, locate_ok]

/-- So it has about the header of a block. -/
theorem Surroundings.Encloses.answer_header (h : w.Encloses src body) {start pos : Nat}
    (hwalk : Walk (.ofOffset src (w.offset + start)) (.ofOffset src (w.offset + pos)))
    (hpos : pos ≤ body.length) (words : List Bytes) :
    ∃ safe, rangeHoldsAll body start (pos - 1) words = .ok safe ∧
      rangeHoldsAll src (w.offset + start) (w.offset + pos - 1) words = .ok safe := by
  have hoffset := Cursor.offset_ofOffset src (w.offset + pos)
  have hbound : w.offset + pos - 1 ≤ (Cursor.ofOffset src (w.offset + pos)).offset := by omega
  obtain ⟨safe, hsafe⟩ := hwalk.holdsAll_ok hbound words
  obtain ⟨hstart, hreach⟩ := h.reach hwalk (by omega)
  rw [h.place hstart] at hwalk hsafe
  refine ⟨safe, ?_, ?_⟩
  · rw [rangeHoldsAll, ← hwalk.holdsAll_header_within hreach hoffset, hsafe, locate_ok]
  · rw [rangeHoldsAll, h.place hstart, hsafe, locate_ok]

end

/-! ## Scanning the text -/

/-- The scan of the text succeeds, and the scan of the larger text finds the same. -/
def Surroundings.Alike (w : Surroundings) (r r' : Except Malformed (Nat × List Finding)) : Prop :=
  ∃ last found, r = .ok (last, found) ∧ r' = .ok (last + w.line, found.map (Finding.within w))

/-- From a place of the text up to another, the text is scanned in the larger one as it is alone. -/
def Surroundings.ScansAlike (w : Surroundings) (opts : LexOptions) (src body : Bytes)
    (stop start pos : Nat) : Prop :=
  ∀ line, w.Alike (scanRange opts body stop start pos line)
    (scanRange opts src (w.offset + stop) (w.offset + start) (w.offset + pos) (line + w.line))

/-- What both scans find before they go on may be put in front. -/
theorem Surroundings.Alike.prepend {w : Surroundings} {r r' : Except Malformed (Nat × List Finding)}
    (h : w.Alike r r') {found found' : List Finding} (hfound : found' = found.map (Finding.within w)) :
    w.Alike (r.map (prepend found)) (r'.map (MagicNumbers.prepend found')) := by
  obtain ⟨last, new, rfl, rfl⟩ := h
  refine ⟨last, found ++ new, rfl, ?_⟩
  rw [hfound, List.map_append]
  rfl

section

variable {opts : LexOptions} {w : Surroundings} {src body : Bytes} {stop start pos : Nat} {b : UInt8}
  {s : Bytes} {t : Token}

/-- The bytes of a token of the text are the same in both. -/
theorem Surroundings.Shares.take_eq (h : w.Shares src body pos b s t) :
    (src.drop (w.offset + pos)).take t.length = (body.drop pos).take t.length := by
  rw [h.rest, h.rest_within, ← List.cons_append]
  exact List.take_append_of_le_length (Token.read_bounds h.read).2

/-- A literal of the text is reported in both scans or in none. -/
theorem Surroundings.Shares.reported_within (h : w.Shares src body pos b s t) (safe : Bool)
    (line : Nat) :
    reported safe src (line + w.line) (w.offset + pos) (w.offset + pos + t.length) =
      (reported safe body line pos (pos + t.length)).map (Finding.within w) := by
  cases safe with
  | true => rfl
  | false =>
    rw [reported, reported, slice_add, slice_add, h.take_eq]
    show [_] = [Finding.within w _]
    rw [Finding.within, Nat.add_comm w.offset]

/-- A literal is taken alike, if what follows it is scanned alike. -/
theorem Surroundings.Shares.literal (h : w.Shares src body pos b s t) (hk : t.IsLiteral)
    (hnext : w.ScansAlike opts src body stop start (pos + t.length)) {safe : Bool}
    (hsafe : rangeHoldsAll body start (t.bound pos) opts.safeKeywords = .ok safe)
    (hsafe' : rangeHoldsAll src (w.offset + start) (w.offset + t.bound pos) opts.safeKeywords =
      .ok safe) (line : Nat) :
    w.Alike (scanToken opts body stop start pos line t)
      (scanToken opts src (w.offset + stop) (w.offset + start) (w.offset + pos) (line + w.line) t) := by
  have hnext := hnext (line + newlines ((body.drop pos).take t.length))
  rw [← Nat.add_assoc, Nat.add_right_comm line] at hnext
  rw [scanToken_of_literal hk, scanToken_of_literal hk, Token.bound_add, hsafe, hsafe', h.take_eq]
  exact hnext.prepend (h.reported_within safe line)

/-- A block is taken alike, if what is in it and what follows it are scanned alike. -/
theorem Surroundings.Shares.block (h : w.Shares src body pos b s t) (hk : t.kind = .block)
    (hinner : w.ScansAlike opts src body (pos + t.length - 1) (pos + 1) (pos + 1))
    (hnext : w.ScansAlike opts src body stop (pos + t.length) (pos + t.length)) {safe : Bool}
    (hsafe : rangeHoldsAll body start (pos - 1) opts.safeKeywords = .ok safe)
    (hsafe' : rangeHoldsAll src (w.offset + start) (w.offset + pos - 1) opts.safeKeywords = .ok safe)
    (line : Nat) :
    w.Alike (scanToken opts body stop start pos line t)
      (scanToken opts src (w.offset + stop) (w.offset + start) (w.offset + pos) (line + w.line) t) := by
  have hpos := (Token.read_bounds h.read).1
  rw [scanToken_of_block hk, scanToken_of_block hk, hsafe, hsafe', h.take_eq]
  cases safe with
  | true =>
    have hnext := hnext
      (line + if opts.legacyLineDrift then 0 else newlines ((body.drop pos).take t.length))
    rw [← Nat.add_assoc, Nat.add_right_comm line] at hnext
    exact hnext
  | false =>
    obtain ⟨last, found, hfound, hfound'⟩ := hinner line
    rw [← Nat.add_assoc, show w.offset + (pos + t.length - 1) = w.offset + pos + t.length - 1 by
      omega] at hfound'
    have hnext := hnext last
    rw [← Nat.add_assoc] at hnext
    simp only [hfound, hfound']
    exact hnext.prepend rfl

end

/-- **Up to the brace that closes it, the text is scanned in the larger one as it is alone.** -/
theorem Surroundings.Encloses.scansAlike {opts : LexOptions} {w : Surroundings} {src body : Bytes}
    (h : w.Encloses src body) {stop start pos : Nat} (hstop : stop ≤ body.length)
    (hclose : (Cursor.ofOffset src (w.offset + pos)).ClosesAt (w.offset + stop))
    (hwalk : Walk (.ofOffset src (w.offset + start)) (.ofOffset src (w.offset + pos))) :
    w.ScansAlike opts src body stop start pos := by
  induction hn : stop - pos using Nat.strongRecOn generalizing stop start pos with
  | _ n ih =>
  subst hn
  intro line
  rcases h.token hstop hclose with rfl | ⟨hlt, b, s, t, ht, hafter⟩
  · refine ⟨line, [], ?_, ?_⟩
    · exact scanRange_of_end (.inr (Nat.le_refl _))
    · exact scanRange_of_end (.inr (Nat.le_refl _))
  have hcur : (Cursor.ofOffset src (w.offset + pos)).rest = b :: (s ++ w.after) := by
    rw [Cursor.rest_ofOffset, ht.rest_within]
  have hread : Token.read (Cursor.ofOffset src (w.offset + pos)).lead b (s ++ w.after) = .ok t := by
    rw [Cursor.lead_ofOffset, ht.read_within]
  have hpos := (Token.read_bounds ht.read).1
  have hend := hafter.offset_le
  rw [Cursor.offset_ofOffset] at hend
  -- behind the token the statement goes on, unless a new one starts there
  have passed : t.kind ≠ .block → Walk (.ofOffset src (w.offset + start))
      (.ofOffset src (w.offset + (pos + t.length))) := by
    intro hk
    rw [← Nat.add_assoc w.offset, ← Cursor.advance_ofOffset _ (w.offset + pos)]
    exact hwalk.trans (.of_token hcur hread hk)
  have onward : t.kind ≠ .block → w.ScansAlike opts src body stop start (pos + t.length) :=
    fun hk => ih _ (by omega) hstop hafter (passed hk) rfl
  have fresh : w.ScansAlike opts src body stop (pos + t.length) (pos + t.length) :=
    ih _ (by omega) hstop hafter (.refl _) rfl
  rw [scanRange_of_token ht.rest hlt ht.read,
    scanRange_of_token ht.rest_within (by omega) ht.read_within]
  rcases t.role with hk | hk | hk | hk
  · have hnext := onward hk.ne_block (line + newlines ((body.drop pos).take t.length))
    rw [← Nat.add_assoc, Nat.add_right_comm line] at hnext
    rw [scanToken_of_skipped hk, scanToken_of_skipped hk, ht.take_eq]
    exact hnext
  · have hnext := fresh line
    rw [← Nat.add_assoc] at hnext
    rw [scanToken_of_semicolon hk, scanToken_of_semicolon hk]
    exact hnext
  · have hoffset := Cursor.offset_ofOffset src (w.offset + (pos + t.length))
    have hbound : w.offset + t.bound pos ≤ w.offset + (pos + t.length) :=
      Nat.add_le_add_left (t.bound_le pos) _
    obtain ⟨safe, hsafe, hsafe'⟩ := h.answer (passed hk.ne_block) (by omega) (hoffset.symm ▸ hbound)
      opts.safeKeywords
    exact ht.literal hk (onward hk.ne_block) hsafe hsafe' line
  · obtain ⟨safe, hsafe, hsafe'⟩ := h.answer_header hwalk (by omega) opts.safeKeywords
    -- the block is closed by its last byte
    have hinner := Cursor.closesAt_of_block hcur (Token.blockLength_of_read hread hk)
    rw [Cursor.advance_ofOffset, Cursor.offset_ofOffset, Nat.add_assoc,
      show w.offset + pos + t.length - 1 = w.offset + (pos + t.length - 1) by omega] at hinner
    exact ht.block hk (ih _ (by omega) (by omega) hinner (.refl _) rfl) fresh hsafe hsafe' line

/-! ## Scopes in the source -/

/-- Behind a break a name begins as it does at the start of a text. -/
theorem EndsInBreak.leadOf_append {s : Bytes} (h : EndsInBreak s) (more : Bytes) :
    leadOf (s ++ more) = leadOf more :=
  MagicNumbers.leadOf_append h.leadOf_eq more

/-- **What is between the braces of a block lies in the source**, before the brace that closes it. -/
theorem Surroundings.encloses_block {src : Bytes} {brace stop : Nat}
    (hopen : src[brace]? = some Byte.openBrace) (hclose : src[stop]? = some Byte.closeBrace)
    (hlt : brace < stop) (line : Nat) :
    (Surroundings.mk (brace + 1) line [] (src.drop stop)).Encloses src
      (slice src (brace + 1) stop) := by
  have hlen := (List.getElem?_eq_some_iff.1 hclose).1
  constructor
  · intro pos hle
    have hpos := hle
    rw [slice, List.length_take, List.length_drop] at hpos
    have hbreak : EndsInBreak (src.take (brace + 1)) := by
      refine ⟨src.take brace, Byte.openBrace, by decide, ?_⟩
      rw [List.take_add_one, hopen]
      rfl
    have hlead : leadOf (src.take (brace + 1 + pos)) =
        leadOf ((slice src (brace + 1) stop).take pos) := by
      rw [List.take_add, hbreak.leadOf_append, slice, List.take_take, Nat.min_eq_left (by omega)]
    have hdrop : src.drop stop = (src.drop (brace + 1)).drop (stop - (brace + 1)) := by
      rw [List.drop_drop, show brace + 1 + (stop - (brace + 1)) = stop by omega]
    have hrest : src.drop (brace + 1 + pos) =
        (slice src (brace + 1) stop).drop pos ++ src.drop stop := by
      rw [← List.drop_append_of_le_length hle, hdrop, slice, List.take_append_drop, List.drop_drop]
    rw [Cursor.ofOffset_eq, Cursor.ofOffset_eq, Cursor.within, hlead, hrest]
  · rw [← List.head?_drop] at hclose
    obtain ⟨more, hmore⟩ := List.head?_eq_some_iff.1 hclose
    exact ⟨more, hmore⟩

/-- **Between the braces of a block, the recursive scan finds what a scan of the text between them
    finds.** -/
theorem scanRange_inside {src : Bytes} {brace stop line : Nat} (opts : LexOptions)
    (hopen : src[brace]? = some Byte.openBrace)
    (hclose : (Cursor.ofOffset src (brace + 1)).ClosesAt stop) (hline : 0 < line) :
    ∃ last inner, scan opts (slice src (brace + 1) stop) = .ok inner ∧
      (∀ f ∈ inner, f.offset < stop - (brace + 1)) ∧
      scanRange opts src stop (brace + 1) (brace + 1) line =
        .ok (last, inner.map fun f => ⟨f.line + (line - 1), f.offset + (brace + 1), f.bytes⟩) := by
  have hle := hclose.offset_le
  rw [Cursor.offset_ofOffset] at hle
  have hbrace : src[stop]? = some Byte.closeBrace :=
    (Frame.lies_enter opts src (brace + 1) stop).closeBrace hclose
  have hlen : (slice src (brace + 1) stop).length = stop - (brace + 1) := by
    have hlt := (List.getElem?_eq_some_iff.1 hbrace).1
    rw [slice, List.length_take, List.length_drop]
    omega
  have hstop : brace + 1 + (slice src (brace + 1) stop).length = stop := by omega
  have hencloses := Surroundings.encloses_block hopen hbrace hle (line - 1)
  have halike : Surroundings.ScansAlike _ opts src (slice src (brace + 1) stop) _ 0 0 :=
    hencloses.scansAlike (Nat.le_refl _) (hstop.symm ▸ hclose) (.refl _)
  obtain ⟨last, inner, hinner, hrange⟩ := halike 1
  rw [hstop, Nat.add_comm 1, Nat.sub_add_cancel hline] at hrange
  have hscan : scan opts (slice src (brace + 1) stop) = .ok inner := by
    rw [scan_eq_scanRange, hinner]
    rfl
  refine ⟨_, inner, hscan, ?_, hrange⟩
  intro f hf
  -- a finding is not empty, and stands in the text
  have hstands := stands_of_mem_scan hscan f hf
  have hlt := hstands.lt_stop
  have hbytes := hstands.bytes.length_le
  rw [List.length_drop, hlen] at hbytes
  rw [Finding.stop] at hlt
  omega

/-- In the state `st` a scan of the source comes to the brace at `brace`.  Its block ends at `close`, and
    its header does not declare a constant, so the block is to be a scope. -/
structure ScanState.EntersBlock (opts : LexOptions) (src : Bytes) (st : ScanState)
    (brace close : Nat) : Prop where
  reachable : Reachable opts src st
  openBrace : src[brace]? = some Byte.openBrace
  matched : blockStop src brace = .ok close
  header : ∃ frame ∈ st.frames.head?, frame.cursor.offset = brace ∧ brace < frame.stop ∧
    (frame.statement.ask (brace - 1)).1 = .ok false

/-- The next token is then the block. -/
theorem ScanState.EntersBlock.takes {opts : LexOptions} {src : Bytes} {st : ScanState}
    {brace close : Nat} (h : st.EntersBlock opts src brace close) :
    ∃ frame below s n, st.frames = frame :: below ∧ frame.cursor.offset = brace ∧
      brace + n = close ∧ frame.Takes Byte.openBrace s ⟨.block, n⟩ ∧
      (frame.statement.ask (frame.cursor.offset - 1)).1 = .ok false := by
  obtain ⟨frame, hhead, hoffset, hlt, hask⟩ := h.header
  obtain ⟨below, hf⟩ := List.head?_eq_some_iff.1 hhead
  have hlies := (h.reachable.top hf).1
  have hopen := h.openBrace
  rw [← List.head?_drop, ← hoffset, ← hlies.rest_eq] at hopen
  obtain ⟨s, hr⟩ := List.head?_eq_some_iff.1 hopen
  have hmatch := h.matched
  rw [blockStop, ← hoffset, ← hlies.rest_eq, hr] at hmatch
  cases hn : blockLength (Byte.openBrace :: s) with
  | error e => rw [hn] at hmatch; cases hmatch
  | ok n =>
    rw [hn] at hmatch
    cases hmatch
    refine ⟨frame, below, s, n, hf, hoffset, by rw [hoffset], ⟨hr, by rwa [hoffset], ?_⟩, ?_⟩
    · exact Token.Reads.read (.block rfl hn)
    · rw [hoffset]
      exact hask

/-- The scan goes on in the scope of the block, and the scope around it waits behind the block. -/
theorem ScanState.EntersBlock.enter {opts : LexOptions} {src : Bytes} {st : ScanState}
    {brace close : Nat} (h : st.EntersBlock opts src brace close) :
    ∃ outer below, outer.cursor.offset = close ∧
      Reachable opts src
        ⟨.enter opts (.ofOffset src (brace + 1)) (close - 1) :: outer :: below, st.line, st.found⟩ := by
  obtain ⟨frame, below, s, n, hf, hoffset, hclose, ht, hask⟩ := h.takes
  obtain ⟨start, pos, hat⟩ := (h.reachable.top hf).1.isAt
  obtain rfl : pos = brace := hat.offset_eq.symm.trans hoffset
  refine ⟨.enter opts (frame.cursor.advance n) frame.stop, below, ?_, h.reachable.step hf ?_⟩
  · rw [Frame.cursor_enter, Cursor.offset_advance, hoffset, hclose]
  · rw [step_of_block ht.rest ht.lt_stop ht.read rfl, takeBlock_of_not_safe hask, hat.advance, hoffset,
      hclose]

/-- What was found before the scan comes to the block lies before it. -/
theorem ScanState.EntersBlock.offset_lt {opts : LexOptions} {src : Bytes} {st : ScanState}
    {brace close : Nat} (h : st.EntersBlock opts src brace close) :
    ∀ f ∈ st.found.toList, f.offset < brace := by
  intro f hf
  obtain ⟨frame, hhead, hoffset, -⟩ := h.header
  have hlt := (h.reachable.ordered.stands f hf).lt_stop
  have hstop := (h.reachable.ordered.passed f hf).2 frame hhead
  omega

/-- What the whole scan finds is what it had found before the block, what a scan of the text between the
    braces finds, and what lies behind the block. -/
theorem ScanState.EntersBlock.found_eq {opts : LexOptions} {src : Bytes} {found : List Finding}
    {st : ScanState} {brace close : Nat} (h : st.EntersBlock opts src brace close)
    (hscan : scan opts src = .ok found) :
    ∃ inner later, scan opts (slice src (brace + 1) (close - 1)) = .ok inner ∧
      found = st.found.toList ++
        (inner.map fun f => ⟨f.line + (st.line - 1), f.offset + (brace + 1), f.bytes⟩) ++ later ∧
      (∀ f ∈ inner, f.offset < close - 1 - (brace + 1)) ∧ ∀ f ∈ later, close ≤ f.offset := by
  obtain ⟨outer, below, houter, hentered⟩ := h.enter
  obtain ⟨hlies, hstacked⟩ := hentered.placed
  obtain ⟨whole, hrun, rfl⟩ := run_of_scan_ok hscan
  rw [hentered.run_eq] at hrun
  cases hstacked with
  | inner hclose _ _ hbelow =>
    rw [Frame.cursor_enter, Frame.stop_enter] at hclose
    obtain ⟨last, inner, hinner, hoffsets, hrange⟩ :=
      scanRange_inside opts h.openBrace hclose h.reachable.line_pos
    -- the scope of the block comes to its end, and then the scopes around it go on
    have hscope := runsAsRange opts src (brace + 1) st.line (outer :: below) st.found
      (Frame.isAt_enter opts src (brace + 1) (close - 1))
    rw [hrun, Frame.stop_enter, hrange] at hscope
    simp only [locate_ok] at hscope
    generalize hrest : ScanState.run opts ⟨outer :: below, last, _⟩ = r at hscope
    cases r with
    | error e => cases hscope
    | ok whole' =>
      cases hscope
      have hbehind : ∀ top ∈ (outer :: below).head?, close ≤ top.cursor.offset := by
        rintro top ⟨⟩
        exact Nat.le_of_eq houter.symm
      obtain ⟨later, hfound, hlater⟩ :=
        ScanState.run_appends (List.forall_mem_cons.1 hlies).2 hbelow hbehind hrest
      rw [Array.toList_appendList] at hfound
      exact ⟨inner, later, hinner, hfound, hoffsets, hlater⟩

/-- **A scope finds what a scan of the text between its braces finds.**  When a scan of a source that
    succeeds comes to a block that is a scope, the text between the braces can be scanned alone, and what
    the source has between the braces is what is found there, in the same order, only moved: by the
    bytes up to the text, and by the lines counted before the brace. -/
theorem found_in_block {opts : LexOptions} {src : Bytes} {found : List Finding} {st : ScanState}
    {brace close : Nat} (hscan : scan opts src = .ok found)
    (h : st.EntersBlock opts src brace close) :
    ∃ inner, scan opts (slice src (brace + 1) (close - 1)) = .ok inner ∧
      found.filter (fun f => brace + 1 ≤ f.offset && f.offset < close - 1) =
        inner.map fun f => ⟨f.line + (st.line - 1), f.offset + (brace + 1), f.bytes⟩ := by
  obtain ⟨inner, later, hinner, rfl, hinside, hlater⟩ := h.found_eq hscan
  refine ⟨inner, hinner, ?_⟩
  -- what lies before the block or behind it is left out
  have outside : ∀ l : List Finding, (∀ f ∈ l, f.offset < brace ∨ close ≤ f.offset) →
      l.filter (fun f => brace + 1 ≤ f.offset && f.offset < close - 1) = [] := by
    intro l hl
    rw [List.filter_eq_nil_iff]
    intro f hf
    have hout := hl f hf
    simp only [Bool.and_eq_true, decide_eq_true_eq]
    omega
  have hearlier := outside st.found.toList fun f hf => .inl (h.offset_lt f hf)
  have hlater := outside later fun f hf => .inr (hlater f hf)
  rw [List.filter_append, List.filter_append, hearlier, hlater, List.nil_append, List.append_nil,
    List.filter_eq_self]
  · intro f hf
    obtain ⟨g, hg, rfl⟩ := List.mem_map.1 hf
    have hlt := hinside g hg
    simp only [Bool.and_eq_true, decide_eq_true_eq]
    omega

/-- A block in a block, of which the header holds one keyword and the text the other. -/
theorem found_in_block_nested :
    let src := Bytes.ofString "\n\x7bstatic\x7b\nfinal 4\x7d5\x7d6"
    let statement := Statement.fresh ({} : LexOptions).safeKeywords ⟨2, none, src.drop 2⟩
    let st : ScanState :=
      ⟨[⟨⟨8, some 115, src.drop 8⟩, 19, statement⟩, .enter {} ⟨20, none, src.drop 20⟩ 21], 2, #[]⟩
    let found : List Finding :=
      [⟨3, 16, Bytes.ofString "4"⟩, ⟨3, 18, Bytes.ofString "5"⟩, ⟨3, 20, Bytes.ofString "6"⟩]
    scan {} src = .ok found ∧ st.EntersBlock {} src 8 18 ∧
    ∃ inner, scan {} (slice src 9 17) = .ok inner ∧
      found.filter (fun f => 9 ≤ f.offset && f.offset < 17) =
        inner.map fun f => ⟨f.line + 1, f.offset + 9, f.bytes⟩ := by
  intro src statement st found
  have hsteps : (ScanState.start {} src).steps {} 8 = .ok st := eq_ok_of_toOption (by decide +kernel)
  have hscan : scan {} src = .ok found := eq_ok_of_toOption (by decide +kernel)
  have h : st.EntersBlock {} src 8 18 :=
    { reachable := Reachable.start.steps hsteps
      openBrace := by decide +kernel
      matched := eq_ok_of_toOption (by decide +kernel)
      header := ⟨_, rfl, rfl, by decide, eq_ok_of_toOption (by decide +kernel)⟩ }
  exact ⟨hscan, h, found_in_block hscan h⟩

end MagicNumbers
