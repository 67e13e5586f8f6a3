/-
  The order of what is found, and the text of it.

  Findings come from many scopes, but all that was found lies before the place that the innermost scope
  has come to; so the next finding lies behind it.  Each was cut from the source where it says, and as it
  begins and ends in a byte of ASCII, it cuts no character of the source.

  * `Finding.Stands` — a finding is a stretch of the source that begins and ends in ASCII.
  * `Step.found_eq` — a step finds nothing, or the literal at the place of the innermost scope.
  * `ScanState.Ordered` — the invariant: what was found stands in the source in order, and behind it is
    the place of the innermost scope.
  * `ScanState.run_appends` — what is yet to be found lies no further left than that place.
  * `found_in_order` — the findings of a scan are in order and apart, and their text is that of the
    source.
-/
import MagicNumbers.Proofs.Stack
import MagicNumbers.Proofs.Utf8

namespace MagicNumbers

/-! ## Where a finding stands -/

/-- The finding is a stretch of the source, and it begins and ends in a byte of ASCII. -/
structure Finding.Stands (src : Bytes) (f : Finding) : Prop where
  bytes : f.bytes <+: src.drop f.offset
  first : ∃ b t, f.bytes = b :: t ∧ b < 0x80
  last : ∃ t x, f.bytes = t ++ [x] ∧ x < 0x80

/-- The offset behind a finding. -/
def Finding.stop (f : Finding) : Nat := f.offset + f.bytes.length

/-- No finding is empty. -/
theorem Finding.Stands.lt_stop {src : Bytes} {f : Finding} (h : f.Stands src) :
    f.offset < f.stop := by
  obtain ⟨b, t, hbytes, -⟩ := h.first
  rw [Finding.stop, hbytes, List.length_cons]
  omega

theorem Byte.lt_of_isQuote {b : UInt8} (h : isQuote b = true) : b < 0x80 := by
  rcases Bool.or_eq_true _ _ ▸ h with h | h
  · rw [eq_of_beq h]; decide
  · rw [eq_of_beq h]; decide

/-- A literal begins and ends in a byte of ASCII. -/
theorem Token.ascii_of_literal {lead : Option UInt8} {b : UInt8} {s : Bytes} {t : Token}
    (h : Token.read lead b s = .ok t) (hk : t.IsLiteral) :
    b < 0x80 ∧ ∃ r x, (b :: s).take t.length = r ++ [x] ∧ x < 0x80 := by
  cases Token.reads_of_read h with
  | @quoted n hb hn =>
    have hpos := quotedLength_pos hn
    obtain ⟨u, hu⟩ := take_of_quotedFrom hn
    refine ⟨Byte.lt_of_isQuote hb, b :: u, b, ?_, Byte.lt_of_isQuote hb⟩
    show (b :: s).take n = _
    rw [List.take_cons (by omega), hu, List.cons_append]
  | number hb =>
    have hall := isLiteralByte_of_mem_number hb s
    have hne : (b :: s).take (numberLength b s) ≠ [] := by
      rw [List.take_cons (numberLength_pos b s)]
      exact List.cons_ne_nil _ _
    refine ⟨Byte.lt_of_isLiteralByte (Byte.isLiteralByte_of_isDigit hb), _, _,
      (List.dropLast_concat_getLast hne).symm, ?_⟩
    exact Byte.lt_of_isLiteralByte (hall _ (List.getLast_mem hne))
  | comment | block | semicolon | name | other => rcases hk with hk | hk <;> cases hk

/-- So what a scope reports of a literal stands in the source. -/
theorem Frame.Takes.stands {opts : LexOptions} {src : Bytes} {frame : Frame} {b : UInt8} {s : Bytes}
    {t : Token} (ht : frame.Takes b s t) (hlies : frame.Lies opts src) (hk : t.IsLiteral)
    (line : Nat) :
    Finding.Stands src ⟨line, frame.cursor.offset, frame.cursor.rest.take t.length⟩ := by
  obtain ⟨hfirst, r, x, hlast, hx⟩ := Token.ascii_of_literal ht.read hk
  constructor
  · show frame.cursor.rest.take t.length <+: src.drop frame.cursor.offset
    rw [← hlies.rest_eq]
    exact List.take_prefix _ _
  · refine ⟨b, s.take (t.length - 1), ?_, hfirst⟩
    show frame.cursor.rest.take t.length = _
    rw [ht.rest, List.take_cons (Token.read_bounds ht.read).1]
  · refine ⟨r, x, ?_, hx⟩
    show frame.cursor.rest.take t.length = _
    rw [ht.rest, hlast]

/-! ## What a step finds -/

/-- **A step finds nothing, or the literal at the place of the innermost scope**, which then goes on
    right behind it. -/
theorem Step.found_eq {opts : LexOptions} {src : Bytes} {st st' : ScanState} {frame : Frame}
    {below : List Frame} (hs : Step opts st frame below st') (hlies : frame.Lies opts src) :
    st'.found.toList = st.found.toList ∨
    ∃ f, st'.found.toList = st.found.toList ++ [f] ∧ f.Stands src ∧ f.line = st.line ∧
      f.offset = frame.cursor.offset ∧ ∀ top ∈ st'.frames.head?, f.stop ≤ top.cursor.offset := by
  cases hs with
  | close | skip | semicolon | pass | enter => exact .inl rfl
  | @literal b s t safe ht hk =>
    cases safe with
    | true => exact .inl rfl
    | false =>
      refine .inr ⟨_, Array.toList_push, ht.stands hlies hk st.line, rfl, rfl, ?_⟩
      rintro top ⟨⟩
      show frame.cursor.offset + _ ≤ (frame.cursor.advance t.length).offset
      rw [List.length_take_of_le ht.length_le]
      exact Nat.le_of_eq (Cursor.offset_advance _ _).symm

/-- No step counts lines back. -/
theorem Step.line_le {opts : LexOptions} {st st' : ScanState} {frame : Frame} {below : List Frame}
    (hs : Step opts st frame below st') : st.line ≤ st'.line := by
  cases hs with
  | close | semicolon | enter => exact Nat.le_refl _
  | skip | literal | pass => exact Nat.le_add_right _ _

/-- **No step leads back**: the innermost scope afterwards is no further left. -/
theorem Step.offset_le {opts : LexOptions} {src : Bytes} {st st' : ScanState} {frame : Frame}
    {below : List Frame} (hs : Step opts st frame below st') (h : Stacked src (frame :: below)) :
    ∀ top ∈ st'.frames.head?, frame.cursor.offset ≤ top.cursor.offset := by
  -- some bytes further
  have further : ∀ n, frame.cursor.offset ≤ (frame.cursor.advance n).offset := by
    intro n
    rw [Cursor.offset_advance]
    exact Nat.le_add_right _ _
  intro top htop
  cases hs with
  | close =>
    cases h with
    | bottom => cases htop
    | inner hclose hnext =>
      cases htop
      have hle := hclose.offset_le
      omega
  | skip | semicolon | literal | pass | enter =>
    cases htop
    exact further _

/-! ## The invariant -/

/-- One finding is on no later line than another, and ends where the other begins or before. -/
def Finding.Before (f g : Finding) : Prop := f.line ≤ g.line ∧ f.stop ≤ g.offset

/-- What was found stands in the source in order, and the place that the innermost scope has come to is
    behind all of it. -/
structure ScanState.Ordered (src : Bytes) (st : ScanState) : Prop where
  stands : ∀ f ∈ st.found.toList, f.Stands src
  ordered : st.found.toList.Pairwise Finding.Before
  passed : ∀ f ∈ st.found.toList, f.line ≤ st.line ∧
    ∀ top ∈ st.frames.head?, f.stop ≤ top.cursor.offset

/-- **A step keeps what was found in order.** -/
theorem ScanState.Ordered.step {opts : LexOptions} {src : Bytes} {st st' : ScanState} {frame : Frame}
    {below : List Frame} (h : st.Ordered src) (hf : st.frames = frame :: below)
    (hlies : frame.Lies opts src) (hstacked : Stacked src (frame :: below))
    (hs : Step opts st frame below st') : st'.Ordered src := by
  -- what was found before the step is behind the innermost scope after it
  have passed : ∀ f ∈ st.found.toList, f.line ≤ st'.line ∧
      ∀ top ∈ st'.frames.head?, f.stop ≤ top.cursor.offset := by
    intro f hmem
    obtain ⟨hline, hstop⟩ := h.passed f hmem
    refine ⟨Nat.le_trans hline hs.line_le, ?_⟩
    intro top htop
    exact Nat.le_trans (hstop frame (by rw [hf]; rfl)) (hs.offset_le hstacked top htop)
  rcases hs.found_eq hlies with heq | ⟨f, heq, hstands, hline, hoffset, hstop⟩
  · constructor
    · rw [heq]
      exact h.stands
    · rw [heq]
      exact h.ordered
    · rw [heq]
      exact passed
  · constructor
    · rw [heq]
      exact List.forall_mem_append.2 ⟨h.stands, List.forall_mem_singleton.2 hstands⟩
    · rw [heq, List.pairwise_append]
      refine ⟨h.ordered, List.pairwise_singleton _ _, ?_⟩
      intro g hg f' hf'
      rw [List.mem_singleton.1 hf', Finding.Before, hline, hoffset]
      obtain ⟨hgline, hgstop⟩ := h.passed g hg
      exact ⟨hgline, hgstop frame (by rw [hf]; rfl)⟩
    · rw [heq]
      refine List.forall_mem_append.2 ⟨passed, List.forall_mem_singleton.2 ⟨?_, hstop⟩⟩
      rw [hline]
      exact hs.line_le

/-- In every state of a scan, what was found is in order. -/
theorem Reachable.ordered {opts : LexOptions} {src : Bytes} {st : ScanState}
    (h : Reachable opts src st) : st.Ordered src := by
  induction h with
  | start =>
    constructor
    · exact List.forall_mem_nil _
    · exact .nil
    · exact List.forall_mem_nil _
  | step hst hf hs ih =>
    obtain ⟨hlies, hstacked⟩ := hst.top hf
    exact ih.step hf hlies hstacked (step_of_eq_ok hs)

/-- **What is yet to be found lies no further left than the innermost scope**, and comes behind what
    was found. -/
theorem ScanState.run_appends {opts : LexOptions} {src : Bytes} {st last : ScanState} {pos : Nat}
    (hlies : ∀ f ∈ st.frames, f.Lies opts src) (hstacked : Stacked src st.frames)
    (hpos : ∀ top ∈ st.frames.head?, pos ≤ top.cursor.offset) (hr : st.run opts = .ok last) :
    ∃ new, last.found.toList = st.found.toList ++ new ∧ ∀ f ∈ new, pos ≤ f.offset := by
  fun_induction ScanState.run opts st with
  | case1 st hf =>
    cases hr
    exact ⟨[], (List.append_nil _).symm, List.forall_mem_nil _⟩
  | case2 => cases hr
  | case3 st frame below hf st' hs ih =>
    rw [hf] at hlies hstacked hpos
    have hframe := hlies frame List.mem_cons_self
    have hstep := step_of_eq_ok hs
    have hle : pos ≤ frame.cursor.offset := hpos frame rfl
    obtain ⟨new, hnew, hall⟩ := ih (Frame.lies_of_step hlies hstep) (hstacked.step hframe hstep)
      (fun top htop => Nat.le_trans hle (hstep.offset_le hstacked top htop)) hr
    rcases hstep.found_eq hframe with heq | ⟨f, heq, -, -, hoffset, -⟩
    · rw [heq] at hnew
      exact ⟨new, hnew, hall⟩
    · rw [heq, List.append_assoc] at hnew
      exact ⟨f :: new, hnew, List.forall_mem_cons.2 ⟨by rw [hoffset]; exact hle, hall⟩⟩

/-! ## Every scan -/

/-- What is found in a source stands in it. -/
theorem stands_of_mem_scan {opts : LexOptions} {src : Bytes} {found : List Finding}
    (h : scan opts src = .ok found) : ∀ f ∈ found, f.Stands src := by
  obtain ⟨last, hrun, rfl⟩ := run_of_scan_ok h
  exact (Reachable.start.run_ok hrun).1.ordered.stands

/-- Findings that are in order pass the check. -/
theorem inDiscoveryOrder_of_pairwise {src : Bytes} {found : List Finding}
    (h : found.Pairwise Finding.Before) (hstands : ∀ f ∈ found, f.Stands src) :
    inDiscoveryOrder found = true := by
  fun_induction inDiscoveryOrder found with
  | case1 f g rest ih =>
    obtain ⟨hbefore, hrest⟩ := List.pairwise_cons.1 h
    obtain ⟨hline, hstop⟩ := hbefore g List.mem_cons_self
    obtain ⟨hf, hstands'⟩ := List.forall_mem_cons.1 hstands
    have hlt := hf.lt_stop
    have hoffset : f.offset < g.offset := by omega
    have hfg : (f.line < g.line || f.line == g.line && f.offset < g.offset) = true := by
      simp only [Bool.or_eq_true, Bool.and_eq_true, decide_eq_true_eq, beq_iff_eq]
      omega
    rw [hfg, Bool.true_and]
    exact ih hrest hstands'
  | case2 => rfl

/-- **What is found in a text is text of it**: no character of the source is cut and none is
    replaced. -/
theorem Finding.Stands.text {s : String} {f : Finding} (h : f.Stands (Bytes.ofString s)) :
    Utf8.decode? f.bytes = some f.text ∧ Bytes.ofString f.text = f.bytes := by
  obtain ⟨v, hv⟩ := h.bytes
  have hsrc : Utf8.encode s.toList = (Bytes.ofString s).take f.offset ++ (f.bytes ++ v) := by
    rw [hv, List.take_append_drop, Bytes.ofString_eq_encode]
  obtain ⟨cs, hcs⟩ := Utf8.exists_encode_of_append hsrc h.first h.last
  have htext : f.text = String.ofList cs := by
    rw [Finding.text, hcs, Utf8.decodeLossy_encode]
  constructor
  · rw [htext, hcs, Utf8.decode?_encode]
  · rw [htext, hcs, Bytes.ofString_ofList]

/-- **The findings of a scan are in the order of the source.**  Their offsets grow and their lines do not
    fall, so they pass the check of their order; no two of them overlap, and each is a stretch of the
    source.  If the source is well-formed text, so is each, and its text stands there in the source. -/
theorem found_in_order {opts : LexOptions} {src : Bytes} {found : List Finding}
    (h : scan opts src = .ok found) :
    found.Pairwise (fun f g =>
      f.offset < g.offset ∧ f.line ≤ g.line ∧ f.offset + f.bytes.length ≤ g.offset) ∧
    inDiscoveryOrder found = true ∧
    (∀ f ∈ found, f.bytes <+: src.drop f.offset) ∧
    ∀ s : String, src = Bytes.ofString s →
      (∀ f ∈ found, Utf8.decode? f.bytes = some f.text ∧ Bytes.ofString f.text = f.bytes ∧
        Bytes.ofString f.text <+: src.drop f.offset) ∧
      found.Pairwise fun f g => f.offset + f.text.utf8ByteSize ≤ g.offset := by
  obtain ⟨last, hrun, rfl⟩ := run_of_scan_ok h
  have hordered := (Reachable.start.run_ok hrun).1.ordered
  refine ⟨?_, inDiscoveryOrder_of_pairwise hordered.ordered hordered.stands, ?_, ?_⟩
  · apply hordered.ordered.imp_of_mem
    rintro f g hf - ⟨hline, hstop⟩
    exact ⟨Nat.lt_of_lt_of_le (hordered.stands f hf).lt_stop hstop, hline, hstop⟩
  · intro f hf
    exact (hordered.stands f hf).bytes
  · rintro s rfl
    constructor
    · intro f hf
      obtain ⟨hdecode, htext⟩ := (hordered.stands f hf).text
      refine ⟨hdecode, htext, ?_⟩
      rw [htext]
      exact (hordered.stands f hf).bytes
    · apply hordered.ordered.imp_of_mem
      rintro f g hf - ⟨-, hstop⟩
      rw [← Bytes.length_ofString, (hordered.stands f hf).text.2]
      exact hstop

/-- A literal with an escape before a character of two bytes, and numbers in two scopes. -/
theorem found_in_order_escape :
    let text := "f(\"\\é\");\x7b\n7\x7dé(2.5)"
    let found : List Finding :=
      [⟨1, 2, Bytes.ofString "\"\\é\""⟩, ⟨2, 11, Bytes.ofString "7"⟩, ⟨2, 16, Bytes.ofString "2.5"⟩]
    scan {} (Bytes.ofString text) = .ok found ∧ inDiscoveryOrder found = true ∧
    (∀ f ∈ found, Utf8.decode? f.bytes = some f.text ∧ Bytes.ofString f.text = f.bytes ∧
      Bytes.ofString f.text <+: (Bytes.ofString text).drop f.offset) := by
  intro text found
  have h : scan {} (Bytes.ofString text) = .ok found := eq_ok_of_toOption (by decide +kernel)
  obtain ⟨-, hcheck, -, htext⟩ := found_in_order h
  exact ⟨h, hcheck, (htext text rfl).1⟩

end MagicNumbers
