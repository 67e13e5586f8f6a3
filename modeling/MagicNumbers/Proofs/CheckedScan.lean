/-
  A scan by positions, every access checked.

  The scan keeps the same stack of scopes as `ScanState.run`, but a place is a position and no more, so
  that every byte it looks at is an access to the source.  A statement remembers positions too, and
  goes on from them later under another bound.

  * `Statement.ask_answers`, `step_agrees` — a question and a step, one for one with those of the scan.
  * `Reachable.stop_le_length` — no scope ends behind the source; this is why there is a byte to look at.
  * `scan_never_faults` — the whole scan ends without a fault, and as `scan` does.
-/
import MagicNumbers.Proofs.Access
import MagicNumbers.Proofs.Order

namespace MagicNumbers

/-- **No scope ends behind the source.** -/
theorem Reachable.stop_le_length {opts : LexOptions} {src : Bytes} {st : ScanState} {frame : Frame}
    {below : List Frame} (h : Reachable opts src st) (hf : st.frames = frame :: below) :
    frame.stop ≤ src.length := by
  obtain ⟨-, hstacked⟩ := h.top hf
  cases hstacked with
  | bottom hstop => exact Nat.le_of_eq hstop
  | @inner _ outer _ _ hnext =>
    -- the scope around it goes on behind its end, and is in the source
    have houter : outer ∈ st.frames := by
      rw [hf]
      exact List.mem_cons_of_mem _ List.mem_cons_self
    have hle := h.offset_le_length outer houter
    omega

namespace Indexed

/-! ## Statements -/

/-- A statement and what is known about it, by positions. -/
structure Statement where
  start : Nat
  reach : Nat
  searches : List (Bytes × Progress)
  deriving DecidableEq, Repr

namespace Statement

/-- A statement of which nothing is known yet. -/
def fresh (keywords : List Bytes) (start : Nat) : Statement :=
  ⟨start, start, keywords.map fun word => (word, ⟨false, start⟩)⟩

/-- Whether all of some words stand in `[start, stop)`. -/
def allIn (src : Bytes) (start stop : Nat) : List Bytes → Checked Bool
  | [] => return true
  | w :: rest => do
    let p ← word src start stop w
    if p.found then allIn src start stop rest else return false

/-- Goes on with the searches in turn, up to the first that comes up empty. -/
def resume (src : Bytes) (stop : Nat) :
    List (Bytes × Progress) → Checked (Bool × List (Bytes × Progress))
  | [] => return (true, [])
  | (w, p) :: rest => do
    let p ← if p.found then pure p else word src p.next stop w
    if p.found then
      let (safe, rest) ← resume src stop rest
      return (safe, (w, p) :: rest)
    else return (false, (w, p) :: rest)

/-- Whether the statement holds all its keywords before `stop`, and what is known afterwards. -/
def ask (src : Bytes) (st : Statement) (stop : Nat) : Checked (Bool × Statement) :=
  if st.searches.isEmpty then return (false, st)
  else if stop < st.reach then do
    let safe ← allIn src st.start stop (st.searches.map (·.1))
    return (safe, st)
  else do
    let (safe, searches) ← resume src stop st.searches
    return (safe, { st with reach := stop, searches })

/-- How far the search for a word has come, on the text. -/
def known (src : Bytes) (search : Bytes × Progress) : Bytes × Search :=
  (search.1, search.2.onText src)

/-- The same on the text. -/
def onText (src : Bytes) (st : Statement) : MagicNumbers.Statement :=
  ⟨.ofOffset src st.start, st.reach, st.searches.map (known src)⟩

theorem onText_fresh (src : Bytes) (keywords : List Bytes) (start : Nat) :
    (fresh keywords start).onText src = .fresh keywords (.ofOffset src start) := by
  rw [onText, fresh, MagicNumbers.Statement.fresh, List.map_map, Cursor.offset_ofOffset]
  rfl

theorem allIn_agrees (src : Bytes) (start stop : Nat) (words : List Bytes) :
    Agrees src id (allIn src start stop words) (allFound stop (.ofOffset src start) words) := by
  induction words with
  | nil => exact .ok true
  | cons w rest ih =>
    rcases (word_agrees src w start stop).inv with ⟨p, hp, hs⟩ | ⟨e, hp, hs⟩
    · rw [allIn, allFound, hp, ok_bind, hs, Progress.onText]
      split
      · exact ih
      · exact .ok false
    · rw [allIn, allFound, hp, hs]
      exact .error e

/-- An answer by positions agrees with one on the text, and so does what is known afterwards.  After an
    error nothing is asked any more. -/
inductive Answers (src : Bytes) {α β : Type} (f : α → β) :
    Checked (Bool × α) → Except Unclosed Bool × β → Prop
  | ok (safe : Bool) (a : α) : Answers src f (.ok (safe, a)) (.ok safe, f a)
  | error (e : Unclosed) (b : β) : Answers src f (.error (.malformed (e.inSource src))) (.error e, b)

theorem Answers.inv {src : Bytes} {α β : Type} {f : α → β} {x : Checked (Bool × α)}
    {y : Except Unclosed Bool × β} (h : Answers src f x y) :
    (∃ safe a, x = .ok (safe, a) ∧ y.1 = .ok safe ∧ y.2 = f a) ∨
      ∃ e : Unclosed, x = .error (.malformed (e.inSource src)) ∧ y.1 = .error e := by
  cases h with
  | ok safe a => exact .inl ⟨safe, a, rfl, rfl, rfl⟩
  | error e b => exact .inr ⟨e, rfl, rfl⟩

/-- Searches that go on by positions come as far as those on the text. -/
theorem resume_answers (src : Bytes) (stop : Nat) (searches : List (Bytes × Progress)) :
    Answers src (List.map (known src)) (resume src stop searches)
      (MagicNumbers.Statement.resume stop (searches.map (known src))) := by
  induction searches with
  | nil => exact .ok true []
  | cons search rest ih =>
    obtain ⟨w, p⟩ := search
    -- a word that is found leaves the answer to the searches behind it
    have later : ∀ q : Progress, q.found = true →
        Answers src (List.map (known src))
          (do let (safe, rest) ← resume src stop rest; return (safe, (w, q) :: rest))
          ((MagicNumbers.Statement.resume stop (rest.map (known src))).1,
            (w, .found) :: (MagicNumbers.Statement.resume stop (rest.map (known src))).2) := by
      intro q hq
      rcases ih.inv with ⟨safe, rest', hx, hsafe, hrest⟩ | ⟨e, hx, he⟩
      · rw [hx, hsafe, hrest, ← q.onText_of_found hq src]
        exact .ok safe ((w, q) :: rest')
      · rw [hx, he]
        exact .error e _
    rw [resume, List.map_cons, known]
    by_cases hp : p.found = true
    · rw [if_pos hp, p.onText_of_found hp, MagicNumbers.Statement.resume]
      show Answers _ _ (if p.found then _ else _) _
      rw [if_pos hp]
      exact later p hp
    · rw [if_neg hp, p.onText_of_not_found hp, MagicNumbers.Statement.resume]
      rcases (word_agrees src w p.next stop).inv with ⟨q, hq, hs⟩ | ⟨e, hq, hs⟩
      · rw [hq, hs]
        show Answers _ _ (if q.found then _ else _) _
        by_cases hfound : q.found = true
        · rw [if_pos hfound, q.onText_of_found hfound]
          exact later q hfound
        · rw [if_neg hfound, q.onText_of_not_found hfound]
          show Answers _ _ _ (.ok false, (w, Search.paused (.ofOffset src q.next)) :: _)
          rw [← q.onText_of_not_found hfound]
          exact .ok false ((w, q) :: rest)
      · rw [hq, hs]
        exact .error e _

/-- **A question to a statement is answered without a fault**, whatever its bound. -/
theorem ask_answers (src : Bytes) (st : Statement) (stop : Nat) :
    Answers src (onText src) (st.ask src stop) ((st.onText src).ask stop) := by
  have hempty : (st.onText src).searches.isEmpty = st.searches.isEmpty := List.isEmpty_map
  have hwords : (st.onText src).keywords = st.searches.map (·.1) := by
    rw [MagicNumbers.Statement.keywords, onText, List.map_map]
    rfl
  rw [ask, MagicNumbers.Statement.ask, hempty, hwords]
  split
  · exact .ok false st
  · next hne =>
    show Answers _ _ (if stop < st.reach then _ else _) (if stop < st.reach then _ else _)
    split
    · -- a smaller bound is answered afresh
      rw [holdsAll, List.isEmpty_map, if_neg hne]
      show Answers _ _ _ (allFound stop (.ofOffset src st.start) _, _)
      rcases (allIn_agrees src st.start stop (st.searches.map (·.1))).inv with
        ⟨safe, hx, hy⟩ | ⟨e, hx, hy⟩
      · rw [hx, hy]
        exact .ok safe st
      · rw [hx, hy]
        exact .error e _
    · let resumed := MagicNumbers.Statement.resume stop (st.searches.map (known src))
      show Answers _ _ _
        (resumed.1, MagicNumbers.Statement.mk (.ofOffset src st.start) stop resumed.2)
      rcases (resume_answers src stop st.searches).inv with
        ⟨safe, searches, hx, hsafe, hknown⟩ | ⟨e, hx, he⟩
      · rw [hx, hsafe, hknown]
        exact .ok safe (Statement.mk st.start stop searches)
      · rw [hx, he]
        exact .error e _

end Statement

/-! ## One step -/

/-- A scope that is being scanned, by positions. -/
structure Frame where
  cur : Nat
  stop : Nat
  statement : Statement
  deriving DecidableEq, Repr

/-- The whole of a scan, by positions. -/
structure State where
  frames : List Frame
  line : Nat
  found : Array Finding
  deriving DecidableEq, Repr

/-- A scope at the beginning of a statement. -/
def Frame.enter (opts : LexOptions) (cur stop : Nat) : Frame :=
  ⟨cur, stop, .fresh opts.safeKeywords cur⟩

/-- The same on the text. -/
def Frame.onText (src : Bytes) (frame : Frame) : MagicNumbers.Frame :=
  ⟨.ofOffset src frame.cur, frame.stop, frame.statement.onText src⟩

namespace Frame

variable {src : Bytes} {frame : Frame}

theorem onText_enter (opts : LexOptions) (src : Bytes) (cur stop : Nat) :
    (Frame.enter opts cur stop).onText src = .enter opts (.ofOffset src cur) stop := by
  rw [Frame.onText, Frame.enter, Statement.onText_fresh]
  rfl

theorem offset_onText (frame : Frame) (src : Bytes) :
    (frame.onText src).cursor.offset = frame.cur := Cursor.offset_ofOffset _ _

theorem lt_onText (h : frame.cur < frame.stop) :
    (frame.onText src).cursor.offset < (frame.onText src).stop := by
  rw [offset_onText]
  exact h

theorem rest_onText {b : UInt8} (hb : src[frame.cur]? = some b) :
    (frame.onText src).cursor.rest = b :: src.drop (frame.cur + 1) := by
  rw [← drop_of_getElem? hb]
  exact Cursor.rest_ofOffset _ _

end Frame

/-- The same on the text. -/
def State.onText (src : Bytes) (st : State) : ScanState :=
  ⟨st.frames.map (Frame.onText src), st.line, st.found⟩

/-- The state before the first byte. -/
def State.start (opts : LexOptions) (src : Bytes) : State := ⟨[.enter opts 0 src.length], 1, #[]⟩

/-- Moves the innermost scope on. -/
def State.pass (st : State) (frame : Frame) (below : List Frame) (k : Extent) : State :=
  { st with frames := { frame with cur := k.stop } :: below, line := st.line + k.newlines }

/-- What a literal does; it is cut out of the source only if it is reported. -/
def takeLiteral (src : Bytes) (st : State) (frame : Frame) (below : List Frame) (k : Extent)
    (bound : Nat) : Checked State := do
  let (safe, statement) ← frame.statement.ask src bound
  let frames := { frame with cur := k.stop, statement } :: below
  if safe then return ⟨frames, st.line + k.newlines, st.found⟩
  else
    let bytes ← cut src frame.cur k.stop
    return ⟨frames, st.line + k.newlines, st.found.push ⟨st.line, frame.cur, bytes⟩⟩

/-- What a digit does: it belongs to a name, stands alone or begins a literal. -/
def takeDigit (src : Bytes) (st : State) (frame : Frame) (below : List Frame) : Checked State := do
  let passed ← noLiteral src frame.cur
  if passed then
    return st.pass frame below ⟨frame.cur + nameLength (src.drop (frame.cur + 1)), 0⟩
  else
    let stop ← numberEnd src frame.cur
    takeLiteral src st frame below ⟨stop, 0⟩ frame.cur

/-- What a block does that ends at `close`.  The header ends one byte before the brace, or at the start
    of the source if there is none. -/
def takeBlock (opts : LexOptions) (src : Bytes) (st : State) (frame : Frame) (below : List Frame)
    (close : Nat) : Checked State := do
  let (safe, _) ← frame.statement.ask src (frame.cur - 1)
  let after := Frame.enter opts close frame.stop
  if safe then
    if opts.legacyLineDrift then return { st with frames := after :: below }
    else
      let body ← cut src (frame.cur + 1) close
      return { st with frames := after :: below, line := st.line + newlines body }
  else
    let stop ← minus close 1
    return { st with frames := .enter opts (frame.cur + 1) stop :: after :: below }

/-- One step of the innermost scope. -/
def step (opts : LexOptions) (src : Bytes) (st : State) (frame : Frame) (below : List Frame) :
    Checked State :=
  if frame.stop ≤ frame.cur then return { st with frames := below }
  else do
    let b ← byteAt src frame.cur
    if b = Byte.lineFeed then return st.pass frame below ⟨frame.cur + 1, 1⟩
    else if b = Byte.slash then
      let k ← comment src frame.cur true
      return st.pass frame below k
    else if b = Byte.openBrace then
      let close ← block src frame.cur
      takeBlock opts src st frame below close
    else if b = Byte.semicolon then
      return { st with frames := .enter opts (frame.cur + 1) frame.stop :: below }
    else if Byte.isQuote b then
      let k ← quoted src frame.cur true
      takeLiteral src st frame below k k.stop
    else if Byte.isDigit b then takeDigit src st frame below
    else return st.pass frame below ⟨frame.cur + 1, 0⟩

section

variable {opts : LexOptions} {src : Bytes} {st : State} {frame : Frame} {below : List Frame}

/-- A literal that ends in the source is taken without a fault. -/
theorem takeLiteral_agrees {n : Nat} (hn : frame.cur + n ≤ src.length) (bound : Nat) :
    Agrees src (State.onText src)
      (takeLiteral src st frame below
        ⟨frame.cur + n, newlines ((src.drop frame.cur).take n)⟩ bound)
      ((st.onText src).takeLiteral (frame.onText src) (below.map (Frame.onText src)) n bound) := by
  rcases (frame.statement.ask_answers src bound).inv with ⟨safe, statement, hx, hsafe, hy⟩ | ⟨e, hx, he⟩
  · rw [takeLiteral, hx, ScanState.takeLiteral_of_ok hsafe]
    simp only [Frame.onText, hy, Cursor.advance_ofOffset, Cursor.rest_ofOffset, Cursor.offset_ofOffset]
    cases safe with
    | true => exact Agrees.ok (State.mk (⟨_, _, _⟩ :: below) _ _)
    | false =>
      show Agrees _ _ (cut src frame.cur (frame.cur + n) >>= _) _
      rw [cut_of_le (Nat.le_add_right _ _) hn, slice_add]
      exact Agrees.ok (State.mk (⟨_, _, _⟩ :: below) _ _)
  · rw [takeLiteral, hx, ScanState.takeLiteral_of_error he]
    exact .error e

/-- A block that ends in the source is taken without a fault. -/
theorem takeBlock_agrees {n : Nat} (hb : src[frame.cur]? = some Byte.openBrace) (hone : 1 < n)
    (hn : frame.cur + n ≤ src.length) :
    Agrees src (State.onText src) (takeBlock opts src st frame below (frame.cur + n))
      ((st.onText src).takeBlock opts (frame.onText src) (below.map (Frame.onText src)) n) := by
  have hask := frame.statement.ask_answers src (frame.cur - 1)
  rcases hask.inv with ⟨safe, statement, hx, hsafe, -⟩ | ⟨e, hx, he⟩
  · rw [← frame.offset_onText src] at hsafe
    rw [takeBlock, hx]
    cases safe with
    | true =>
      rw [ScanState.takeBlock_of_safe hsafe]
      simp only [Frame.onText, Cursor.advance_ofOffset, Cursor.rest_ofOffset, ← Frame.onText_enter]
      show Agrees _ _ (if opts.legacyLineDrift then _ else cut src (frame.cur + 1) (frame.cur + n) >>= _) _
      split
      · exact Agrees.ok (State.mk (_ :: below) _ _)
      · -- the brace is no line end
        have hbody : newlines (slice src (frame.cur + 1) (frame.cur + n)) =
            newlines ((src.drop frame.cur).take n) := by
          rw [drop_of_getElem? hb, List.take_cons (by omega), newlines_cons (by decide),
            show frame.cur + n = frame.cur + 1 + (n - 1) by omega, slice_add]
        rw [cut_of_le (by omega) hn, ← hbody]
        exact Agrees.ok (State.mk (_ :: below) _ _)
    | false =>
      rw [ScanState.takeBlock_of_not_safe hsafe, Frame.offset_onText]
      simp only [Frame.onText, Cursor.advance_ofOffset, ← Frame.onText_enter]
      show Agrees _ _ (minus (frame.cur + n) 1 >>= _) _
      rw [minus_of_le (by omega)]
      exact Agrees.ok (State.mk (_ :: _ :: below) _ _)
  · rw [← frame.offset_onText src] at he
    rw [takeBlock, hx, ScanState.takeBlock_of_error he]
    exact .error e

variable {b : UInt8}

/-- What is unclosed ends the scan, with the error that the position gives. -/
theorem agrees_of_unclosed {e : Unclosed} (hlt : frame.cur < frame.stop)
    (hb : src[frame.cur]? = some b)
    (he : Token.read (leadOf (src.take frame.cur)) b (src.drop (frame.cur + 1)) = .error e) :
    Agrees src (State.onText src) (.error (.malformed ((e.shift frame.cur).inSource src)))
      (ScanState.step opts (st.onText src) (frame.onText src) (below.map (Frame.onText src))) := by
  rw [← Cursor.lead_ofOffset] at he
  rw [ScanState.step_of_error (Frame.rest_onText hb) (Frame.lt_onText hlt) he, Frame.offset_onText]
  exact .error _

/-- What is passed over moves the scope on by as much. -/
theorem agrees_of_skipped {t : Token} {k : Extent} (hlt : frame.cur < frame.stop)
    (hb : src[frame.cur]? = some b)
    (ht : Token.Reads (leadOf (src.take frame.cur)) b (src.drop (frame.cur + 1)) t)
    (hk : t.IsSkipped)
    (hextent : k = ⟨frame.cur + t.length, newlines ((src.drop frame.cur).take t.length)⟩) :
    Agrees src (State.onText src) (.ok (st.pass frame below k))
      (ScanState.step opts (st.onText src) (frame.onText src) (below.map (Frame.onText src))) := by
  rw [← Cursor.lead_ofOffset] at ht
  rw [ScanState.step_of_skipped (Frame.rest_onText hb) (Frame.lt_onText hlt) ht.read hk, hextent]
  simp only [Frame.onText, Cursor.advance_ofOffset, Cursor.rest_ofOffset]
  exact Agrees.ok (st.pass frame below ⟨_, _⟩)

/-- A literal is taken as the token that is read. -/
theorem agrees_of_literal {t : Token} {k : Extent} {bound : Nat} (hlt : frame.cur < frame.stop)
    (hb : src[frame.cur]? = some b)
    (ht : Token.Reads (leadOf (src.take frame.cur)) b (src.drop (frame.cur + 1)) t)
    (hk : t.IsLiteral) (hbound : t.bound frame.cur = bound)
    (hextent : k = ⟨frame.cur + t.length, newlines ((src.drop frame.cur).take t.length)⟩) :
    Agrees src (State.onText src) (takeLiteral src st frame below k bound)
      (ScanState.step opts (st.onText src) (frame.onText src) (below.map (Frame.onText src))) := by
  have hle := (Token.read_bounds ht.read).2
  have hlen := (List.getElem?_eq_some_iff.1 hb).1
  rw [List.length_drop] at hle
  rw [← Cursor.lead_ofOffset] at ht
  rw [ScanState.step_of_literal (Frame.rest_onText hb) (Frame.lt_onText hlt) ht.read hk,
    Frame.offset_onText, hbound, hextent]
  exact takeLiteral_agrees (by omega) bound

/-- A digit is taken without a fault. -/
theorem takeDigit_agrees (hlt : frame.cur < frame.stop) (hb : src[frame.cur]? = some b)
    (hdigit : Byte.isDigit b = true) :
    Agrees src (State.onText src) (takeDigit src st frame below)
      (ScanState.step opts (st.onText src) (frame.onText src) (below.map (Frame.onText src))) := by
  -- neither a name nor a number holds a line end
  have hname := (plain_nameLength hdigit (src.drop (frame.cur + 1))).newlines_eq
  have hnumber := (plain_numberLength hdigit (src.drop (frame.cur + 1))).newlines_eq
  rw [← drop_of_getElem? hb] at hname hnumber
  rw [takeDigit, noLiteral_eq hb, ok_bind, numberEnd_eq hb, ok_bind]
  split
  · next h => exact agrees_of_skipped hlt hb (.name hdigit h) (.inr (.inl rfl)) (by rw [hname])
  · next h =>
    exact agrees_of_literal hlt hb (.number hdigit (Bool.eq_false_iff.2 h)) (.inr rfl) rfl
      (by rw [hnumber])

/-- A comment is passed without a fault. -/
theorem comment_agrees (hlt : frame.cur < frame.stop) (hb : src[frame.cur]? = some Byte.slash) :
    Agrees src (State.onText src)
      (do let k ← comment src frame.cur true; return st.pass frame below k)
      (ScanState.step opts (st.onText src) (frame.onText src) (below.map (Frame.onText src))) := by
  have hs := drop_of_getElem? hb
  rw [comment_eq]
  cases hn : commentLength (Byte.slash :: src.drop (frame.cur + 1)) with
  | error e =>
    rw [commentExtent_of_error hs hn]
    refine agrees_of_unclosed hlt hb ?_
    rw [Token.read, if_pos rfl, hn]
    rfl
  | ok n =>
    rw [commentExtent_of_ok hs hn]
    exact agrees_of_skipped hlt hb (.comment rfl hn) (.inl rfl) (by rw [hs])

/-- A quoted literal is taken without a fault. -/
theorem quoted_agrees (hlt : frame.cur < frame.stop) (hb : src[frame.cur]? = some b)
    (hquote : Byte.isQuote b = true) :
    Agrees src (State.onText src)
      (do let k ← quoted src frame.cur true; takeLiteral src st frame below k k.stop)
      (ScanState.step opts (st.onText src) (frame.onText src) (below.map (Frame.onText src))) := by
  have hs := drop_of_getElem? hb
  rw [quoted_eq hb]
  cases hn : quotedLength (b :: src.drop (frame.cur + 1)) with
  | error e =>
    rw [quotedExtent_of_error hs hn]
    refine agrees_of_unclosed hlt hb ((Token.read_eq_error_iff ?_).2 ?_)
    · exact Byte.ne_of_class hquote (by decide)
    · rw [stepLength, if_neg (Byte.ne_of_class hquote (by decide)), if_pos hquote, hn]
  | ok n =>
    rw [quotedExtent_of_ok hs hn]
    exact agrees_of_literal hlt hb (.quoted hquote hn) (.inl rfl) rfl (by rw [hs])

/-- A block is taken without a fault. -/
theorem block_agrees (hlt : frame.cur < frame.stop) (hb : src[frame.cur]? = some Byte.openBrace) :
    Agrees src (State.onText src)
      (do let close ← block src frame.cur; takeBlock opts src st frame below close)
      (ScanState.step opts (st.onText src) (frame.onText src) (below.map (Frame.onText src))) := by
  have hs := drop_of_getElem? hb
  rw [block_eq]
  cases hn : blockLength (Byte.openBrace :: src.drop (frame.cur + 1)) with
  | error e =>
    rw [blockStop_of_error hs hn]
    refine agrees_of_unclosed hlt hb ?_
    rw [Token.read, if_neg (by decide), if_pos rfl, hn]
    rfl
  | ok n =>
    have hbounds := blockLength_bounds hn
    have hlen := (List.getElem?_eq_some_iff.1 hb).1
    have ht : Token.Reads (frame.onText src).cursor.lead Byte.openBrace (src.drop (frame.cur + 1))
      ⟨.block, n⟩ := .block rfl hn
    rw [List.length_drop] at hbounds
    rw [blockStop_of_ok hs hn, ScanState.step_of_block (Frame.rest_onText hb) (Frame.lt_onText hlt)
      ht.read rfl]
    exact takeBlock_agrees hb hbounds.1 (by omega)

/-- **A step is taken without a fault** where the scope has come to its end or stands in the source. -/
theorem step_agrees (h : frame.stop ≤ frame.cur ∨ frame.cur < src.length) :
    Agrees src (State.onText src) (step opts src st frame below)
      (ScanState.step opts (st.onText src) (frame.onText src) (below.map (Frame.onText src))) := by
  by_cases hend : frame.stop ≤ frame.cur
  · rw [step, if_pos hend, ScanState.step_of_end (.inr (by rw [Frame.offset_onText]; exact hend))]
    exact Agrees.ok (State.mk below _ _)
  have hlt : frame.cur < frame.stop := Nat.lt_of_not_le hend
  obtain ⟨b, hb⟩ : ∃ b, src[frame.cur]? = some b :=
    ⟨_, List.getElem?_eq_getElem (h.resolve_left hend)⟩
  have hs := drop_of_getElem? hb
  rw [step, if_neg hend, byteAt_of_some hb, ok_bind]
  -- one case for each kind of byte, in the order in which the step tells them apart
  split
  · next hfeed =>
    subst hfeed
    refine agrees_of_skipped hlt hb (.other ?_ ?_ ?_ rfl rfl) (.inr (.inr rfl)) (by rw [hs]; rfl)
    all_goals decide
  · next hfeed =>
    split
    · next hslash => exact comment_agrees hlt (hslash ▸ hb)
    · next hslash =>
      split
      · next hbrace => exact block_agrees hlt (hbrace ▸ hb)
      · next hbrace =>
        split
        · next hsemi =>
          have ht : Token.Reads (frame.onText src).cursor.lead b (src.drop (frame.cur + 1))
            ⟨.semicolon, 1⟩ := .semicolon hsemi
          rw [ScanState.step_of_semicolon (Frame.rest_onText hb) (Frame.lt_onText hlt) ht.read rfl]
          simp only [Frame.onText, Cursor.advance_ofOffset, ← Frame.onText_enter]
          exact Agrees.ok (State.mk (_ :: below) _ _)
        · next hsemi =>
          split
          · next hquote => exact quoted_agrees hlt hb hquote
          · next hquote =>
            split
            · next hdigit => exact takeDigit_agrees hlt hb hdigit
            · next hdigit =>
              have ht : Token.Reads (leadOf (src.take frame.cur)) b (src.drop (frame.cur + 1))
                ⟨.other, 1⟩ :=
                .other hslash hbrace hsemi (Bool.eq_false_iff.2 hquote) (Bool.eq_false_iff.2 hdigit)
              refine agrees_of_skipped hlt hb ht (.inr (.inr rfl)) ?_
              rw [hs]
              show _ = (⟨_, newlines (b :: [])⟩ : Extent)
              rw [newlines_cons hfeed]
              rfl

end

/-! ## Runs -/

/-- A step that gives a state is one on the text. -/
theorem onText_of_step {opts : LexOptions} {src : Bytes} {st st' : State} {frame : Frame}
    {below : List Frame} (h : step opts src st frame below = .ok st') :
    ScanState.step opts (st.onText src) (frame.onText src) (below.map (Frame.onText src)) =
      .ok (st'.onText src) := by
  have hin : frame.stop ≤ frame.cur ∨ frame.cur < src.length := by
    by_cases hend : frame.stop ≤ frame.cur
    · exact .inl hend
    · -- a byte was looked at
      right
      cases hb : src[frame.cur]? with
      | some b => exact (List.getElem?_eq_some_iff.1 hb).1
      | none =>
        rw [step, if_neg hend, byteAt, hb] at h
        cases h
  have hagrees : Agrees src (State.onText src) (step opts src st frame below) _ := step_agrees hin
  rw [h] at hagrees
  rcases hagrees.inv with ⟨next, hx, hy⟩ | ⟨e, hx, -⟩
  · cases hx
    exact hy
  · cases hx

/-- Takes steps until no scope is open. -/
def run (opts : LexOptions) (src : Bytes) (st : State) : Checked State :=
  match _hf : st.frames with
  | [] => return st
  | frame :: below =>
    match _hs : step opts src st frame below with
    | .error e => .error e
    | .ok next => run opts src next
termination_by ScanState.weight (st.onText src).frames
decreasing_by
  rw [show (st.onText src).frames = (frame :: below).map (Frame.onText src) by rw [State.onText, _hf]]
  exact ScanState.weight_step (onText_of_step _hs)

theorem frames_onText {src : Bytes} {st : State} {frame : Frame} {below : List Frame}
    (hf : st.frames = frame :: below) :
    (st.onText src).frames = frame.onText src :: below.map (Frame.onText src) := by
  rw [State.onText, hf]
  rfl

theorem run_onText {opts : LexOptions} {src : Bytes} {st : State} {frame : Frame} {below : List Frame}
    (hf : st.frames = frame :: below) :
    (st.onText src).run opts =
      match ScanState.step opts (st.onText src) (frame.onText src) (below.map (Frame.onText src)) with
      | .ok next => next.run opts
      | .error e => .error e := by
  obtain ⟨frames, line, found⟩ := st
  subst hf
  exact ScanState.run_cons line found

/-- **A run from a state that the scan comes to does not fault**, and goes as the one on the text. -/
theorem run_agrees {opts : LexOptions} {src : Bytes} {st : State}
    (h : Reachable opts src (st.onText src)) :
    Agrees src (State.onText src) (run opts src st) ((st.onText src).run opts) := by
  fun_induction run opts src st with
  | case1 st hf =>
    obtain ⟨frames, line, found⟩ := st
    subst hf
    show Agrees _ _ _ (ScanState.run opts ⟨[], line, found⟩)
    rw [ScanState.run_nil]
    exact Agrees.ok (State.mk [] line found)
  | case2 st frame below hf x hs =>
    -- the scope ends in the source, so a step can only fail as it does on the text
    have hstop : frame.stop ≤ src.length := h.stop_le_length (frames_onText hf)
    have hagrees : Agrees src (State.onText src) (step opts src st frame below) _ :=
      step_agrees (by omega)
    rw [hs] at hagrees
    rw [run_onText hf]
    rcases hagrees.inv with ⟨next, hx, -⟩ | ⟨e, hx, hy⟩
    · cases hx
    · rw [hx, hy]
      exact .error e
  | case3 st frame below hf next hs ih =>
    have hstep := onText_of_step hs
    rw [run_onText hf, hstep]
    exact ih (h.step (frames_onText hf) hstep)

theorem onText_start (opts : LexOptions) (src : Bytes) :
    (State.start opts src).onText src = ScanState.start opts src := by
  have hstart : Cursor.ofOffset src 0 = .start src := Cursor.advance_zero _
  rw [State.start, State.onText, List.map_singleton, Frame.onText_enter, hstart]
  rfl

/-- The magic literals of a source, their order checked before they are given out. -/
def scan (opts : LexOptions) (src : Bytes) : Checked (List Finding) := do
  let last ← run opts src (.start opts src)
  if inDiscoveryOrder last.found.toList then return last.found.toList
  else .error (.fault .disorder)

/-- The scan by positions goes as the scan. -/
theorem scan_eq_of_scan (opts : LexOptions) (src : Bytes) :
    scan opts src = Checked.of (MagicNumbers.scan opts src) := by
  have hreach : Reachable opts src ((State.start opts src).onText src) := by
    rw [onText_start]
    exact .start
  rw [scan, MagicNumbers.scan, ← onText_start]
  rcases (run_agrees hreach).inv with ⟨last, hx, hy⟩ | ⟨e, hx, hy⟩
  · have hordered := (hreach.run_ok hy).1.ordered
    have hcheck : inDiscoveryOrder last.found.toList = true :=
      inDiscoveryOrder_of_pairwise hordered.ordered hordered.stands
    rw [hx, hy, ok_bind, if_pos hcheck]
    rfl
  · rw [hx, hy]
    rfl

/-- **A scan never faults**, whatever the source and the keywords are: every byte that it looks at and
    every stretch that it cuts out lies in the source, no number is taken from a smaller one, and what
    is found is in order.  It ends as the scan does: with the findings, or with what is not closed. -/
theorem scan_never_faults (opts : LexOptions) (src : Bytes) :
    (∀ fault, scan opts src ≠ .error (.fault fault)) ∧
      scan opts src = Checked.of (MagicNumbers.scan opts src) := by
  have heq := scan_eq_of_scan opts src
  refine ⟨?_, heq⟩
  intro fault hfault
  rw [heq] at hfault
  cases hscan : MagicNumbers.scan opts src with
  | ok found => rw [hscan] at hfault; cases hfault
  | error e => rw [hscan] at hfault; cases hfault

/-- The checks are real: a scope that ends behind the source is scanned into a fault. -/
example : (run {} [] ⟨[.enter {} 0 1], 1, #[]⟩) = .error (.fault (.index 0)) := by
  decide +kernel

end Indexed

end MagicNumbers
