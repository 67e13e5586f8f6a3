/-
  A source read by positions, every access checked.

  Lexing takes its lengths off the head of a text, where nothing is out of reach.  Here the same answers are
  computed at positions of one source: a byte is taken at an index, a stretch is cut out between two
  positions, a number is taken from another.  Each of these may fail, and the computation then ends in
  a `Fault`.

  * `byteAt`, `cut`, `minus` — the accesses.
  * `comment_eq`, `quoted_eq`, `block_eq` — a comment, a literal or a block at a position of the source is
    read without a fault, and it is the one that `commentExtent`, `quotedExtent` and `blockStop` tell.
  * `partOfName_eq` — so is the name before a digit, going back.
  * `word_agrees` — so is a word looked for from any position up to any other, in the source or not.
-/
import MagicNumbers.Proofs.Ranges

namespace MagicNumbers.Indexed

/-! ## Faults -/

/-- An access that a source does not allow. -/
inductive Fault where
  /-- There is no byte at the index. -/
  | index (pos : Nat)
  /-- The stretch is reversed, or goes past the end. -/
  | range (start stop : Nat)
  /-- The number taken away is the larger one. -/
  | underflow (n k : Nat)
  /-- What was found is not in the order of the source. -/
  | disorder
  deriving DecidableEq, Repr

/-- Why a computation ends without a value: the source is at fault, or the computation is. -/
inductive Abort where
  | malformed (e : Malformed)
  | fault (f : Fault)
  deriving DecidableEq, Repr

/-- A computation whose accesses are checked. -/
abbrev Checked (α : Type) := Except Abort α

/-- A computation that makes no access. -/
def Checked.of {α : Type} : Except Malformed α → Checked α
  | .ok a => .ok a
  | .error e => .error (.malformed e)

theorem ok_bind {α β : Type} (a : α) (f : α → Checked β) : (Except.ok a >>= f) = f a := rfl

/-! ## Accesses -/

/-- The byte at an index. -/
def byteAt (src : Bytes) (pos : Nat) : Checked UInt8 :=
  match src[pos]? with
  | some b => .ok b
  | none => .error (.fault (.index pos))

/-- The bytes from `start` up to `stop`. -/
def cut (src : Bytes) (start stop : Nat) : Checked Bytes :=
  if start ≤ stop ∧ stop ≤ src.length then .ok (slice src start stop)
  else .error (.fault (.range start stop))

/-- The difference of two numbers. -/
def minus (n k : Nat) : Checked Nat :=
  if k ≤ n then .ok (n - k) else .error (.fault (.underflow n k))

theorem byteAt_of_some {src : Bytes} {pos : Nat} {b : UInt8} (h : src[pos]? = some b) :
    byteAt src pos = .ok b := by
  rw [byteAt, h]

theorem getElem?_of_byteAt {src : Bytes} {pos : Nat} {b : UInt8} (h : byteAt src pos = .ok b) :
    src[pos]? = some b := by
  rw [byteAt] at h
  split at h
  · next hb => cases h; exact hb
  · cases h

theorem cut_of_le {src : Bytes} {start stop : Nat} (h : start ≤ stop) (hstop : stop ≤ src.length) :
    cut src start stop = .ok (slice src start stop) :=
  if_pos ⟨h, hstop⟩

theorem minus_of_le {n k : Nat} (h : k ≤ n) : minus n k = .ok (n - k) := if_pos h

/-- The error for a construct that opens at `offset` and is not closed.  Its line takes the text
    before it. -/
def unclosed (src : Bytes) (construct : Construct) (offset : Nat) {α : Type} : Checked α := do
  let offset := min offset src.length
  let before ← cut src 0 offset
  .error (.malformed ⟨⟨construct, offset⟩, newlines before + 1⟩)

theorem unclosed_eq (src : Bytes) (construct : Construct) (offset : Nat) {α : Type} :
    (unclosed src construct offset : Checked α) =
      .error (.malformed (.ofSource src construct offset)) := by
  rw [unclosed, cut_of_le (Nat.zero_le _) (Nat.min_le_right _ _)]
  rfl

/-- The extent from `start` up to `stop`.  The stretch is cut out only where its lines are counted. -/
def spanning (src : Bytes) (start stop : Nat) (countLines : Bool) : Checked Extent :=
  if countLines then do
    let passed ← cut src start stop
    return ⟨stop, newlines passed⟩
  else return ⟨stop, 0⟩

theorem spanning_eq {src : Bytes} {pos n : Nat} (h : pos + n ≤ src.length) (countLines : Bool) :
    spanning src pos (pos + n) countLines = .ok (Extent.over src pos n countLines) := by
  cases countLines with
  | false => rfl
  | true =>
    rw [spanning, if_pos rfl, cut_of_le (Nat.le_add_right pos n) h, slice_add]
    rfl

/-! ## Comments -/

/-- The extent of the comment that begins at `pos`. -/
def comment (src : Bytes) (pos : Nat) (countLines : Bool) : Checked Extent :=
  match src[pos + 1]? with
  | some b =>
    if b = Byte.slash then do
      let body ← cut src (pos + 2) src.length
      spanning src pos (pos + 2 + lineLength body) countLines
    else if b = Byte.star then do
      let body ← cut src (pos + 2) src.length
      match closerFrom 0 body with
      | some n => spanning src pos (pos + 2 + n) countLines
      | none => unclosed src .blockComment pos
    else return ⟨pos + 1, 0⟩
  | none => return ⟨pos + 1, 0⟩

/-- Where a comment closes does not depend on what has been passed before. -/
theorem closerFrom_add (n k : Nat) (s : Bytes) :
    closerFrom (n + k) s = (closerFrom n s).map (· + k) := by
  fun_induction closerFrom n s with
  | case1 n a b s hab =>
    rw [closerFrom, if_pos hab, Option.map_some, Nat.add_right_comm]
  | case2 n a b s hab ih =>
    rw [closerFrom, if_neg hab, Nat.add_right_comm]
    exact ih
  | case3 n s hs =>
    rw [closerFrom]
    · rfl
    · exact hs

/-- **A comment is read without a fault**, at whatever position. -/
theorem comment_eq (src : Bytes) (pos : Nat) (countLines : Bool) :
    comment src pos countLines = Checked.of (commentExtent src pos countLines) := by
  have lone : (return ⟨pos + 1, 0⟩ : Checked Extent) =
      Checked.of ((locate src pos (.ok 1)).map fun n =>
        Extent.over src pos n (countLines && n != 1)) := by
    cases countLines with
    | true => rfl
    | false => rfl
  rw [comment, commentExtent]
  cases hb : src[pos + 1]? with
  | none =>
    -- at most one byte is left, which begins no comment
    have hlen : (src.drop pos).length ≤ 1 := by
      have hle := List.getElem?_eq_none_iff.1 hb
      rw [List.length_drop]
      omega
    have hone : commentLength (src.drop pos) = .ok 1 := by
      rcases hs : src.drop pos with _ | ⟨a, _ | ⟨b, s⟩⟩
      · rfl
      · rfl
      · rw [hs, List.length_cons, List.length_cons] at hlen
        omega
    rw [hone]
    exact lone
  | some b =>
    obtain ⟨hlt, -⟩ := List.getElem?_eq_some_iff.1 hb
    obtain ⟨a, ha⟩ : ∃ a, src[pos]? = some a := ⟨_, List.getElem?_eq_getElem (by omega)⟩
    have hs : src.drop pos = a :: b :: src.drop (pos + 2) := by
      rw [drop_of_getElem? ha, drop_of_getElem? hb]
    have hcut : cut src (pos + 2) src.length = .ok (src.drop (pos + 2)) := by
      rw [cut_of_le (by omega) (Nat.le_refl _), slice, ← List.length_drop, List.take_length]
    have hrest := List.length_drop (i := pos + 2) (l := src)
    -- a comment is longer than its slash, so its lines count if asked for
    have long : ∀ n, (countLines && 2 + n != 1) = countLines := by
      intro n
      rw [show (2 + n != 1) = true from bne_iff_ne.2 (by omega), Bool.and_true]
    rw [hs, commentLength]
    simp only [hcut, ok_bind]
    split
    · have hle := lineLength_le (src.drop (pos + 2))
      rw [Nat.add_assoc, spanning_eq (by omega), locate_ok, Except.map, long]
      rfl
    · split
      · rw [show closerFrom 2 (src.drop (pos + 2)) = _ from closerFrom_add 0 2 _]
        cases hcloser : closerFrom 0 (src.drop (pos + 2)) with
        | none =>
          show unclosed src .blockComment pos =
            .error (.malformed (.ofSource src .blockComment (0 + pos)))
          rw [unclosed_eq, Nat.zero_add]
        | some n =>
          have hle := (closerFrom_bounds hcloser).2
          show spanning src pos (pos + 2 + n) countLines = _
          rw [Nat.add_assoc, spanning_eq (by omega), Option.map_some, Nat.add_comm n, locate_ok,
            Except.map, long]
          rfl
      · exact lone

/-! ## Ends of constructs -/

/-- Where a construct ends that begins at `pos` and has the given length. -/
def endAt (src : Bytes) (pos : Nat) (length : Except Unclosed Nat) : Checked Nat :=
  Checked.of ((locate src pos length).map (pos + ·))

@[simp] theorem endAt_ok (src : Bytes) (pos n : Nat) : endAt src pos (.ok n) = .ok (pos + n) := rfl

@[simp] theorem endAt_error (src : Bytes) (pos : Nat) (e : Unclosed) :
    endAt src pos (.error e) = .error (.malformed ((e.shift pos).inSource src)) := rfl

theorem endAt_eq_ok_iff {src : Bytes} {pos stop : Nat} {length : Except Unclosed Nat} :
    endAt src pos length = .ok stop ↔ ∃ n, length = .ok n ∧ pos + n = stop := by
  cases length with
  | ok n => simp
  | error e => simp

theorem endAt_eq_error_iff {src : Bytes} {pos : Nat} {length : Except Unclosed Nat} {x : Abort} :
    endAt src pos length = .error x ↔
      ∃ e, length = .error e ∧ x = .malformed ((e.shift pos).inSource src) := by
  cases length with
  | ok n => simp
  | error e => simp [eq_comm]

/-- An error that is found `n` bytes further on opens there. -/
theorem endAt_shift (src : Bytes) (pos n : Nat) (e : Unclosed) :
    endAt src pos (.error (e.shift n)) = endAt src (pos + n) (.error e) := by
  rw [endAt_error, endAt_error, Unclosed.shift_shift, Nat.add_comm]

/-- A construct that lacks its end is where the computation ends. -/
theorem unclosed_eq_endAt (src : Bytes) (construct : Construct) (pos : Nat) :
    unclosed src construct pos = endAt src pos (.error ⟨construct, 0⟩) := by
  rw [unclosed_eq, endAt_error, Unclosed.shift, Unclosed.inSource, Nat.zero_add]

/-- The end of a comment whose lines do not count. -/
def commentEnd (src : Bytes) (pos : Nat) : Checked Nat := (comment src pos false).map Extent.stop

theorem commentEnd_eq (src : Bytes) (pos : Nat) :
    commentEnd src pos = endAt src pos (commentLength (src.drop pos)) := by
  rw [commentEnd, comment_eq, commentExtent]
  cases commentLength (src.drop pos) with
  | error e => rfl
  | ok n => rfl

theorem lt_of_commentEnd {src : Bytes} {pos stop : Nat} (h : commentEnd src pos = .ok stop) :
    pos < stop := by
  rw [commentEnd_eq] at h
  obtain ⟨n, hn, rfl⟩ := endAt_eq_ok_iff.1 h
  have hpos := commentLength_pos hn
  omega

/-! ## Quoted literals -/

/-- The end of a literal that opens at `pos`, going on from `i`. -/
def quotedEnd (src : Bytes) (quote : UInt8) (pos i : Nat) : Checked Nat :=
  match _hb : src[i]? with
  | none => unclosed src (.ofQuote quote) pos
  | some b =>
    if b = Byte.slash then
      match _hk : commentEnd src i with
      | .error e => .error e
      | .ok stop => quotedEnd src quote pos stop
    else if b = Byte.backslash then quotedEnd src quote pos (i + 2)
    else if b = quote then return i + 1
    else quotedEnd src quote pos (i + 1)
termination_by src.length - i
decreasing_by
  all_goals have := (List.getElem?_eq_some_iff.1 _hb).1
  · have := lt_of_commentEnd _hk
    omega
  · omega
  · omega

/-- The extent of the literal whose quote is at `pos`. -/
def quoted (src : Bytes) (pos : Nat) (countLines : Bool) : Checked Extent := do
  let quote ← byteAt src pos
  let stop ← quotedEnd src quote pos (pos + 1)
  spanning src pos stop countLines

theorem quotedEnd_eq (src : Bytes) (quote : UInt8) (pos n : Nat) :
    quotedEnd src quote pos (pos + n) =
      endAt src pos (quotedFrom quote n (src.drop (pos + n))) := by
  generalize hi : pos + n = i
  fun_induction quotedEnd src quote pos i generalizing n with
  | case1 i hb =>
    rw [List.drop_eq_nil_of_le (List.getElem?_eq_none_iff.1 hb), quotedFrom, unclosed_eq_endAt]
  | case2 i x hk hb =>
    subst hi
    rw [commentEnd_eq, drop_of_getElem? hb] at hk
    obtain ⟨u, hu, -⟩ := endAt_eq_error_iff.1 hk
    rw [drop_of_getElem? hb, quotedFrom, if_pos rfl, ← hk, hu]
    exact (endAt_shift src pos n u).symm
  | case3 i stop hk hb ih =>
    subst hi
    rw [commentEnd_eq, drop_of_getElem? hb] at hk
    obtain ⟨k, hlength, rfl⟩ := endAt_eq_ok_iff.1 hk
    have hpos := commentLength_pos hlength
    rw [drop_of_getElem? hb, quotedFrom, if_pos rfl, hlength]
    show _ = endAt src pos (quotedFrom quote (n + k) ((src.drop (pos + n + 1)).drop (k - 1)))
    rw [ih (n + k) (by omega), List.drop_drop, show pos + n + 1 + (k - 1) = pos + n + k by omega]
  | case4 i hb hne ih =>
    subst hi
    rw [drop_of_getElem? hb, quotedFrom, if_neg hne, if_pos rfl, List.drop_drop]
    exact ih (n + 2) (by omega)
  | case5 i hb hslash hescape =>
    subst hi
    rw [drop_of_getElem? hb, quotedFrom, if_neg hslash, if_neg hescape, if_pos rfl]
    rfl
  | case6 i b hb hslash hescape hquote ih =>
    subst hi
    rw [drop_of_getElem? hb, quotedFrom, if_neg hslash, if_neg hescape, if_neg hquote]
    exact ih (n + 1) (by omega)

/-- **A literal is read without a fault** where its quote is. -/
theorem quoted_eq {src : Bytes} {pos : Nat} {b : UInt8} (hb : src[pos]? = some b)
    (countLines : Bool) : quoted src pos countLines = Checked.of (quotedExtent src pos countLines) := by
  have hs := drop_of_getElem? hb
  rw [quoted, byteAt_of_some hb, ok_bind, quotedEnd_eq, quotedExtent, hs, quotedLength]
  cases hn : quotedFrom b 1 (src.drop (pos + 1)) with
  | error e => rfl
  | ok n =>
    have hle := (quotedFrom_bounds hn).2
    have hlen := congrArg List.length hs
    rw [List.length_drop, List.length_cons] at hlen
    rw [endAt_ok, ok_bind, spanning_eq (by omega)]
    rfl

/-! ## Blocks -/

/-- The end of the comment, the literal or the single byte that `b` at `i` begins. -/
def stride (src : Bytes) (i : Nat) (b : UInt8) : Checked Nat :=
  if b = Byte.slash then commentEnd src i
  else if Byte.isQuote b then (quoted src i false).map Extent.stop
  else return i + 1

theorem stride_eq {src : Bytes} {i : Nat} {b : UInt8} (hb : src[i]? = some b) :
    stride src i b = endAt src i (stepLength b (src.drop (i + 1))) := by
  rw [stride, stepLength, ← drop_of_getElem? hb]
  split
  · exact commentEnd_eq src i
  · split
    · rw [quoted_eq hb, quotedExtent]
      cases quotedLength (src.drop i) with
      | error e => rfl
      | ok n => rfl
    · rfl

theorem lt_of_stride {src : Bytes} {i stop : Nat} {b : UInt8} (hb : src[i]? = some b)
    (h : stride src i b = .ok stop) : i < stop := by
  rw [stride_eq hb] at h
  obtain ⟨n, hn, rfl⟩ := endAt_eq_ok_iff.1 h
  have hpos := stepLength_pos hn
  omega

/-- The end of a block that opens at `pos`, going on from `i` with `depth` braces to close. -/
def blockEnd (src : Bytes) (pos depth i : Nat) : Checked Nat :=
  if depth = 0 then return i
  else
    match _hb : src[i]? with
    | none => unclosed src .brace pos
    | some b =>
      if b = Byte.openBrace then blockEnd src pos (depth + 1) (i + 1)
      else if b = Byte.closeBrace then
        match minus depth 1 with
        | .error e => .error e
        | .ok depth => blockEnd src pos depth (i + 1)
      else
        match _hk : stride src i b with
        | .error e => .error e
        | .ok stop => blockEnd src pos depth stop
termination_by src.length - i
decreasing_by
  all_goals have := (List.getElem?_eq_some_iff.1 _hb).1
  · omega
  · omega
  · have := lt_of_stride _hb _hk
    omega

/-- The end of the block whose brace is at `pos`. -/
def block (src : Bytes) (pos : Nat) : Checked Nat := blockEnd src pos 1 (pos + 1)

theorem blockEnd_eq (src : Bytes) (pos depth n : Nat) :
    blockEnd src pos (depth + 1) (pos + n) =
      endAt src pos (blockFrom depth n (src.drop (pos + n))) := by
  generalize hi : pos + n = i
  generalize hd : depth + 1 = left
  fun_induction blockEnd src pos left i generalizing depth n with
  | case1 => cases hd
  | case2 left i _ hb =>
    rw [List.drop_eq_nil_of_le (List.getElem?_eq_none_iff.1 hb), blockFrom, unclosed_eq_endAt]
  | case3 left i _ hb ih =>
    subst hi
    rw [drop_of_getElem? hb, blockFrom_openBrace]
    exact ih (depth + 1) (n + 1) rfl (by omega)
  | case4 left i _ x hminus hb =>
    -- a brace is open, so there is one to close
    rw [minus_of_le (by omega)] at hminus
    cases hminus
  | case5 left i _ inner hminus hb _ ih =>
    subst hi hd
    rw [minus_of_le (by omega), Nat.add_sub_cancel] at hminus
    cases hminus
    rw [drop_of_getElem? hb]
    cases inner with
    | zero =>
      rw [blockFrom_closeBrace_zero, blockEnd, if_pos rfl]
      rfl
    | succ depth =>
      rw [blockFrom_closeBrace_succ]
      exact ih depth (n + 1) rfl rfl
  | case6 left i _ b hb hopen hclose x hk =>
    subst hi
    rw [stride_eq hb] at hk
    obtain ⟨u, hu, -⟩ := endAt_eq_error_iff.1 hk
    rw [drop_of_getElem? hb, blockFrom_step hopen hclose, ← hk, hu]
    exact (endAt_shift src pos n u).symm
  | case7 left i _ b hb hopen hclose stop hk ih =>
    subst hi
    rw [stride_eq hb] at hk
    obtain ⟨k, hlength, rfl⟩ := endAt_eq_ok_iff.1 hk
    have hpos := stepLength_pos hlength
    rw [drop_of_getElem? hb, blockFrom_step hopen hclose, hlength]
    show _ = endAt src pos (blockFrom depth (n + k) ((src.drop (pos + n + 1)).drop (k - 1)))
    rw [ih depth (n + k) (by omega) hd, List.drop_drop,
      show pos + n + 1 + (k - 1) = pos + n + k by omega]

/-- **A block is read without a fault**, and none of its braces is closed twice. -/
theorem block_eq (src : Bytes) (pos : Nat) : block src pos = Checked.of (blockStop src pos) := by
  rw [block, blockEnd_eq, blockStop, blockLength, List.drop_drop]
  rfl

/-! ## Names and numbers -/

/-- Where the run of name bytes begins that goes on to `i`.  The byte before `i` is looked at only if
    there is one. -/
def runStart (src : Bytes) : Nat → Checked Nat
  | 0 => return 0
  | i + 1 => do
    let b ← byteAt src i
    if Byte.isNameByte b then runStart src i else return i + 1

/-- Whether the byte at `pos` belongs to a name. -/
def partOfName (src : Bytes) (pos : Nat) : Checked Bool := do
  let i ← runStart src pos
  let b ← byteAt src i
  return Byte.isNameLetter b

/-- Going back over a name leads to the byte that leads it. -/
theorem exists_runStart {src : Bytes} {pos : Nat} {b : UInt8} (hb : src[pos]? = some b) :
    ∃ i, runStart src pos = .ok i ∧ src[i]? = some ((leadOf (src.take pos)).getD b) := by
  induction pos generalizing b with
  | zero => exact ⟨0, rfl, hb⟩
  | succ pos ih =>
    obtain ⟨hlt, -⟩ := List.getElem?_eq_some_iff.1 hb
    obtain ⟨a, ha⟩ : ∃ a, src[pos]? = some a := ⟨_, List.getElem?_eq_getElem (by omega)⟩
    rw [runStart, byteAt_of_some ha, ok_bind, List.take_add_one, ha, Option.toList_some, leadOf_concat,
      nextLead]
    split
    · exact ih ha
    · exact ⟨pos + 1, rfl, hb⟩

/-- **Going back over a name does not leave the source.** -/
theorem partOfName_eq {src : Bytes} {pos : Nat} {b : UInt8} (hb : src[pos]? = some b) :
    partOfName src pos = .ok (isPartOfName b (leadOf (src.take pos))) := by
  obtain ⟨i, hi, hlead⟩ := exists_runStart hb
  rw [partOfName, hi, ok_bind, byteAt_of_some hlead]
  rfl

/-- Whether the byte at `pos` is a `0` or a `1` that stands alone.  Only the byte itself has to be there. -/
def sentinel (src : Bytes) (pos : Nat) : Checked Bool := do
  let digit ← byteAt src pos
  return isSentinel digit (src.drop (pos + 1))

/-- Whether the digit at `pos` begins no literal: it belongs to a name, or else it stands alone. -/
def noLiteral (src : Bytes) (pos : Nat) : Checked Bool := do
  let named ← partOfName src pos
  if named then return true else sentinel src pos

/-- The end of the number that begins at `pos`. -/
def numberEnd (src : Bytes) (pos : Nat) : Checked Nat := do
  let digit ← byteAt src pos
  return pos + numberLength digit (src.drop (pos + 1))

theorem noLiteral_eq {src : Bytes} {pos : Nat} {b : UInt8} (hb : src[pos]? = some b) :
    noLiteral src pos =
      .ok (isPartOfName b (leadOf (src.take pos)) || isSentinel b (src.drop (pos + 1))) := by
  rw [noLiteral, partOfName_eq hb, ok_bind, sentinel, byteAt_of_some hb]
  cases isPartOfName b (leadOf (src.take pos)) with
  | true => rfl
  | false => rfl

theorem numberEnd_eq {src : Bytes} {pos : Nat} {b : UInt8} (hb : src[pos]? = some b) :
    numberEnd src pos = .ok (pos + numberLength b (src.drop (pos + 1))) := by
  rw [numberEnd, byteAt_of_some hb]
  rfl

/-! ## Words -/

/-- What is computed on positions agrees with what is computed on texts: it gives the same value, or the
    same error placed in the source. -/
inductive Agrees (src : Bytes) {α β : Type} (f : α → β) : Checked α → Except Unclosed β → Prop
  | ok (a : α) : Agrees src f (.ok a) (.ok (f a))
  | error (e : Unclosed) : Agrees src f (.error (.malformed (e.inSource src))) (.error e)

theorem Agrees.inv {src : Bytes} {α β : Type} {f : α → β} {x : Checked α} {y : Except Unclosed β}
    (h : Agrees src f x y) :
    (∃ a, x = .ok a ∧ y = .ok (f a)) ∨
      ∃ e : Unclosed, x = .error (.malformed (e.inSource src)) ∧ y = .error e := by
  cases h with
  | ok a => exact .inl ⟨a, rfl, rfl⟩
  | error e => exact .inr ⟨e, rfl, rfl⟩

/-- How far a search has come: the word was found, or it is to go on from `next`. -/
structure Progress where
  found : Bool
  next : Nat
  deriving DecidableEq, Repr

/-- The same on the text. -/
def Progress.onText (src : Bytes) (p : Progress) : Search :=
  if p.found then .found else .paused (.ofOffset src p.next)

theorem Progress.onText_of_found {p : Progress} (h : p.found = true) (src : Bytes) :
    p.onText src = .found := if_pos h

theorem Progress.onText_of_not_found {p : Progress} (h : ¬p.found = true) (src : Bytes) :
    p.onText src = .paused (.ofOffset src p.next) := if_neg h

/-- Whether the byte before `i`, if there is one, is in no name. -/
def opensAt (src : Bytes) (i : Nat) : Checked Bool :=
  if i = 0 then return true
  else do
    let before ← minus i 1
    let b ← byteAt src before
    return !Byte.isNameByte b

/-- Whether `word` stands at `i` as a whole word.  It is cut out only between bytes that bound it. -/
def wordAt (src word : Bytes) (i : Nat) : Checked Bool := do
  let opens ← opensAt src i
  if opens && !(src[i + word.length]?).any Byte.isNameByte then
    let text ← cut src i (i + word.length)
    return text == word
  else return false

/-- Looks for a word that begins with `first`, from `i` through `last`. -/
def wordFrom (src word : Bytes) (first : UInt8) (last i : Nat) : Checked Progress :=
  if i ≤ last then
    match _hb : byteAt src i with
    | .error e => .error e
    | .ok b =>
      if b = Byte.slash ∨ Byte.isQuote b then
        match _hk : stride src i b with
        | .error e => .error e
        | .ok stop => wordFrom src word first last stop
      else if b = first then
        match wordAt src word i with
        | .error e => .error e
        | .ok true => return ⟨true, i⟩
        | .ok false => wordFrom src word first last (i + 1)
      else wordFrom src word first last (i + 1)
  else return ⟨false, i⟩
termination_by last + 1 - i
decreasing_by
  · have := lt_of_stride (getElem?_of_byteAt _hb) _hk
    omega
  · omega
  · omega

/-- Looks for a word from `pos` on until it does not fit before `stop` or the end of the source. -/
def word (src : Bytes) (pos stop : Nat) : Bytes → Checked Progress
  | [] => return ⟨false, pos⟩
  | first :: rest =>
    let stop := min stop src.length
    let length := rest.length + 1
    if length ≤ stop then wordFrom src (first :: rest) first (stop - length) pos
    else return ⟨false, pos⟩

theorem opensAt_eq {src : Bytes} {i : Nat} (h : i ≤ src.length) :
    opensAt src i = .ok (leadOf (src.take i)).isNone := by
  cases i with
  | zero => rfl
  | succ i =>
    have hb : src[i]? = some src[i] := List.getElem?_eq_getElem h
    rw [opensAt, if_neg (Nat.succ_ne_zero i), minus_of_le (Nat.le_add_left 1 i), ok_bind,
      Nat.add_sub_cancel, byteAt_of_some hb, ok_bind, List.take_add_one, hb, Option.toList_some,
      leadOf_concat, nextLead]
    split
    · next hname => rw [hname]; rfl
    · next hname => rw [Bool.eq_false_iff.2 hname]; rfl

/-- Where a word fits, it is compared without a fault. -/
theorem wordAt_eq {src word : Bytes} {i : Nat} (h : i + word.length ≤ src.length) :
    wordAt src word i = .ok (standsAt word (.ofOffset src i)) := by
  have htext : (slice src i (i + word.length) == word) = word.isPrefixOf (src.drop i) := by
    rw [Bool.eq_iff_iff, beq_iff_eq, List.isPrefixOf_iff_prefix, List.prefix_iff_eq_take, slice_add,
      eq_comm]
  rw [wordAt, opensAt_eq (by omega), ok_bind, cut_of_le (Nat.le_add_right _ _) h, ok_bind, htext,
    standsAt, Cursor.lead_ofOffset, Cursor.rest_ofOffset, List.drop_drop, List.head?_drop]
  split
  · next hopen => rw [hopen, Bool.true_and]; rfl
  · next hopen => rw [Bool.eq_false_iff.2 hopen, Bool.false_and]; rfl

/-- A word that begins with another byte does not stand at a place. -/
theorem standsAt_of_ne {word : Bytes} {c : Cursor} {a b : UInt8} {s : Bytes} (hr : c.rest = b :: s)
    (hne : b ≠ a) : standsAt (a :: word) c = false := by
  refine Bool.eq_false_iff.2 fun hstands => ?_
  obtain ⟨-, -, hprefix⟩ := standsAt_iff.1 hstands
  rw [hr, List.cons_prefix_cons] at hprefix
  exact hne hprefix.1.symm

/-- One step of a search from a position where the word fits. -/
theorem searchFrom_ofOffset {src word : Bytes} {stop i : Nat} {b : UInt8} (hb : src[i]? = some b)
    (hle : i + word.length ≤ min stop src.length) :
    searchFrom word stop (.ofOffset src i) =
      if b = Byte.slash ∨ Byte.isQuote b then
        match stepLength b (src.drop (i + 1)) with
        | .ok k => searchFrom word stop (.ofOffset src (i + k))
        | .error e => .error (e.shift i)
      else if standsAt word (.ofOffset src i) then .ok .found
      else searchFrom word stop (.ofOffset src (i + 1)) := by
  have hr : (Cursor.ofOffset src i).rest = b :: src.drop (i + 1) := by
    rw [Cursor.rest_ofOffset, drop_of_getElem? hb]
  have hlen := congrArg List.length hr
  rw [Cursor.rest_ofOffset, List.length_drop] at hlen
  have hfit : (Cursor.ofOffset src i).offset + word.length ≤ stop ∧
      fits word (b :: src.drop (i + 1)) = true := by
    rw [Cursor.offset_ofOffset, fits_iff]
    omega
  have hstep : searchFrom word stop (.ofOffset src i) = _ := searchFrom_of_cons hr
  rw [if_pos hfit] at hstep
  simp only [Cursor.advance_ofOffset, Cursor.offset_ofOffset] at hstep
  exact hstep

/-- A search by positions visits the places that a search on the text does. -/
theorem wordFrom_agrees (src word : Bytes) (first : UInt8) (stop i : Nat)
    (hfit : word.length + 1 ≤ min stop src.length) :
    Agrees src (Progress.onText src)
      (wordFrom src (first :: word) first (min stop src.length - (word.length + 1)) i)
      (searchFrom (first :: word) stop (.ofOffset src i)) := by
  generalize hlast : min stop src.length - (word.length + 1) = last
  generalize hw : first :: word = w
  have hlength : w.length = word.length + 1 := by rw [← hw, List.length_cons]
  fun_induction wordFrom src w first last i with
  | case1 i hi x hb =>
    -- the word fits here, so there is a byte
    have hlt : i < src.length := by omega
    rw [byteAt_of_some (List.getElem?_eq_getElem hlt)] at hb
    cases hb
  | case2 i hi b hb hbs x hk =>
    rw [stride_eq (getElem?_of_byteAt hb)] at hk
    obtain ⟨u, hu, rfl⟩ := endAt_eq_error_iff.1 hk
    rw [searchFrom_ofOffset (getElem?_of_byteAt hb) (by omega), if_pos hbs, hu]
    exact .error (u.shift i)
  | case3 i hi b hb hbs next hk ih =>
    rw [stride_eq (getElem?_of_byteAt hb)] at hk
    obtain ⟨k, hlength, rfl⟩ := endAt_eq_ok_iff.1 hk
    rw [searchFrom_ofOffset (getElem?_of_byteAt hb) (by omega), if_pos hbs, hlength]
    exact ih
  | case4 i hi x hat hb hbs =>
    rw [wordAt_eq (by omega)] at hat
    cases hat
  | case5 i hi hat hb hbs =>
    rw [wordAt_eq (by omega), Except.ok.injEq] at hat
    rw [searchFrom_ofOffset (getElem?_of_byteAt hb) (by omega), if_neg hbs, if_pos hat]
    exact Agrees.ok (Progress.mk true i)
  | case6 i hi hat hb hbs ih =>
    rw [wordAt_eq (by omega), Except.ok.injEq] at hat
    rw [searchFrom_ofOffset (getElem?_of_byteAt hb) (by omega), if_neg hbs,
      if_neg (Bool.eq_false_iff.1 hat)]
    exact ih
  | case7 i hi b hb hbs hne ih =>
    have hr : (Cursor.ofOffset src i).rest = b :: src.drop (i + 1) := by
      rw [Cursor.rest_ofOffset, drop_of_getElem? (getElem?_of_byteAt hb)]
    have hstands : standsAt w (.ofOffset src i) = false := by
      rw [← hw]
      exact standsAt_of_ne hr hne
    rw [searchFrom_ofOffset (getElem?_of_byteAt hb) (by omega), if_neg hbs,
      if_neg (Bool.eq_false_iff.1 hstands)]
    exact ih
  | case8 i hi =>
    rw [searchFrom_of_short (by omega)]
    exact Agrees.ok (Progress.mk false i)

/-- **A word is looked for without a fault**, from any position up to any other: also where the range is
    reversed, past the end or shorter than the word, and for the empty word. -/
theorem word_agrees (src w : Bytes) (pos stop : Nat) :
    Agrees src (Progress.onText src) (word src pos stop w) (search w stop (.ofOffset src pos)) := by
  cases w with
  | nil => exact Agrees.ok (Progress.mk false pos)
  | cons first rest =>
    rw [search_of_ne_nil (List.cons_ne_nil first rest), word]
    split
    · next hfit => exact wordFrom_agrees src rest first stop pos hfit
    · next hfit =>
      rw [searchFrom_of_short (by rw [List.length_cons]; omega)]
      exact Agrees.ok (Progress.mk false pos)

end MagicNumbers.Indexed
