/-
  The grammar of quoted literals.

  What stands between the quotes of a literal splits into pieces: a backslash and the byte it hides, a
  comment, a slash that begins none, or a byte by itself.  Escapes, comments and the closing quote all lay
  claim to the same bytes; here it is shown that there is one way to split them, and what becomes of a
  literal that is not closed.

  * `LiteralPiece`, `Splits` — the grammar, with what follows each piece in the source.
  * `Splits.quotedFrom_append` — lexing passes over pieces one by one.
  * `exists_splits` — every text splits up to a quote, to a comment that is not closed, or to its end.
  * `CommentLeftOpen`, `LiteralLeftOpen` — what is not closed in a source.
  * `quotedExtent_grammar` — a literal is closed where its pieces end at its quote, and nowhere else;
    otherwise a comment inside it is left open, or the source ends first.
-/
import MagicNumbers.Proofs.Comments
import MagicNumbers.Proofs.Extension
import MagicNumbers.Proofs.Nesting

namespace MagicNumbers

/-! ## The grammar -/

/-- A piece of what stands between two quotes, if `after` follows it. -/
inductive LiteralPiece (quote : UInt8) (after : Bytes) : Bytes → Prop
  /-- A backslash and the byte it hides, whatever that is. -/
  | escape (hidden : UInt8) : LiteralPiece quote after [Byte.backslash, hidden]
  /-- A comment through what closes it.  Behind one that only the end of the text closes there is
      nothing. -/
  | comment {form : CommentForm} {inner : Bytes} (h : form.Holds inner after) :
      LiteralPiece quote after (form.comment inner)
  /-- A slash that opens no comment. -/
  | slash (hslash : after.head? ≠ some Byte.slash) (hstar : after.head? ≠ some Byte.star) :
      LiteralPiece quote after [Byte.slash]
  /-- Any other byte but the quote. -/
  | byte {b : UInt8} (hquote : b ≠ quote) (hback : b ≠ Byte.backslash) (hslash : b ≠ Byte.slash) :
      LiteralPiece quote after [b]

/-- A row of pieces, if `after` follows the last of them. -/
inductive Splits (quote : UInt8) (after : Bytes) : List Bytes → Prop
  | nil : Splits quote after []
  | cons {piece : Bytes} {pieces : List Bytes}
      (hpiece : LiteralPiece quote (pieces.flatten ++ after) piece) (h : Splits quote after pieces) :
      Splits quote after (piece :: pieces)

/-! ## One piece -/

/-- The length of the piece that a text begins with, if it begins with one. -/
def pieceLength : Bytes → Except Unclosed Nat
  | [] => .ok 0
  | b :: s =>
    if b = Byte.slash then commentLength (b :: s) else if b = Byte.backslash then .ok 2 else .ok 1

/-- The first byte of a piece, and for a slash what follows it, tell how long the piece is. -/
theorem LiteralPiece.pieceLength_append {quote : UInt8} {after piece : Bytes}
    (h : LiteralPiece quote after piece) : pieceLength (piece ++ after) = .ok piece.length := by
  cases h with
  | escape hidden => rfl
  | @comment form inner h =>
    have hlen := commentLength_comment h
    obtain ⟨s, hs⟩ := form.exists_comment_eq_cons inner
    rw [hs, List.cons_append] at hlen ⊢
    rw [pieceLength, if_pos rfl, hlen]
  | slash hslash hstar =>
    cases after with
    | nil => rfl
    | cons a after =>
      show commentLength (Byte.slash :: a :: after) = .ok 1
      rw [commentLength, if_neg (fun h => hslash (congrArg some h)),
        if_neg (fun h => hstar (congrArg some h))]
  | @byte b hquote hback hslash =>
    show (if b = Byte.slash then _ else _) = Except.ok 1
    rw [if_neg hslash, if_neg hback]

/-- Where no quote closes the literal, lexing goes on behind the piece that comes next. -/
theorem quotedFrom_of_ne_quote {quote b : UInt8} (hb : b ≠ quote) (n : Nat) (s : Bytes) :
    quotedFrom quote n (b :: s) =
      match pieceLength (b :: s) with
      | .ok k => quotedFrom quote (n + k) (s.drop (k - 1))
      | .error e => .error (e.shift n) := by
  rw [quotedFrom, pieceLength]
  split
  · rfl
  · split
    · rfl
    · rfl

/-- A piece is not empty and does not begin with the quote. -/
theorem LiteralPiece.exists_cons {quote : UInt8} {after piece : Bytes} (hq : Byte.isQuote quote = true)
    (h : LiteralPiece quote after piece) : ∃ b s, piece = b :: s ∧ b ≠ quote := by
  have hslash : Byte.slash ≠ quote := (Byte.ne_of_class hq (by decide)).symm
  cases h with
  | escape hidden => exact ⟨_, _, rfl, (Byte.ne_of_class hq (by decide)).symm⟩
  | @comment form inner =>
    obtain ⟨s, hs⟩ := form.exists_comment_eq_cons inner
    exact ⟨_, s, hs, hslash⟩
  | slash => exact ⟨_, _, rfl, hslash⟩
  | byte hquote => exact ⟨_, _, rfl, hquote⟩

/-- **Lexing passes over a piece.** -/
theorem LiteralPiece.quotedFrom_append {quote : UInt8} {after piece : Bytes}
    (hq : Byte.isQuote quote = true) (h : LiteralPiece quote after piece) (n : Nat) :
    quotedFrom quote n (piece ++ after) = quotedFrom quote (n + piece.length) after := by
  have hlen := h.pieceLength_append
  obtain ⟨b, s, rfl, hb⟩ := h.exists_cons hq
  rw [List.cons_append] at hlen ⊢
  rw [quotedFrom_of_ne_quote hb, hlen]
  show quotedFrom quote _ ((s ++ after).drop s.length) = _
  rw [List.drop_left]

/-- **A text begins with at most one piece.** -/
theorem LiteralPiece.unique {quote : UInt8} {after after' piece piece' : Bytes}
    (h : LiteralPiece quote after piece) (h' : LiteralPiece quote after' piece')
    (heq : piece ++ after = piece' ++ after') : piece = piece' ∧ after = after' := by
  have hlen := h.pieceLength_append
  rw [heq, h'.pieceLength_append] at hlen
  exact List.append_inj heq (Except.ok.inj hlen).symm

/-! ## Rows of pieces -/

/-- **Lexing passes over a row of pieces.** -/
theorem Splits.quotedFrom_append {quote : UInt8} {after : Bytes} {pieces : List Bytes}
    (hq : Byte.isQuote quote = true) (h : Splits quote after pieces) (n : Nat) :
    quotedFrom quote n (pieces.flatten ++ after) =
      quotedFrom quote (n + pieces.flatten.length) after := by
  induction h generalizing n with
  | nil => rfl
  | cons hpiece _ ih =>
    rw [List.flatten_cons, List.append_assoc, hpiece.quotedFrom_append hq, ih, List.length_append,
      Nat.add_assoc]

/-- **There is one way to split what stands between the quotes.** -/
theorem Splits.unique {quote : UInt8} {after : Bytes} {pieces pieces' : List Bytes}
    (hq : Byte.isQuote quote = true) (h : Splits quote after pieces)
    (h' : Splits quote after pieces') (heq : pieces.flatten = pieces'.flatten) : pieces = pieces' := by
  induction h generalizing pieces' with
  | nil =>
    cases h' with
    | nil => rfl
    | cons hpiece' =>
      obtain ⟨b, s, rfl, -⟩ := hpiece'.exists_cons hq
      cases heq
  | @cons piece pieces hpiece _ ih =>
    cases h' with
    | nil =>
      obtain ⟨b, s, rfl, -⟩ := hpiece.exists_cons hq
      cases heq
    | @cons piece' pieces' hpiece' h' =>
      rw [List.flatten_cons, List.flatten_cons] at heq
      have htext : piece ++ (pieces.flatten ++ after) = piece' ++ (pieces'.flatten ++ after) := by
        rw [← List.append_assoc, ← List.append_assoc, heq]
      obtain ⟨rfl, hrest⟩ := hpiece.unique hpiece' htext
      rw [ih h' (List.append_cancel_right hrest)]

/-- What a row of pieces may end at: the quote, a comment that is never closed, the end of the text, or
    a backslash that nothing follows. -/
inductive LiteralEnd (quote : UInt8) : Bytes → Prop
  | quote {after : Bytes} : LiteralEnd quote (quote :: after)
  | comment {text : Bytes} (h : ¬[Byte.star, Byte.slash] <:+: text) :
      LiteralEnd quote (Byte.slash :: Byte.star :: text)
  | nothing : LiteralEnd quote []
  | backslash : LiteralEnd quote [Byte.backslash]

/-- A comment is never closed just if what follows its opener holds no closer. -/
theorem closerFrom_eq_none_iff {n : Nat} {s : Bytes} :
    closerFrom n s = none ↔ ¬[Byte.star, Byte.slash] <:+: s := by
  constructor
  · intro h hinfix
    fun_induction closerFrom n s with
    | case1 => cases h
    | case2 n a b s hab ih =>
      rcases List.infix_cons_iff.1 hinfix with hfront | hinfix
      · rw [List.cons_prefix_cons, List.cons_prefix_cons] at hfront
        exact hab ⟨hfront.1.symm, hfront.2.1.symm⟩
      · exact ih h hinfix
    | case3 s n hshort =>
      obtain ⟨u, v, rfl⟩ := hinfix
      rcases u with _ | ⟨a, _ | ⟨b, u⟩⟩
      · exact hshort _ _ _ rfl
      · exact hshort _ _ _ rfl
      · exact hshort _ _ _ rfl
  · intro h
    cases hm : closerFrom n s with
    | none => rfl
    | some m =>
      obtain ⟨inner, after, rfl, -⟩ := exists_inner_of_closerFrom hm
      exact absurd ⟨inner, after, by rw [List.append_assoc]; rfl⟩ h

/-- A comment cannot be read just if a star opens it and nothing closes it. -/
theorem commentLength_eq_error_iff {b : UInt8} {s : Bytes} {e : Unclosed} :
    commentLength (b :: s) = .error e ↔
      e = ⟨.blockComment, 0⟩ ∧ ∃ text, s = Byte.star :: text ∧ ¬[Byte.star, Byte.slash] <:+: text := by
  constructor
  · intro h
    refine ⟨commentLength_error h, ?_⟩
    cases s with
    | nil => cases h
    | cons a s =>
      rw [commentLength] at h
      split at h
      · cases h
      · split at h
        · next hstar =>
          split at h
          · cases h
          · next hnone => exact ⟨s, by rw [hstar], closerFrom_eq_none_iff.1 hnone⟩
        · cases h
  · rintro ⟨rfl, text, rfl, hcloser⟩
    rw [commentLength, if_neg (by decide), if_pos rfl, closerFrom_eq_none_iff.2 hcloser]

/-- A slash opens a comment that is never closed, or begins a piece. -/
theorem exists_piece_of_slash (quote : UInt8) (s : Bytes) :
    LiteralEnd quote (Byte.slash :: s) ∨
      ∃ piece after, Byte.slash :: s = piece ++ after ∧ LiteralPiece quote after piece := by
  by_cases hslash : s.head? = some Byte.slash
  · obtain ⟨s, rfl⟩ := List.head?_eq_some_iff.1 hslash
    rcases line_or_lastLine s with ⟨inner, after, rfl, hinner⟩ | hinner
    · exact .inr ⟨_, after, (CommentForm.line_append inner after).symm,
        @LiteralPiece.comment _ _ .line _ hinner⟩
    · refine .inr ⟨CommentForm.lastLine.comment s, [], ?_, .comment ⟨hinner, rfl⟩⟩
      rw [CommentForm.lastLine_append, List.append_nil]
  by_cases hstar : s.head? = some Byte.star
  · obtain ⟨s, rfl⟩ := List.head?_eq_some_iff.1 hstar
    cases hm : closerFrom 2 s with
    | none => exact .inl (.comment (closerFrom_eq_none_iff.1 hm))
    | some m =>
      obtain ⟨inner, after, rfl, hinner⟩ := exists_inner_of_closerFrom hm
      exact .inr ⟨_, after, (CommentForm.block_append inner after).symm,
        @LiteralPiece.comment _ _ .block _ hinner⟩
  · exact .inr ⟨[Byte.slash], s, rfl, .slash hslash hstar⟩

/-- **Every text splits into pieces up to one of these ends.** -/
theorem exists_splits {quote : UInt8} (hq : Byte.isQuote quote = true) (s : Bytes) :
    ∃ pieces after, s = pieces.flatten ++ after ∧ Splits quote after pieces ∧ LiteralEnd quote after := by
  induction hn : s.length using Nat.strongRecOn generalizing s with
  | _ n ih =>
  subst hn
  -- a piece in front of a text that is shorter
  have front : ∀ piece rest, s = piece ++ rest → LiteralPiece quote rest piece →
      ∃ pieces after, s = pieces.flatten ++ after ∧ Splits quote after pieces ∧
        LiteralEnd quote after := by
    rintro piece rest rfl hpiece
    obtain ⟨b, s, hcons, -⟩ := hpiece.exists_cons hq
    have hlt : rest.length < (piece ++ rest).length := by
      rw [hcons, List.length_append, List.length_cons]
      omega
    obtain ⟨pieces, after, hrest, hsplits, hend⟩ := ih _ hlt rest rfl
    rw [hrest] at hpiece ⊢
    refine ⟨piece :: pieces, after, ?_, .cons hpiece hsplits, hend⟩
    rw [List.flatten_cons, List.append_assoc]
  cases s with
  | nil => exact ⟨[], [], rfl, .nil, .nothing⟩
  | cons b s =>
    by_cases hquote : b = quote
    · subst hquote
      exact ⟨[], _, rfl, .nil, .quote⟩
    by_cases hback : b = Byte.backslash
    · subst hback
      cases s with
      | nil => exact ⟨[], _, rfl, .nil, .backslash⟩
      | cons hidden s => exact front [Byte.backslash, hidden] s rfl (.escape hidden)
    by_cases hslash : b = Byte.slash
    · subst hslash
      rcases exists_piece_of_slash quote s with hend | ⟨piece, after, hs, hpiece⟩
      · exact ⟨[], _, rfl, .nil, hend⟩
      · exact front piece after hs hpiece
    · exact front [b] s rfl (.byte hquote hback hslash)

/-! ## Pieces of a source -/

/-- The source from `pos` up to `stop` splits into the pieces; what follows it in the source is looked
    at too. -/
structure SplitsInto (src : Bytes) (quote : UInt8) (pos stop : Nat) (pieces : List Bytes) : Prop where
  flatten : pieces.flatten = slice src pos stop
  splits : Splits quote (src.drop stop) pieces

/-- The literal whose quote is at `pos` is closed before `stop`, and these are its pieces. -/
structure LiteralClosed (src : Bytes) (quote : UInt8) (pos stop : Nat) (pieces : List Bytes) :
    Prop where
  lt_stop : pos + 1 < stop
  closes : src[stop - 1]? = some quote
  splits : SplitsInto src quote (pos + 1) (stop - 1) pieces

/-- A comment is opened at `pos` and never closed: no closer begins behind its opener. -/
structure CommentLeftOpen (src : Bytes) (pos : Nat) : Prop where
  opener : [Byte.slash, Byte.star] <+: src.drop pos
  no_closer : ∀ i, pos + 2 ≤ i → ¬[Byte.star, Byte.slash] <+: src.drop i

/-- In the literal whose quote is at `pos` there is a comment that is never closed. -/
def HoldsOpenComment (src : Bytes) (quote : UInt8) (pos place : Nat) : Prop :=
  pos < place ∧ CommentLeftOpen src place ∧ ∃ pieces, SplitsInto src quote (pos + 1) place pieces

/-- The source ends inside the literal whose quote is at `pos`: its pieces go on to the end, or to a
    backslash that is the last byte. -/
inductive LiteralLeftOpen (src : Bytes) (quote : UInt8) (pos : Nat) : Prop
  | ends {pieces : List Bytes} (h : SplitsInto src quote (pos + 1) src.length pieces) :
      LiteralLeftOpen src quote pos
  | hides {last : Nat} {pieces : List Bytes} (hlt : pos < last) (hlast : last + 1 = src.length)
      (hback : src[last]? = some Byte.backslash) (h : SplitsInto src quote (pos + 1) last pieces) :
      LiteralLeftOpen src quote pos

/-- Pieces that the source goes on with are pieces of the source. -/
theorem splitsInto_of_drop {src after : Bytes} {quote : UInt8} {pos : Nat} {pieces : List Bytes}
    (hdrop : src.drop pos = pieces.flatten ++ after) (h : Splits quote after pieces) :
    src.drop (pos + pieces.flatten.length) = after ∧
      SplitsInto src quote pos (pos + pieces.flatten.length) pieces := by
  have hafter : src.drop (pos + pieces.flatten.length) = after := by
    rw [← List.drop_drop, hdrop, List.drop_left]
  refine ⟨hafter, ?_, hafter.symm ▸ h⟩
  rw [slice_add, hdrop, List.take_left]

/-- **Lexing a literal goes on behind its pieces.** -/
theorem SplitsInto.quotedFrom_eq {src : Bytes} {quote : UInt8} {pos stop : Nat} {pieces : List Bytes}
    (h : SplitsInto src quote pos stop pieces) (hq : Byte.isQuote quote = true) (hle : pos ≤ stop)
    (hstop : stop ≤ src.length) (n : Nat) :
    quotedFrom quote n (src.drop pos) = quotedFrom quote (n + (stop - pos)) (src.drop stop) := by
  have hlen : pieces.flatten.length = stop - pos := by
    rw [h.flatten, slice, List.length_take, List.length_drop]
    omega
  have hdrop : src.drop pos = pieces.flatten ++ src.drop stop := by
    rw [h.flatten, slice, show src.drop stop = (src.drop pos).drop (stop - pos) by
      rw [List.drop_drop]; congr 1; omega, List.take_append_drop]
  rw [hdrop, h.splits.quotedFrom_append hq, hlen]

/-- Where a closer begins is a place in what follows the opener. -/
theorem infix_drop_iff {src t : Bytes} {pos : Nat} :
    t <:+: src.drop pos ↔ ∃ i, pos ≤ i ∧ t <+: src.drop i := by
  constructor
  · rintro ⟨u, v, huv⟩
    refine ⟨pos + u.length, Nat.le_add_right _ _, v, ?_⟩
    rw [← List.drop_drop, ← huv, List.append_assoc, List.drop_left]
  · rintro ⟨i, hi, hfront⟩
    obtain ⟨k, rfl⟩ := Nat.exists_eq_add_of_le hi
    rw [← List.drop_drop] at hfront
    exact hfront.isInfix.trans (List.drop_suffix k _).isInfix

/-- A comment is left open just if the text behind its opener holds no closer. -/
theorem commentLeftOpen_iff {src : Bytes} {pos : Nat} :
    CommentLeftOpen src pos ↔
      ∃ text, src.drop pos = Byte.slash :: Byte.star :: text ∧ ¬[Byte.star, Byte.slash] <:+: text := by
  have behind : ∀ {text}, src.drop pos = Byte.slash :: Byte.star :: text →
      ([Byte.star, Byte.slash] <:+: text ↔
        ∃ i, pos + 2 ≤ i ∧ [Byte.star, Byte.slash] <+: src.drop i) := by
    intro text htext
    rw [← infix_drop_iff, ← List.drop_drop, htext]
    rfl
  constructor
  · rintro ⟨⟨text, htext⟩, hcloser⟩
    have htext' : src.drop pos = Byte.slash :: Byte.star :: text := htext.symm
    refine ⟨text, htext', ?_⟩
    rw [behind htext']
    rintro ⟨i, hi, hfront⟩
    exact hcloser i hi hfront
  · rintro ⟨text, htext, hcloser⟩
    rw [behind htext] at hcloser
    refine ⟨⟨text, htext.symm⟩, ?_⟩
    intro i hi hfront
    exact hcloser ⟨i, hi, hfront⟩

/-! ## What becomes of a literal -/

section

variable {src : Bytes} {quote : UInt8} {pos : Nat} (hq : Byte.isQuote quote = true)
include hq

/-- A literal that is closed ends behind its pieces and the quote. -/
theorem LiteralClosed.quotedFrom_eq {stop : Nat} {pieces : List Bytes}
    (h : LiteralClosed src quote pos stop pieces) :
    quotedFrom quote 1 (src.drop (pos + 1)) = .ok (stop - pos) := by
  have hlt := h.lt_stop
  obtain ⟨hle, -⟩ := List.getElem?_eq_some_iff.1 h.closes
  rw [h.splits.quotedFrom_eq hq (by omega) (by omega), drop_of_getElem? h.closes, quotedFrom,
    if_neg (Byte.ne_of_class hq (by decide)), if_neg (Byte.ne_of_class hq (by decide)), if_pos rfl]
  exact congrArg Except.ok (by omega)

/-- **A literal is closed in one place, and splits in one way.** -/
theorem LiteralClosed.unique {stop stop' : Nat} {pieces pieces' : List Bytes}
    (h : LiteralClosed src quote pos stop pieces) (h' : LiteralClosed src quote pos stop' pieces') :
    stop = stop' ∧ pieces = pieces' := by
  have hpos := h.lt_stop
  have hpos' := h'.lt_stop
  have heq := (h.quotedFrom_eq hq).symm.trans (h'.quotedFrom_eq hq)
  rw [Except.ok.injEq] at heq
  obtain rfl : stop = stop' := by omega
  refine ⟨rfl, h.splits.splits.unique hq h'.splits.splits ?_⟩
  rw [h.splits.flatten, h'.splits.flatten]

/-- A comment that is left open in a literal is what lexing fails for. -/
theorem HoldsOpenComment.quotedFrom_eq {place : Nat} (h : HoldsOpenComment src quote pos place) :
    quotedFrom quote 1 (src.drop (pos + 1)) = .error ⟨.blockComment, place - pos⟩ := by
  obtain ⟨hlt, hopen, pieces, hsplits⟩ := h
  obtain ⟨text, htext, hcloser⟩ := commentLeftOpen_iff.1 hopen
  have hlen := congrArg List.length htext
  rw [List.length_drop, List.length_cons] at hlen
  have hfail : commentLength (Byte.slash :: Byte.star :: text) = .error ⟨.blockComment, 0⟩ :=
    commentLength_eq_error_iff.2 ⟨rfl, text, rfl, hcloser⟩
  rw [hsplits.quotedFrom_eq hq hlt (by omega), htext, quotedFrom, if_pos rfl, hfail]
  show Except.error (Unclosed.mk .blockComment (0 + (1 + (place - (pos + 1))))) = _
  rw [show 0 + (1 + (place - (pos + 1))) = place - pos by omega]

/-- A literal that the source ends in is itself what lexing fails for. -/
theorem LiteralLeftOpen.quotedFrom_eq (hlt : pos < src.length) (h : LiteralLeftOpen src quote pos) :
    quotedFrom quote 1 (src.drop (pos + 1)) = .error ⟨.ofQuote quote, 0⟩ := by
  cases h with
  | ends h => rw [h.quotedFrom_eq hq hlt (Nat.le_refl _), List.drop_length, quotedFrom]
  | @hides last pieces hpos hlast hback h =>
    have hnil : src.drop (last + 1) = [] := List.drop_eq_nil_of_le (Nat.le_of_eq hlast.symm)
    rw [h.quotedFrom_eq hq hpos (by omega), drop_of_getElem? hback, hnil, quotedFrom,
      if_neg (by decide), if_pos rfl, List.drop_nil, quotedFrom]

/-- **A literal is closed, or a comment in it is left open, or it is left open itself.** -/
theorem literal_outcome (hquote : src[pos]? = some quote) :
    (∃ stop pieces, LiteralClosed src quote pos stop pieces) ∨
    (∃ place, HoldsOpenComment src quote pos place) ∨ LiteralLeftOpen src quote pos := by
  obtain ⟨hlt, -⟩ := List.getElem?_eq_some_iff.1 hquote
  obtain ⟨pieces, after, htext, hsplits, hend⟩ := exists_splits hq (src.drop (pos + 1))
  obtain ⟨hafter, hinto⟩ := splitsInto_of_drop htext hsplits
  -- the offset behind the pieces
  generalize hstop : pos + 1 + pieces.flatten.length = stop at hafter hinto
  cases hend with
  | quote =>
    exact .inl ⟨stop + 1, pieces, by omega, getElem?_of_drop hafter, hinto⟩
  | @comment text hcloser =>
    exact .inr (.inl ⟨stop, by omega, commentLeftOpen_iff.2 ⟨text, hafter, hcloser⟩, pieces, hinto⟩)
  | nothing =>
    have hlen := congrArg List.length htext
    rw [List.append_nil, List.length_drop] at hlen
    have heq : stop = src.length := by omega
    rw [heq] at hinto
    exact .inr (.inr (.ends hinto))
  | backslash =>
    have hlen := congrArg List.length hafter
    rw [List.length_drop, List.length_singleton] at hlen
    exact .inr (.inr (.hides (by omega) (by omega) (getElem?_of_drop hafter) hinto))

end

section

variable {src : Bytes} {quote : UInt8} {pos : Nat} (hquote : src[pos]? = some quote)
include hquote

/-- The end of a literal is where lexing from behind its quote comes to. -/
theorem quotedExtent_eq_ok_iff {lines : Bool} {k : Extent} :
    quotedExtent src pos lines = .ok k ↔
      ∃ n, quotedFrom quote 1 (src.drop (pos + 1)) = .ok n ∧ Extent.over src pos n lines = k := by
  rw [quotedExtent, map_locate_eq_ok_iff, drop_of_getElem? hquote, quotedLength]

/-- A literal fails as lexing from behind its quote does. -/
theorem quotedExtent_eq_error_iff {lines : Bool} {e : Malformed} :
    quotedExtent src pos lines = .error e ↔
      ∃ u, quotedFrom quote 1 (src.drop (pos + 1)) = .error u ∧ e = (u.shift pos).inSource src := by
  rw [quotedExtent, map_locate_eq_error_iff, drop_of_getElem? hquote, quotedLength]

/-- **A literal that has been closed stays as it is** when more text follows. -/
theorem quotedExtent_append {lines : Bool} {k : Extent} (h : quotedExtent src pos lines = .ok k)
    (more : Bytes) : quotedExtent (src ++ more) pos lines = .ok k := by
  obtain ⟨hlt, -⟩ := List.getElem?_eq_some_iff.1 hquote
  have hquote' : (src ++ more)[pos]? = some quote := by
    rw [List.getElem?_append_left hlt, hquote]
  obtain ⟨n, hn, rfl⟩ := (quotedExtent_eq_ok_iff hquote).1 h
  have hle := (quotedFrom_bounds hn).2
  rw [List.length_drop] at hle
  refine (quotedExtent_eq_ok_iff hquote').2 ⟨n, ?_, ?_⟩
  · rw [List.drop_append_of_le_length hlt]
    exact quotedFrom_append hn more
  · rw [Extent.over, Extent.over, List.drop_append_of_le_length (by omega),
      List.take_append_of_le_length (by rw [List.length_drop]; omega)]

variable (hq : Byte.isQuote quote = true)
include hq

/-- **A literal ends behind its pieces and the quote that follows them.** -/
theorem quotedExtent_stop_iff_closed (lines : Bool) (stop : Nat) :
    (quotedExtent src pos lines).map Extent.stop = .ok stop ↔
      ∃ pieces, LiteralClosed src quote pos stop pieces := by
  obtain ⟨hlt, -⟩ := List.getElem?_eq_some_iff.1 hquote
  have hstop : (quotedExtent src pos lines).map Extent.stop = .ok stop ↔
      ∃ n, quotedFrom quote 1 (src.drop (pos + 1)) = .ok n ∧ pos + n = stop := by
    rw [quotedExtent, drop_of_getElem? hquote, quotedLength]
    cases quotedFrom quote 1 (src.drop (pos + 1)) with
    | error e => simp [Except.map]
    | ok n => simp [Except.map, Extent.over]
  rw [hstop]
  constructor
  · rintro ⟨n, hn, rfl⟩
    rcases literal_outcome hq hquote with ⟨stop, pieces, h⟩ | ⟨place, h⟩ | h
    · have hpos := h.lt_stop
      rw [h.quotedFrom_eq hq] at hn
      cases hn
      rw [show pos + (stop - pos) = stop by omega]
      exact ⟨pieces, h⟩
    · rw [h.quotedFrom_eq hq] at hn
      cases hn
    · rw [h.quotedFrom_eq hq hlt] at hn
      cases hn
  · rintro ⟨pieces, h⟩
    have hpos := h.lt_stop
    exact ⟨stop - pos, h.quotedFrom_eq hq, by omega⟩

/-- **What a literal fails for**: a comment in it, or the end of the source. -/
theorem quotedExtent_error_iff_open (lines : Bool) (e : Malformed) :
    quotedExtent src pos lines = .error e ↔
      (∃ place, HoldsOpenComment src quote pos place ∧ e = .ofSource src .blockComment place) ∨
      (LiteralLeftOpen src quote pos ∧ e = .ofSource src (.ofQuote quote) pos) := by
  obtain ⟨hlt, -⟩ := List.getElem?_eq_some_iff.1 hquote
  have hcomment : ∀ place, pos < place →
      ((⟨.blockComment, place - pos⟩ : Unclosed).shift pos).inSource src =
        .ofSource src .blockComment place := by
    intro place hplace
    show Malformed.ofSource src .blockComment (place - pos + pos) = _
    rw [Nat.sub_add_cancel (Nat.le_of_lt hplace)]
  have hitself : ((⟨.ofQuote quote, 0⟩ : Unclosed).shift pos).inSource src =
      .ofSource src (.ofQuote quote) pos := by
    show Malformed.ofSource src (.ofQuote quote) (0 + pos) = _
    rw [Nat.zero_add]
  rw [quotedExtent_eq_error_iff hquote]
  constructor
  · rintro ⟨u, hu, rfl⟩
    rcases literal_outcome hq hquote with ⟨stop, pieces, h⟩ | ⟨place, h⟩ | h
    · rw [h.quotedFrom_eq hq] at hu
      cases hu
    · rw [h.quotedFrom_eq hq] at hu
      cases hu
      exact .inl ⟨place, h, hcomment place h.1⟩
    · rw [h.quotedFrom_eq hq hlt] at hu
      cases hu
      exact .inr ⟨h, hitself⟩
  · rintro (⟨place, h, rfl⟩ | ⟨h, rfl⟩)
    · exact ⟨_, h.quotedFrom_eq hq, (hcomment place h.1).symm⟩
    · exact ⟨_, h.quotedFrom_eq hq hlt, hitself.symm⟩

end

/-- **A quoted literal, as the grammar has it.**  A literal ends at an offset just if its quote stands
    before that offset and what lies between the quotes splits into pieces; there is one such offset and
    one such way to split, and more text at the end of the source changes nothing.  It fails for a comment
    in it just if its pieces lead to one that is never closed, and for itself just if they lead to the end
    of the source, where a backslash may be the last byte. -/
theorem quotedExtent_grammar {src : Bytes} {quote : UInt8} {pos : Nat}
    (hquote : src[pos]? = some quote) (hq : Byte.isQuote quote = true) (lines : Bool) :
    (∀ stop, (quotedExtent src pos lines).map Extent.stop = .ok stop ↔
      ∃ pieces, LiteralClosed src quote pos stop pieces) ∧
    (∀ stop stop' pieces pieces', LiteralClosed src quote pos stop pieces →
      LiteralClosed src quote pos stop' pieces' → stop = stop' ∧ pieces = pieces') ∧
    (∀ k more, quotedExtent src pos lines = .ok k → quotedExtent (src ++ more) pos lines = .ok k) ∧
    ∀ e, quotedExtent src pos lines = .error e ↔
      (∃ place, HoldsOpenComment src quote pos place ∧ e = .ofSource src .blockComment place) ∨
      (LiteralLeftOpen src quote pos ∧ e = .ofSource src (.ofQuote quote) pos) := by
  refine ⟨quotedExtent_stop_iff_closed hquote hq lines, ?_, ?_,
    quotedExtent_error_iff_open hquote hq lines⟩
  · intro stop stop' pieces pieces' h h'
    exact h.unique hq h'
  · intro k more h
    exact quotedExtent_append hquote h more

/-- A literal in which an escape and a comment hide a quote, one with a comment that is not closed by the
    slash after its star, and one whose end a last backslash leaves open. -/
theorem quotedExtent_grammar_hidden :
    let closed := Bytes.ofString "\"\\\"/*\"*/b\"c"
    let pieces := [Bytes.ofString "\\\"", Bytes.ofString "/*\"*/", Bytes.ofString "b"]
    let comment := Bytes.ofString "\"a/*/\""
    let cut := Bytes.ofString "\"//\n\\"
    quotedExtent closed 0 false = .ok ⟨10, 0⟩ ∧
    (∀ stop other, LiteralClosed closed Byte.doubleQuote 0 stop other → stop = 10 ∧ other = pieces) ∧
    (∃ place, HoldsOpenComment comment Byte.doubleQuote 0 place) ∧
    LiteralLeftOpen cut Byte.doubleQuote 0 := by
  intro closed pieces comment cut
  have hq : Byte.isQuote Byte.doubleQuote = true := by decide
  have hextent : quotedExtent closed 0 false = .ok ⟨10, 0⟩ := by decide +kernel
  have hquote : closed[0]? = some Byte.doubleQuote := rfl
  have hquote' : comment[0]? = some Byte.doubleQuote := rfl
  have hquote'' : cut[0]? = some Byte.doubleQuote := rfl
  obtain ⟨-, hunique, -, -⟩ := quotedExtent_grammar hquote hq false
  obtain ⟨-, -, -, hopen⟩ := quotedExtent_grammar hquote' hq false
  obtain ⟨-, -, -, hcut⟩ := quotedExtent_grammar hquote'' hq false
  have hsplits : Splits Byte.doubleQuote (Bytes.ofString "\"c") pieces :=
    .cons (.escape _) (.cons (@LiteralPiece.comment _ _ .block [Byte.doubleQuote] (by decide))
      (.cons (.byte (by decide) (by decide) (by decide)) .nil))
  have hclosed : LiteralClosed closed Byte.doubleQuote 0 10 pieces := ⟨by decide, rfl, rfl, hsplits⟩
  refine ⟨hextent, ?_, ?_, ?_⟩
  · intro stop other h
    exact hunique stop 10 other pieces h hclosed
  · rcases (hopen ⟨⟨.blockComment, 2⟩, 1⟩).1 (by decide +kernel) with ⟨place, h, -⟩ | ⟨-, h⟩
    · exact ⟨place, h⟩
    · cases h
  · rcases (hcut ⟨⟨.stringLiteral, 0⟩, 1⟩).1 (by decide +kernel) with ⟨place, -, h⟩ | ⟨h, -⟩
    · cases h
    · exact h

end MagicNumbers
