/-
  Keyword questions about a range of a source.

  A range is asked for by positions, and all that its answer depends on is in the source.

  * `followStatement_eq` — a statement that is followed along answers each question as the range from its
    start to the bound does by itself.
  * `StandsIn` — a word stands at a position as a whole word, inside the range but for the two bytes
    around it.
  * `UnclosedAt` — a comment or a literal that begins at a position is not closed.
  * `rangeHoldsWord_outcome` — whether a range holds a word: a walk from its start comes to where the
    word stands, or before that to something unclosed, or to neither.
-/
import MagicNumbers.Proofs.Nesting
import MagicNumbers.Proofs.Occurrence

namespace MagicNumbers

/-! ## A row of questions -/

/-- **A statement that is followed along answers as each range does by itself**: for every row of bounds,
    growing or not, before the start or past the end of the source, also after a question that was
    answered early or failed.  A failure names the same construct, offset and line. -/
theorem followStatement_eq (src : Bytes) (start : Nat) (stops : List Nat) (keywords : List Bytes) :
    followStatement src start stops keywords =
      stops.map fun stop => rangeHoldsAll src start stop keywords := by
  rw [followStatement, Statement.askAll_eq (Statement.knows_fresh keywords _), List.map_map]
  rfl

/-- The bound grows until a comment is met that is not closed, falls, and grows again. -/
example :
    let words := [Bytes.ofString "static", Bytes.ofString "final"]
    (followStatement (Bytes.ofString "static /* final") 0 [8, 30, 3, 12] words).map Except.toOption =
      [some false, none, some false, none] := by
  decide +kernel

/-! ## Where a word stands in a range -/

/-- The word stands at `pos` as a whole word and ends no later than `stop` and the source do.  The bytes
    before and behind it, which no name may hold, need not lie in the range.  A place where a comment or
    a literal may begin does not count. -/
structure StandsIn (src : Bytes) (stop : Nat) (word : Bytes) (pos : Nat) : Prop where
  head : ∀ b, src[pos]? = some b → b ≠ Byte.slash ∧ Byte.isQuote b = false
  le_stop : pos + word.length ≤ min stop src.length
  eq_word : slice src pos (pos + word.length) = word
  before : ∀ i b, i + 1 = pos → src[i]? = some b → Byte.isNameByte b = false
  behind : ∀ b, src[pos + word.length]? = some b → Byte.isNameByte b = false

/-- No name is under way at a place just if the byte before it is in no name. -/
theorem leadOf_take_eq_none_iff {src : Bytes} {pos : Nat} (h : pos ≤ src.length) :
    leadOf (src.take pos) = none ↔
      ∀ i b, i + 1 = pos → src[i]? = some b → Byte.isNameByte b = false := by
  cases pos with
  | zero =>
    constructor
    · intro _ i b hi
      cases hi
    · intro _
      rfl
  | succ i =>
    have hi : src[i]? = some src[i] := List.getElem?_eq_getElem h
    rw [List.take_add_one, hi]
    show leadOf (src.take i ++ [src[i]]) = none ↔ _
    rw [leadOf_concat, nextLead]
    constructor
    · intro hlead j b hj hb
      cases hj
      rw [hi] at hb
      cases hb
      refine Bool.eq_false_iff.2 fun hname => ?_
      rw [if_pos hname] at hlead
      cases hlead
    · intro hbefore
      rw [if_neg (Bool.eq_false_iff.1 (hbefore i _ rfl hi))]

/-- **A word stands in a range as it stands at the place in the source.** -/
theorem standsIn_iff_occurs {src : Bytes} {stop : Nat} {word : Bytes} {pos : Nat} (hw : word ≠ []) :
    StandsIn src stop word pos ↔ Occurs word stop (.ofOffset src pos) := by
  have hpos : 0 < word.length := List.length_pos_iff.2 hw
  have hhead : (Cursor.ofOffset src pos).rest.head? = src[pos]? := by
    rw [Cursor.rest_ofOffset, List.head?_drop]
  have hbehind : ((Cursor.ofOffset src pos).rest.drop word.length).head? =
      src[pos + word.length]? := by
    rw [Cursor.rest_ofOffset, List.drop_drop, List.head?_drop]
  constructor
  · intro h
    have hle := h.le_stop
    refine ⟨?_, ?_, standsAt_iff.2 ⟨?_, ?_, ?_⟩⟩
    · rw [Cursor.offset_ofOffset]
      omega
    · rw [hhead]
      exact h.head
    · rw [Cursor.lead_ofOffset]
      exact (leadOf_take_eq_none_iff (by omega)).2 h.before
    · rw [hbehind]
      exact (Option.any_eq_false _ _).2 h.behind
    · rw [Cursor.rest_ofOffset, List.prefix_iff_eq_take, ← slice_add]
      exact h.eq_word.symm
  · intro h
    obtain ⟨hlead, hnext, hprefix⟩ := standsAt_iff.1 h.stands
    have hbound := h.le_bound
    have hlength := h.length_le
    rw [Cursor.offset_ofOffset] at hbound
    rw [Cursor.rest_ofOffset, List.length_drop] at hlength
    refine ⟨?_, by omega, ?_, ?_, ?_⟩
    · rw [← hhead]
      exact h.head
    · rw [slice_add, ← Cursor.rest_ofOffset]
      exact (List.prefix_iff_eq_take.1 hprefix).symm
    · rw [Cursor.lead_ofOffset] at hlead
      exact (leadOf_take_eq_none_iff (by omega)).1 hlead
    · rw [hbehind] at hnext
      exact (Option.any_eq_false _ _).1 hnext

/-! ## What is unclosed in a range -/

/-- The comment or the literal that begins at `pos` is not closed. -/
inductive UnclosedAt (src : Bytes) (pos : Nat) (e : Malformed) : Prop
  | comment (hb : src[pos]? = some Byte.slash) (he : commentExtent src pos false = .error e) :
      UnclosedAt src pos e
  | quoted {b : UInt8} (hb : src[pos]? = some b) (hquote : Byte.isQuote b = true)
      (he : quotedExtent src pos false = .error e) : UnclosedAt src pos e

/-- **What is unclosed at a place lets a lexical step fail there.** -/
theorem unclosedAt_iff {src : Bytes} {pos : Nat} {e : Malformed} :
    UnclosedAt src pos e ↔
      ∃ b s u, src.drop pos = b :: s ∧ stepLength b s = .error u ∧ e = (u.shift pos).inSource src := by
  constructor
  · intro h
    rcases h with ⟨hb, he⟩ | ⟨hb, hquote, he⟩
    · obtain ⟨u, hu, heq⟩ := map_locate_eq_error_iff.1 he
      refine ⟨_, _, u, drop_of_getElem? hb, ?_, heq⟩
      rw [stepLength, if_pos rfl, ← drop_of_getElem? hb, hu]
    · obtain ⟨u, hu, heq⟩ := map_locate_eq_error_iff.1 he
      refine ⟨_, _, u, drop_of_getElem? hb, ?_, heq⟩
      rw [stepLength, if_neg (Byte.ne_of_class hquote (by decide)), if_pos hquote,
        ← drop_of_getElem? hb, hu]
  · rintro ⟨b, s, u, hs, hu, heq⟩
    have hb : src[pos]? = some b := getElem?_of_drop hs
    rw [stepLength] at hu
    split at hu
    · next hslash =>
      subst hslash
      exact .comment hb (map_locate_eq_error_iff.2 ⟨u, by rw [hs]; exact hu, heq⟩)
    · split at hu
      · next hquote => exact .quoted hb hquote (map_locate_eq_error_iff.2 ⟨u, by rw [hs]; exact hu, heq⟩)
      · cases hu

/-! ## What a range holds -/

/-- A walk from the start of the range comes to where the word stands in it. -/
def FindsWord (src : Bytes) (start stop : Nat) (word : Bytes) : Prop :=
  ∃ pos, Walk (.ofOffset src start) (.ofOffset src pos) ∧ StandsIn src stop word pos

/-- A walk from the start of the range comes to something unclosed where the word would still fit, and to
    no place before it where the word stands. -/
def MeetsUnclosed (src : Bytes) (start stop : Nat) (word : Bytes) (e : Malformed) : Prop :=
  ∃ pos, Walk (.ofOffset src start) (.ofOffset src pos) ∧
    pos + word.length ≤ min stop src.length ∧ UnclosedAt src pos e ∧
    ∀ before, Walk (.ofOffset src start) (.ofOffset src before) → before < pos →
      ¬StandsIn src stop word before

/-- A walk through a source comes to places of it. -/
theorem Walk.exists_ofOffset {src : Bytes} {start : Nat} {c : Cursor}
    (h : Walk (.ofOffset src start) c) : ∃ pos, c = .ofOffset src pos := by
  generalize hc : Cursor.ofOffset src start = c' at h
  induction h generalizing start with
  | refl => exact ⟨start, hc.symm⟩
  | step _ _ _ ih =>
    subst hc
    exact ih (Cursor.advance_ofOffset src start _).symm

section

variable {src : Bytes} {start stop : Nat} {word : Bytes}

theorem rangeHoldsWord_eq_true_iff :
    rangeHoldsWord src start stop word = .ok true ↔
      search word stop (.ofOffset src start) = .ok .found := by
  rw [rangeHoldsWord]
  cases search word stop (.ofOffset src start) with
  | error u => simp [Except.map]
  | ok r => cases r <;> simp [Except.map, Search.isFound]

/-- A range holds a word just if the walk finds it. -/
theorem rangeHoldsWord_true_iff_finds (hw : word ≠ []) :
    rangeHoldsWord src start stop word = .ok true ↔ FindsWord src start stop word := by
  rw [rangeHoldsWord_eq_true_iff, search_eq_found_iff hw]
  constructor
  · rintro ⟨c, hwalk, hoccurs⟩
    obtain ⟨pos, rfl⟩ := hwalk.exists_ofOffset
    exact ⟨pos, hwalk, (standsIn_iff_occurs hw).2 hoccurs⟩
  · rintro ⟨pos, hwalk, hstands⟩
    exact ⟨_, hwalk, (standsIn_iff_occurs hw).1 hstands⟩

/-- Asking a range fails just if the walk meets something unclosed before it finds the word. -/
theorem rangeHoldsWord_error_iff_meets (hw : word ≠ []) (e : Malformed) :
    rangeHoldsWord src start stop word = .error e ↔ MeetsUnclosed src start stop word e := by
  have hpos : 0 < word.length := List.length_pos_iff.2 hw
  rw [rangeHoldsWord, map_locate_eq_error_iff]
  simp only [search_eq_error_iff hw]
  constructor
  · rintro ⟨u, ⟨c, hwalk, hcut, hnone⟩, rfl⟩
    obtain ⟨pos, rfl⟩ := hwalk.exists_ofOffset
    obtain ⟨b, s, v, hr, hv, rfl⟩ := hcut.unclosed
    have hbound := hcut.le_bound
    have hlength := hcut.length_le
    rw [Cursor.offset_ofOffset] at hbound hnone
    rw [Cursor.rest_ofOffset] at hr hlength
    rw [List.length_drop] at hlength
    refine ⟨pos, hwalk, by omega, unclosedAt_iff.2 ⟨b, s, v, hr, hv, ?_⟩, ?_⟩
    · rw [Cursor.offset_ofOffset]
      rfl
    intro before hbefore hlt hstands
    exact hnone _ hbefore (by rwa [Cursor.offset_ofOffset]) ((standsIn_iff_occurs hw).1 hstands)
  · rintro ⟨pos, hwalk, hle, hunclosed, hnone⟩
    obtain ⟨b, s, v, hs, hv, rfl⟩ := unclosedAt_iff.1 hunclosed
    refine ⟨v.shift pos, ⟨_, hwalk, ⟨?_, ?_, b, s, v, ?_, hv, ?_⟩, ?_⟩, rfl⟩
    · rw [Cursor.offset_ofOffset]
      omega
    · rw [Cursor.rest_ofOffset, List.length_drop]
      omega
    · rw [Cursor.rest_ofOffset]
      exact hs
    · rw [Cursor.offset_ofOffset]
    · intro d hd hlt hoccurs
      obtain ⟨before, rfl⟩ := hd.exists_ofOffset
      rw [Cursor.offset_ofOffset, Cursor.offset_ofOffset] at hlt
      exact hnone before hd hlt ((standsIn_iff_occurs hw).2 hoccurs)

/-- A search pauses where the word does not fit. -/
theorem searchFrom_of_short (h : min stop src.length < start + word.length) :
    searchFrom word stop (.ofOffset src start) = .ok (.paused (.ofOffset src start)) := by
  cases hr : (Cursor.ofOffset src start).rest with
  | nil => exact searchFrom_of_nil hr
  | cons b s =>
    have hlen := congrArg List.length hr
    rw [Cursor.rest_ofOffset, List.length_drop, List.length_cons] at hlen
    rw [searchFrom_of_cons hr, if_neg]
    rw [Cursor.offset_ofOffset, fits_iff, List.length_cons]
    omega

/-- A range that is reversed, or too short for the word, does not hold it. -/
theorem rangeHoldsWord_of_short (h : min stop src.length < start + word.length) :
    rangeHoldsWord src start stop word = .ok false := by
  have hpaused : search word stop (.ofOffset src start) = .ok (.paused (.ofOffset src start)) := by
    by_cases hw : word = []
    · rw [hw, search_nil]
    · rw [search_of_ne_nil hw]
      exact searchFrom_of_short h
  rw [rangeHoldsWord, hpaused]
  rfl

end

/-- **What asking a range for a word comes to.**  The word is there just if a walk from the start of the
    range comes to where it stands; the question fails, with the failure of the comment or the literal,
    just if the walk meets one that is not closed while the word would still fit, and the word has not
    stood before; otherwise the word is not there.  So it is for ranges that are reversed or too short,
    and for the empty word, which stands nowhere. -/
theorem rangeHoldsWord_outcome (src : Bytes) (start stop : Nat) (word : Bytes) :
    (word ≠ [] →
      (rangeHoldsWord src start stop word = .ok true ↔ FindsWord src start stop word) ∧
      (∀ e, rangeHoldsWord src start stop word = .error e ↔ MeetsUnclosed src start stop word e) ∧
      (rangeHoldsWord src start stop word = .ok false ↔
        ¬FindsWord src start stop word ∧ ∀ e, ¬MeetsUnclosed src start stop word e)) ∧
    rangeHoldsWord src start stop [] = .ok false ∧
    (min stop src.length < start + word.length → rangeHoldsWord src start stop word = .ok false) := by
  refine ⟨?_, rfl, rangeHoldsWord_of_short⟩
  intro hw
  refine ⟨rangeHoldsWord_true_iff_finds hw, rangeHoldsWord_error_iff_meets hw, ?_⟩
  simp only [← rangeHoldsWord_true_iff_finds hw, ← rangeHoldsWord_error_iff_meets hw]
  rcases rangeHoldsWord src start stop word with e | _ | _ <;> simp

/-- A word behind a comment stands in the range that holds it, and one behind a comment that is not
    closed is not reached. -/
theorem rangeHoldsWord_outcome_comment :
    let word := Bytes.ofString "final"
    let closed := Bytes.ofString "a /* final */ final"
    let left := Bytes.ofString "afinal /* final"
    FindsWord closed 0 19 word ∧ ¬FindsWord closed 0 18 word ∧
    MeetsUnclosed left 0 15 word ⟨⟨.blockComment, 7⟩, 1⟩ ∧ ¬FindsWord left 0 15 word := by
  intro word closed left
  have hw : word ≠ [] := by decide
  have hfound : rangeHoldsWord closed 0 19 word = .ok true := eq_ok_of_toOption (by decide +kernel)
  have hshort : rangeHoldsWord closed 0 18 word = .ok false := eq_ok_of_toOption (by decide +kernel)
  have hleft : rangeHoldsWord left 0 15 word = .error ⟨⟨.blockComment, 7⟩, 1⟩ := by decide +kernel
  have hmeets := ((rangeHoldsWord_outcome left 0 15 word).1 hw).2.1 _ |>.1 hleft
  refine ⟨((rangeHoldsWord_outcome closed 0 19 word).1 hw).1.1 hfound,
    (((rangeHoldsWord_outcome closed 0 18 word).1 hw).2.2.1 hshort).1, hmeets, ?_⟩
  intro hfinds
  have htrue := ((rangeHoldsWord_outcome left 0 15 word).1 hw).1.2 hfinds
  rw [hleft] at htrue
  cases htrue

end MagicNumbers
