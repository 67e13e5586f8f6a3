/-
  Lexing a text that goes on.

  A token may depend on what follows it: a comment on where the line ends, a number on whether an
  exponent comes.  More text at the end changes nothing as long as the token ends before it and the
  text before it ends in a byte that stands alone.

  * `Byte.stops` are the bytes that stand alone: no name, no number and no exponent goes on through one
    of them.  `Byte.breaks` are those behind which a statement starts.
  * `EndsInBreak` — the text ends in a break.
  * `stepLength_append`, `blockFrom_append` — lexical steps and blocks that are over before the end of
    a text are the same when it goes on.
  * `numberFrom_stop`, `nameLength_stop` — numbers and names end at a stop, and so does what is asked
    about them.
  * `Token.read_append` — so are tokens, if the text ends in a break.
-/
import MagicNumbers.Proofs.Blocks

namespace MagicNumbers

/-! ## Texts that end in a break -/

/-- The bytes behind which a statement starts. -/
def Byte.breaks : Bytes := [semicolon, openBrace, closeBrace]

/-- The bytes that no name, no number and no exponent goes on through. -/
def Byte.stops : Bytes := slash :: lineFeed :: carriageReturn :: breaks

/-- The last byte of a text is one behind which a statement starts. -/
def EndsInBreak (s : Bytes) : Prop := ∃ u x, x ∈ Byte.breaks ∧ s = u ++ [x]

/-- A class that leaves out the stops has none of them. -/
theorem Byte.eq_false_of_mem_stops {p : UInt8 → Bool} (hp : stops.any p = false) {x : UInt8}
    (hx : x ∈ stops) : p x = false :=
  Bool.eq_false_iff.2 (List.any_eq_false.1 hp x hx)

theorem Byte.mem_stops_of_mem_breaks {x : UInt8} (hx : x ∈ breaks) : x ∈ stops :=
  List.mem_cons_of_mem _ (List.mem_cons_of_mem _ (List.mem_cons_of_mem _ hx))

/-- What comes before does not matter. -/
theorem EndsInBreak.append {t : Bytes} (h : EndsInBreak t) (s : Bytes) : EndsInBreak (s ++ t) := by
  obtain ⟨u, x, hx, rfl⟩ := h
  exact ⟨s ++ u, x, hx, (List.append_assoc s u [x]).symm⟩

/-- What is left of the text, if anything is, ends as it does. -/
theorem EndsInBreak.drop {s : Bytes} (h : EndsInBreak s) {n : Nat} (hn : n < s.length) :
    EndsInBreak (s.drop n) := by
  obtain ⟨u, x, hx, rfl⟩ := h
  have hle : n ≤ u.length := by
    rw [List.length_append, List.length_singleton] at hn
    omega
  exact ⟨u.drop n, x, hx, List.drop_append_of_le_length hle⟩

/-- Behind a byte that is no break the text goes on. -/
theorem EndsInBreak.tail {b : UInt8} {s : Bytes} (h : EndsInBreak (b :: s)) (hb : b ∉ Byte.breaks) :
    EndsInBreak s := by
  obtain ⟨u, x, hx, heq⟩ := h
  cases u with
  | nil =>
    cases heq
    exact absurd hx hb
  | cons a u =>
    cases heq
    exact ⟨u, x, hx, rfl⟩

/-! ## Comments, literals and blocks -/

/-- A line that is over stays as it is. -/
theorem lineLength_append {s : Bytes} (h : lineLength s < s.length) (more : Bytes) :
    lineLength (s ++ more) = lineLength s := by
  unfold lineLength at h ⊢
  split at h
  · next i hi => rw [List.findIdx?_append, hi]; rfl
  · exact absurd h (Nat.lt_irrefl _)

theorem closerFrom_append {n m : Nat} {s : Bytes} (h : closerFrom n s = some m) (more : Bytes) :
    closerFrom n (s ++ more) = some m := by
  fun_induction closerFrom n s with
  | case1 n a b s hab =>
    rw [List.cons_append, List.cons_append, closerFrom, if_pos hab]
    exact h
  | case2 n a b s hab ih =>
    rw [List.cons_append, List.cons_append, closerFrom, if_neg hab]
    exact ih h
  | case3 => cases h

/-- A comment that ends before the text does stays as it is. -/
theorem commentLength_append {b : UInt8} {s : Bytes} {n : Nat} (h : commentLength (b :: s) = .ok n)
    (hn : n < s.length + 1) (more : Bytes) : commentLength (b :: (s ++ more)) = .ok n := by
  cases s with
  | nil =>
    cases h
    simp at hn
  | cons a s =>
    rw [List.cons_append]
    rw [commentLength] at h ⊢
    split
    · next ha =>
      rw [if_pos ha] at h
      cases h
      have hlt : lineLength s < s.length := by
        rw [List.length_cons] at hn
        omega
      rw [lineLength_append hlt]
    · next ha =>
      rw [if_neg ha] at h
      split
      · next hstar =>
        rw [if_pos hstar] at h
        split at h
        · next m hm =>
          cases h
          rw [closerFrom_append hm]
        · cases h
      · next hstar =>
        rw [if_neg hstar] at h
        exact h

/-- A literal that is closed stays as it is.  A comment in it cannot reach the end of the text, since
    the quote that closes it comes after the comment. -/
theorem quotedFrom_append {quote : UInt8} {n m : Nat} {s : Bytes}
    (h : quotedFrom quote n s = .ok m) (more : Bytes) :
    quotedFrom quote n (s ++ more) = .ok m := by
  fun_induction quotedFrom quote n s with
  | case1 => cases h
  | case2 n s k hk ih =>
    have hpos := commentLength_pos hk
    have hbounds := quotedFrom_bounds h
    rw [List.length_drop] at hbounds
    rw [List.cons_append, quotedFrom, if_pos rfl, commentLength_append hk (by omega)]
    simp only
    rw [List.drop_append_of_le_length (by omega)]
    exact ih h
  | case3 => cases h
  | case4 n s hslash ih =>
    rw [List.cons_append, quotedFrom, if_neg (by decide), if_pos rfl]
    have hbounds := quotedFrom_bounds h
    rw [List.length_drop] at hbounds
    rw [List.drop_append_of_le_length (by omega)]
    exact ih h
  | case5 n s hslash hback =>
    rw [List.cons_append, quotedFrom, if_neg hslash, if_neg hback, if_pos rfl]
    exact h
  | case6 n b s hslash hback hquote ih =>
    rw [List.cons_append, quotedFrom, if_neg hslash, if_neg hback, if_neg hquote]
    exact ih h

/-- A lexical step that does not reach the end of the text stays as it is. -/
theorem stepLength_append {b : UInt8} {s : Bytes} {n : Nat} (h : stepLength b s = .ok n)
    (hn : n < s.length + 1) (more : Bytes) : stepLength b (s ++ more) = .ok n := by
  unfold stepLength at h ⊢
  split
  · next hb =>
    rw [if_pos hb] at h
    exact commentLength_append h hn more
  · next hb =>
    rw [if_neg hb] at h
    split
    · next hquote =>
      rw [if_pos hquote] at h
      exact quotedFrom_append h more
    · next hquote =>
      rw [if_neg hquote] at h
      exact h

/-- A block that is closed stays as it is. -/
theorem blockFrom_append {depth n m : Nat} {s : Bytes} (h : blockFrom depth n s = .ok m)
    (more : Bytes) : blockFrom depth n (s ++ more) = .ok m := by
  fun_induction blockFrom depth n s with
  | case1 => cases h
  | case2 depth n s ih =>
    rw [List.cons_append, blockFrom_openBrace]
    exact ih h
  | case3 n s =>
    rw [List.cons_append, blockFrom_closeBrace_zero]
    exact h
  | case4 n s depth _ ih =>
    rw [List.cons_append, blockFrom_closeBrace_succ]
    exact ih h
  | case5 depth n b s hopen hclose k hk ih =>
    -- a brace is still to come behind the step
    have hpos := stepLength_pos hk
    have hbounds := blockFrom_bounds h
    rw [List.length_drop] at hbounds
    rw [List.cons_append, blockFrom_step hopen hclose, stepLength_append hk (by omega)]
    simp only
    rw [List.drop_append_of_le_length (by omega)]
    exact ih h
  | case6 => cases h

/-- A block that is closed ends in a break. -/
theorem endsInBreak_of_blockFrom {depth n m : Nat} {s : Bytes} (h : blockFrom depth n s = .ok m) :
    EndsInBreak (s.take (m - n)) := by
  obtain ⟨u, hu⟩ := take_of_blockFrom h
  exact ⟨u, Byte.closeBrace, by decide, hu⟩

/-! ## Names and numbers -/

section

variable {x : UInt8} (hx : x ∈ Byte.stops) (s more : Bytes)
include hx

/-- An exponent, or the lack of one, shows before the next stop. -/
theorem exponentLength?_stop : exponentLength? (s ++ x :: more) = exponentLength? s := by
  have hmark : Byte.isExponentMark x = false := Byte.eq_false_of_mem_stops (by decide) hx
  have hdigit : Byte.isDigit x = false := Byte.eq_false_of_mem_stops (by decide) hx
  have hsign : ¬(x = Byte.plus ∨ x = Byte.minus) := by
    rintro (rfl | rfl)
    · exact absurd hx (by decide)
    · exact absurd hx (by decide)
  rcases s with _ | ⟨e, _ | ⟨a, _ | ⟨d, u⟩⟩⟩
  · cases more <;> simp [exponentLength?, hmark]
  · simp [exponentLength?, hsign, hdigit]
  · simp [exponentLength?, hdigit]
  · rfl

/-- A number does not go on through a stop. -/
theorem numberFrom_stop (hex : Bool) (n : Nat) :
    numberFrom hex n (s ++ x :: more) = numberFrom hex n s := by
  have hnumber : (Byte.isNumberByte x || (hex && Byte.isHexDigit x)) = false :=
    Byte.eq_false_of_mem_stops (p := fun b => Byte.isNumberByte b || (hex && Byte.isHexDigit b))
      (by cases hex <;> decide) hx
  fun_induction numberFrom hex n s with
  | case1 n =>
    have hexp := exponentLength?_stop hx [] more
    rw [List.nil_append] at hexp ⊢
    rw [numberFrom, if_neg (by simp [hnumber]), hexp]
    split
    · rfl
    · rfl
  | case2 n b s hb ih =>
    rw [List.cons_append, numberFrom, if_pos hb]
    exact ih
  | case3 n b s hb hhex => rw [List.cons_append, numberFrom, if_neg hb, if_pos hhex]
  | case4 n b s hb hhex k hk ih =>
    have hlt := (exponentLength?_bounds hk).2
    rw [List.length_cons] at hlt
    rw [List.cons_append, numberFrom, if_neg hb, if_neg hhex, ← List.cons_append,
      exponentLength?_stop hx, hk]
    simp only
    rw [List.drop_append_of_le_length (by omega)]
    exact ih
  | case5 n b s hb hhex hk =>
    rw [List.cons_append, numberFrom, if_neg hb, if_neg hhex, ← List.cons_append,
      exponentLength?_stop hx, hk]

theorem numberLength_stop (b : UInt8) : numberLength b (s ++ x :: more) = numberLength b s := by
  have hmark : Byte.isHexMark x = false := Byte.eq_false_of_mem_stops (by decide) hx
  -- whether a literal is hexadecimal, the byte behind its zero tells
  have hhex : isHexLead b (s ++ x :: more) = isHexLead b s := by
    cases s with
    | nil => simp [isHexLead, hmark]
    | cons a u => rfl
  rw [numberLength, numberLength, hhex, numberFrom_stop hx]

/-- Whether a digit stands alone shows before the next stop. -/
theorem isSentinel_stop (b : UInt8) : isSentinel b (s ++ x :: more) = isSentinel b s := by
  have hexp := exponentLength?_stop hx s more
  cases s with
  | nil =>
    have hdigit : Byte.isDigit x = false := Byte.eq_false_of_mem_stops (by decide) hx
    have hgoes : (x == Byte.dot || x == Byte.underscore) = false :=
      Byte.eq_false_of_mem_stops (p := fun b => b == Byte.dot || b == Byte.underscore) (by decide) hx
    have hmark : (Byte.isHexMark x || Byte.isBinaryMark x) = false :=
      Byte.eq_false_of_mem_stops (p := fun b => Byte.isHexMark b || Byte.isBinaryMark b) (by decide) hx
    rw [List.nil_append] at hexp ⊢
    simp only [isSentinel, hexp, hdigit, hmark, Bool.or_assoc, hgoes, Bool.and_false]
    rfl
  | cons a u =>
    rw [List.cons_append] at hexp ⊢
    simp only [isSentinel, hexp]

/-- A name does not go on through a stop. -/
theorem nameLength_stop : nameLength (s ++ x :: more) = nameLength s := by
  have hname : Byte.isNameByte x = false := Byte.eq_false_of_mem_stops (by decide) hx
  have hstop : (s ++ x :: more).takeWhile Byte.isNameByte = s.takeWhile Byte.isNameByte := by
    rw [List.takeWhile_append, List.takeWhile_cons_of_neg (by simp [hname]), List.append_nil]
    split
    · next hall => exact ((List.takeWhile_prefix _).eq_of_length hall).symm
    · rfl
  rw [nameLength, nameLength, hstop]

end

theorem numberLength_append {b : UInt8} {s : Bytes} (h : EndsInBreak s) (more : Bytes) :
    numberLength b (s ++ more) = numberLength b s := by
  obtain ⟨u, x, hx, rfl⟩ := h
  have hstop := Byte.mem_stops_of_mem_breaks hx
  rw [List.append_assoc, List.singleton_append, numberLength_stop hstop, numberLength_stop hstop]

theorem isSentinel_append {b : UInt8} {s : Bytes} (h : EndsInBreak s) (more : Bytes) :
    isSentinel b (s ++ more) = isSentinel b s := by
  obtain ⟨u, x, hx, rfl⟩ := h
  have hstop := Byte.mem_stops_of_mem_breaks hx
  rw [List.append_assoc, List.singleton_append, isSentinel_stop hstop, isSentinel_stop hstop]

theorem nameLength_append {s : Bytes} (h : EndsInBreak s) (more : Bytes) :
    nameLength (s ++ more) = nameLength s := by
  obtain ⟨u, x, hx, rfl⟩ := h
  have hstop := Byte.mem_stops_of_mem_breaks hx
  rw [List.append_assoc, List.singleton_append, nameLength_stop hstop, nameLength_stop hstop]

/-! ## Tokens -/

/-- Whatever `more` is, the token at the head of `s` stays as it is: nothing follows, or `s` ends in a
    break and the token is over before it, or is what ends there. -/
def Token.Settled (t : Token) (s more : Bytes) : Prop :=
  more = [] ∨
    EndsInBreak s ∧ (t.length < s.length ∨ t.kind = .block ∨ t.kind = .semicolon)

/-- **A token that is settled is read alike when the text goes on.** -/
theorem Token.read_append {lead : Option UInt8} {b : UInt8} {s more : Bytes} {t : Token}
    (h : Token.read lead b s = .ok t) (hs : t.Settled (b :: s) more) :
    Token.read lead b (s ++ more) = .ok t := by
  rcases hs with rfl | ⟨hbreak, hend⟩
  · rw [List.append_nil]
    exact h
  -- behind a digit the text goes on to the break
  have tail : Byte.isDigit b = true → EndsInBreak s := fun hb =>
    hbreak.tail (Byte.notMem_of_class (by decide) hb)
  refine Token.Reads.read ?_
  cases Token.reads_of_read h with
  | comment hb hn =>
    refine .comment hb (commentLength_append hn ?_ more)
    simpa using hend
  | block hb hn =>
    refine .block hb ?_
    rw [blockLength, List.drop_succ_cons, List.drop_zero] at hn ⊢
    exact blockFrom_append hn more
  | semicolon hb => exact .semicolon hb
  | quoted hb hn => exact .quoted hb (quotedFrom_append hn more)
  | name hb hname =>
    rw [← nameLength_append (tail hb) more]
    exact .name hb (by rw [isSentinel_append (tail hb)]; exact hname)
  | number hb hname =>
    rw [← numberLength_append (tail hb) more]
    exact .number hb (by rw [isSentinel_append (tail hb)]; exact hname)
  | other hslash hbrace hsemi hquote hdigit => exact .other hslash hbrace hsemi hquote hdigit

/-- A token behind which a statement starts ends in a break. -/
theorem Token.endsInBreak_of_read {lead : Option UInt8} {b : UInt8} {s : Bytes} {t : Token}
    (h : Token.read lead b s = .ok t) (hk : t.kind = .block ∨ t.kind = .semicolon) :
    EndsInBreak ((b :: s).take t.length) := by
  cases Token.reads_of_read h with
  | @block n hb hn =>
    have hpos := (blockLength_bounds hn).1
    rw [blockLength, List.drop_succ_cons, List.drop_zero] at hn
    show EndsInBreak ((b :: s).take n)
    rw [show n = n - 1 + 1 by omega, List.take_succ_cons]
    exact (endsInBreak_of_blockFrom hn).append [b]
  | semicolon hb => exact ⟨[], b, by rw [hb]; decide, rfl⟩
  | _ => rcases hk with hk | hk <;> cases hk

end MagicNumbers
