/-
  Lexing a text that is cut off.

  What is read in a text and ends before some place of it is read alike when the text is cut off there:
  nothing that was read can then have looked further.  Only names and numbers look at the byte behind
  them, so for them the cut has to be before a break.

  * `stepLength_of_append`, `blockFrom_of_append` — lexical steps and blocks.
  * `Token.read_of_append` — tokens, where a break follows.
-/
import MagicNumbers.Proofs.Extension

namespace MagicNumbers

/-! ## Comments, literals and blocks -/

/-- A line that ends before the cut. -/
theorem lineLength_of_append {s more : Bytes} (h : lineLength (s ++ more) ≤ s.length) :
    lineLength s = lineLength (s ++ more) := by
  unfold lineLength at h ⊢
  rw [List.findIdx?_append] at h ⊢
  cases hs : s.findIdx? (· == Byte.lineFeed) with
  | some i => rfl
  | none =>
    rw [hs] at h
    cases hm : more.findIdx? (· == Byte.lineFeed) with
    | some j =>
      rw [hm] at h
      simp only [Option.map_some, Option.none_or] at h
      omega
    | none =>
      rw [hm] at h
      simp only [Option.map_none, Option.none_or, List.length_append] at h ⊢
      omega

theorem closerFrom_of_append {n m : Nat} {s more : Bytes} (h : closerFrom n (s ++ more) = some m)
    (hm : m ≤ n + s.length) : closerFrom n s = some m := by
  have hpos := (closerFrom_bounds h).1
  fun_induction closerFrom n s with
  | case1 n a b s hab =>
    rw [List.cons_append, List.cons_append, closerFrom, if_pos hab] at h
    exact h
  | case2 n a b s hab ih =>
    rw [List.cons_append, List.cons_append, closerFrom, if_neg hab] at h
    rw [List.length_cons] at hm
    exact ih h (by omega) (closerFrom_bounds h).1
  | case3 s n hshort =>
    -- there is no room for a closer before the cut
    rcases s with _ | ⟨a, _ | ⟨b, s⟩⟩
    · rw [List.length_nil] at hm
      omega
    · rw [List.length_singleton] at hm
      omega
    · exact absurd rfl (hshort a b s)

/-- A comment that ends before the cut, or at it. -/
theorem commentLength_of_append {b : UInt8} {s more : Bytes} {n : Nat}
    (h : commentLength (b :: (s ++ more)) = .ok n) (hn : n ≤ s.length + 1) :
    commentLength (b :: s) = .ok n := by
  cases s with
  | nil =>
    have hpos := commentLength_pos h
    rw [List.length_nil] at hn
    rw [show n = 1 by omega]
    rfl
  | cons a s =>
    rw [List.cons_append] at h
    rw [List.length_cons] at hn
    rw [commentLength] at h ⊢
    split
    · next ha =>
      rw [if_pos ha] at h
      cases h
      have hline : lineLength (s ++ more) ≤ s.length := by omega
      rw [lineLength_of_append hline]
    · next ha =>
      rw [if_neg ha] at h
      split
      · next hstar =>
        rw [if_pos hstar] at h
        split at h
        · next m hm =>
          cases h
          rw [closerFrom_of_append hm (by omega)]
        · cases h
      · next hstar =>
        rw [if_neg hstar] at h
        exact h

/-- A part before the cut that is not empty begins as the text does. -/
theorem cons_of_append {b : UInt8} {s l more : Bytes} (h : s ++ more = b :: l) (hs : 0 < s.length) :
    ∃ r, s = b :: r ∧ l = r ++ more := by
  rcases List.append_eq_cons_iff.1 h with ⟨rfl, -⟩ | hcons
  · exact absurd hs (Nat.lt_irrefl 0)
  · exact hcons

/-- A literal that is closed before the cut. -/
theorem quotedFrom_of_append {quote : UInt8} {n m : Nat} {s more : Bytes}
    (h : quotedFrom quote n (s ++ more) = .ok m) (hm : m ≤ n + s.length) :
    quotedFrom quote n s = .ok m := by
  generalize hl : s ++ more = l at h
  have hpos := (quotedFrom_bounds h).1
  fun_induction quotedFrom quote n l generalizing s with
  | case1 => cases h
  | case2 n l k hk ih =>
    obtain ⟨r, rfl, rfl⟩ := cons_of_append hl (by omega)
    rw [List.length_cons] at hm
    have hlt := (quotedFrom_bounds h).1
    have hkpos := commentLength_pos hk
    rw [quotedFrom, if_pos rfl, commentLength_of_append hk (by omega)]
    refine ih ?_ (List.drop_append_of_le_length (by omega)).symm h hlt
    rw [List.length_drop]
    omega
  | case3 => cases h
  | case4 n l hslash ih =>
    obtain ⟨r, rfl, rfl⟩ := cons_of_append hl (by omega)
    rw [List.length_cons] at hm
    have hlt := (quotedFrom_bounds h).1
    rw [quotedFrom, if_neg (by decide), if_pos rfl]
    refine ih ?_ (List.drop_append_of_le_length (by omega)).symm h hlt
    rw [List.length_drop]
    omega
  | case5 n l hslash hback =>
    obtain ⟨r, rfl, rfl⟩ := cons_of_append hl (by omega)
    rw [quotedFrom, if_neg hslash, if_neg hback, if_pos rfl]
    exact h
  | case6 n b l hslash hback hquote ih =>
    obtain ⟨r, rfl, rfl⟩ := cons_of_append hl (by omega)
    rw [List.length_cons] at hm
    rw [quotedFrom, if_neg hslash, if_neg hback, if_neg hquote]
    exact ih (by omega) rfl h (quotedFrom_bounds h).1

/-- A lexical step that ends before the cut, or at it. -/
theorem stepLength_of_append {b : UInt8} {s more : Bytes} {n : Nat}
    (h : stepLength b (s ++ more) = .ok n) (hn : n ≤ s.length + 1) : stepLength b s = .ok n := by
  unfold stepLength at h ⊢
  split
  · next hb =>
    rw [if_pos hb] at h
    exact commentLength_of_append h hn
  · next hb =>
    rw [if_neg hb] at h
    split
    · next hquote =>
      rw [if_pos hquote] at h
      exact quotedFrom_of_append h (by omega)
    · next hquote =>
      rw [if_neg hquote] at h
      exact h

/-- A block that is closed before the cut. -/
theorem blockFrom_of_append {depth n m : Nat} {s more : Bytes}
    (h : blockFrom depth n (s ++ more) = .ok m) (hm : m ≤ n + s.length) :
    blockFrom depth n s = .ok m := by
  generalize hl : s ++ more = l at h
  have hpos := (blockFrom_bounds h).1
  fun_induction blockFrom depth n l generalizing s with
  | case1 => cases h
  | case2 depth n l ih =>
    obtain ⟨r, rfl, rfl⟩ := cons_of_append hl (by omega)
    rw [List.length_cons] at hm
    rw [blockFrom_openBrace]
    exact ih (by omega) rfl h (blockFrom_bounds h).1
  | case3 n l =>
    obtain ⟨r, rfl, rfl⟩ := cons_of_append hl (by omega)
    rw [blockFrom_closeBrace_zero]
    exact h
  | case4 n l depth _ ih =>
    obtain ⟨r, rfl, rfl⟩ := cons_of_append hl (by omega)
    rw [List.length_cons] at hm
    rw [blockFrom_closeBrace_succ]
    exact ih (by omega) rfl h (blockFrom_bounds h).1
  | case5 depth n b l hopen hclose k hk ih =>
    obtain ⟨r, rfl, rfl⟩ := cons_of_append hl (by omega)
    rw [List.length_cons] at hm
    have hlt := (blockFrom_bounds h).1
    have hkpos := stepLength_pos hk
    rw [blockFrom_step hopen hclose, stepLength_of_append hk (by omega)]
    refine ih ?_ (List.drop_append_of_le_length (by omega)).symm h hlt
    rw [List.length_drop]
    omega
  | case6 => cases h

/-! ## Tokens -/

/-- **A token that ends before a break is read alike when the text is cut off at the break.** -/
theorem Token.read_of_append {lead : Option UInt8} {b x : UInt8} {s more : Bytes} {t : Token}
    (hx : x ∈ Byte.breaks) (h : Token.read lead b (s ++ x :: more) = .ok t)
    (ht : t.length ≤ s.length + 1) : Token.read lead b s = .ok t := by
  have hstop := Byte.mem_stops_of_mem_breaks hx
  refine Token.Reads.read ?_
  cases Token.reads_of_read h with
  | comment hb hn => exact .comment hb (commentLength_of_append hn ht)
  | @block n hb hn =>
    refine .block hb ?_
    rw [blockLength, List.drop_succ_cons, List.drop_zero] at hn ⊢
    exact blockFrom_of_append hn (by show n ≤ 1 + s.length; simp only at ht; omega)
  | semicolon hb => exact .semicolon hb
  | @quoted n hb hn => exact .quoted hb (quotedFrom_of_append hn (by simp only at ht; omega))
  | name hb hname =>
    rw [isSentinel_stop hstop] at hname
    rw [nameLength_stop hstop]
    exact .name hb hname
  | number hb hname =>
    rw [isSentinel_stop hstop] at hname
    rw [numberLength_stop hstop]
    exact .number hb hname
  | other hslash hbrace hsemi hquote hdigit => exact .other hslash hbrace hsemi hquote hdigit

end MagicNumbers
