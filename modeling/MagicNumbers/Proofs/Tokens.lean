/-
  What tokens are made of.

  * `Byte.marks` are the bytes that open, close, end or hide something.  Names and numbers hold none of
    them (`plain_nameLength`, `plain_numberLength`), so a walk byte by byte passes over them and meets
    nothing.
  * `Token.Reads` lists what may stand at a place, one constructor for each way to read a token, and
    `Token.reads_of_read` says that the list is complete.
  * `Token.step_or_plain` — a token that is no block is one lexical step, or plain bytes throughout.
-/
import MagicNumbers.Lexeme.Token

namespace MagicNumbers

/-! ## Plain bytes -/

/-- The bytes that open, close, end or hide something. -/
def Byte.marks : Bytes :=
  [slash, doubleQuote, singleQuote, openBrace, closeBrace, semicolon, backslash, lineFeed]

/-- No byte of a text opens, closes, ends or hides anything. -/
def Plain (s : Bytes) : Prop := ∀ b ∈ s, b ∉ Byte.marks

@[simp] theorem plain_cons {b : UInt8} {s : Bytes} :
    Plain (b :: s) ↔ b ∉ Byte.marks ∧ Plain s := by
  simp [Plain]

theorem Plain.newlines_eq {s : Bytes} (h : Plain s) : newlines s = 0 :=
  List.count_eq_zero.2 fun hm => h _ hm (by decide)

/-- A byte of a class is none that the class leaves out. -/
theorem Byte.ne_of_class {p : UInt8 → Bool} {b m : UInt8} (hb : p b = true) (hm : p m = false) :
    b ≠ m := by
  rintro rfl
  rw [hm] at hb
  cases hb

/-- A digit is no quote. -/
theorem Byte.isQuote_of_isDigit {b : UInt8} (h : isDigit b = true) : isQuote b = false :=
  Bool.or_eq_false_iff.2
    ⟨beq_eq_false_iff_ne.2 (ne_of_class h (by decide)), beq_eq_false_iff_ne.2 (ne_of_class h (by decide))⟩

/-- There are two quotes. -/
theorem Byte.eq_of_isQuote {b : UInt8} (h : isQuote b = true) : b = doubleQuote ∨ b = singleQuote := by
  rcases Bool.or_eq_true _ _ ▸ h with h | h
  · exact .inl (eq_of_beq h)
  · exact .inr (eq_of_beq h)

/-- What holds of all numbers below 256 holds of all bytes. -/
theorem Byte.forall_of_ofNat {p : UInt8 → Prop} (h : ∀ n < 256, p (UInt8.ofNat n)) (b : UInt8) :
    p b := by
  have hb := h b.toNat b.toNat_lt
  rwa [UInt8.ofNat_toNat] at hb

/-- Bytes of a class are not among those that it leaves out. -/
theorem Byte.notMem_of_class {p : UInt8 → Bool} {s : Bytes} (hp : s.any p = false) {b : UInt8}
    (h : p b = true) : b ∉ s :=
  fun hm => List.any_eq_false.1 hp b hm h

/-- A byte that a number may hold: one that goes on with it, a digit of base sixteen, which the mark of
    an exponent is too, or the sign of an exponent. -/
def Byte.isLiteralByte (b : UInt8) : Bool :=
  isNumberByte b || isHexDigit b || b == plus || b == minus

theorem Byte.isLiteralByte_of_isDigit {b : UInt8} (h : isDigit b = true) :
    isLiteralByte b = true := by
  simp [isLiteralByte, isNumberByte_of_isDigit h]

theorem Byte.isLiteralByte_of_isExponentMark {b : UInt8} (h : isExponentMark b = true) :
    isLiteralByte b = true := by
  rcases Bool.or_eq_true _ _ ▸ h with h | h
  · rw [eq_of_beq h]; decide
  · rw [eq_of_beq h]; decide

/-- Such a byte is a character of its own. -/
theorem Byte.lt_of_isLiteralByte {b : UInt8} (h : isLiteralByte b = true) : b < 0x80 :=
  forall_of_ofNat (p := fun b => isLiteralByte b = true → b < 0x80) (by decide +kernel) b h

/-- The mark and the sign of an exponent may stand in a number. -/
theorem isLiteralByte_of_mem_exponent {s : Bytes} {k : Nat} (h : exponentLength? s = some k) :
    ∀ a ∈ s.take k, Byte.isLiteralByte a = true := by
  unfold exponentLength? at h
  split at h
  · next e a s =>
    split at h
    · next he =>
      have he' := Byte.isLiteralByte_of_isExponentMark he
      split at h
      · next ha =>
        have ha' : Byte.isLiteralByte a = true := by rcases ha with rfl | rfl <;> decide
        split at h
        · split at h
          · cases h
            simp [he', ha']
          · cases h
        · cases h
      · split at h
        · cases h
          simp [he']
        · cases h
    · cases h
  · cases h

/-- So may all that a number goes on with. -/
theorem isLiteralByte_of_mem_numberFrom (hex : Bool) (n : Nat) (s : Bytes) :
    ∀ a ∈ s.take (numberFrom hex n s - n), Byte.isLiteralByte a = true := by
  fun_induction numberFrom hex n s with
  | case1 => simp
  | case2 n b s hb ih =>
    have hle := (numberFrom_bounds hex (n + 1) s).1
    have hb' : Byte.isLiteralByte b = true := by
      rcases Bool.or_eq_true _ _ ▸ hb with hb | hb
      · simp [Byte.isLiteralByte, hb]
      · simp [Byte.isLiteralByte, (Bool.and_eq_true _ _ ▸ hb).2]
    rw [show numberFrom hex (n + 1) s - n = numberFrom hex (n + 1) s - (n + 1) + 1 by omega,
      List.take_succ_cons]
    exact List.forall_mem_cons.2 ⟨hb', ih⟩
  | case3 => simp
  | case4 n b s _ hhex k hk ih =>
    have hle := (numberFrom_bounds hex (n + k) (s.drop (k - 1))).1
    have hpos := (exponentLength?_bounds hk).1
    rw [show numberFrom hex (n + k) (s.drop (k - 1)) - n =
        k + (numberFrom hex (n + k) (s.drop (k - 1)) - (n + k)) by omega, List.take_add]
    rw [List.drop_cons hpos]
    exact List.forall_mem_append.2 ⟨isLiteralByte_of_mem_exponent hk, ih⟩
  | case5 => simp

/-- **A number holds nothing but bytes that may stand in one.** -/
theorem isLiteralByte_of_mem_number {b : UInt8} (hb : Byte.isDigit b = true) (s : Bytes) :
    ∀ a ∈ (b :: s).take (numberLength b s), Byte.isLiteralByte a = true := by
  have hpos := numberLength_pos b s
  rw [show numberLength b s = numberFrom (isHexLead b s) 1 s - 1 + 1 by
    unfold numberLength at hpos ⊢; omega, List.take_succ_cons]
  exact List.forall_mem_cons.2
    ⟨Byte.isLiteralByte_of_isDigit hb, isLiteralByte_of_mem_numberFrom _ 1 s⟩

theorem plain_numberLength {b : UInt8} (hb : Byte.isDigit b = true) (s : Bytes) :
    Plain ((b :: s).take (numberLength b s)) := by
  intro a ha
  exact Byte.notMem_of_class (p := Byte.isLiteralByte) (by decide) (isLiteralByte_of_mem_number hb s a ha)

theorem plain_nameLength {b : UInt8} (hb : Byte.isDigit b = true) (s : Bytes) :
    Plain ((b :: s).take (nameLength s)) := by
  have hb' : b ∉ Byte.marks := Byte.notMem_of_class (by decide) hb
  have hrun : (s.takeWhile Byte.isNameByte) = s.take (s.takeWhile Byte.isNameByte).length :=
    List.prefix_iff_eq_take.1 (List.takeWhile_prefix _)
  rw [nameLength, Nat.add_comm, List.take_succ_cons, plain_cons, ← hrun]
  refine ⟨hb', fun a ha => Byte.notMem_of_class (p := Byte.isNameByte) (by decide) ?_⟩
  exact List.all_eq_true.1 List.all_takeWhile a ha

/-! ## How a literal ends -/

/-- A text ends as what is left of it behind a first part does. -/
theorem take_add_eq_concat {s : Bytes} {k n : Nat} {x : UInt8}
    (h : ∃ u, (s.drop k).take n = u ++ [x]) : ∃ u, s.take (k + n) = u ++ [x] := by
  obtain ⟨u, hu⟩ := h
  exact ⟨s.take k ++ u, by rw [List.take_add, hu, List.append_assoc]⟩

/-- **A literal that is closed ends in its quote.** -/
theorem take_of_quotedFrom {quote : UInt8} {n m : Nat} {s : Bytes}
    (h : quotedFrom quote n s = .ok m) : ∃ u, s.take (m - n) = u ++ [quote] := by
  fun_induction quotedFrom quote n s with
  | case1 => cases h
  | case2 n s k hk ih =>
    have hpos := commentLength_pos hk
    have hbounds := quotedFrom_bounds h
    rw [show m - n = k + (m - (n + k)) by omega]
    apply take_add_eq_concat
    rw [List.drop_cons hpos]
    exact ih h
  | case3 => cases h
  | case4 n s _ ih =>
    have hbounds := quotedFrom_bounds h
    rw [show m - n = 2 + (m - (n + 2)) by omega]
    exact take_add_eq_concat (ih h)
  | case5 n s =>
    cases h
    rw [show n + 1 - n = 0 + 1 by omega, List.take_succ_cons, List.take_zero]
    exact ⟨[], rfl⟩
  | case6 n b s _ _ _ ih =>
    have hbounds := quotedFrom_bounds h
    rw [show m - n = 1 + (m - (n + 1)) by omega]
    exact take_add_eq_concat (ih h)

/-! ## Reading a token -/

/-- What may stand at a place: `Reads lead b s t` lists the ways to read the token `t` that begins with
    `b` and is followed by `s`, where `lead` leads the run of name bytes before it. -/
inductive Token.Reads (lead : Option UInt8) (b : UInt8) (s : Bytes) : Token → Prop
  | comment {n : Nat} (hb : b = Byte.slash) (hn : commentLength (b :: s) = .ok n) :
      Reads lead b s ⟨.comment, n⟩
  | block {n : Nat} (hb : b = Byte.openBrace) (hn : blockLength (b :: s) = .ok n) :
      Reads lead b s ⟨.block, n⟩
  | semicolon (hb : b = Byte.semicolon) : Reads lead b s ⟨.semicolon, 1⟩
  | quoted {n : Nat} (hb : Byte.isQuote b = true) (hn : quotedLength (b :: s) = .ok n) :
      Reads lead b s ⟨.quoted, n⟩
  | name (hb : Byte.isDigit b = true) (h : (isPartOfName b lead || isSentinel b s) = true) :
      Reads lead b s ⟨.name, nameLength s⟩
  | number (hb : Byte.isDigit b = true) (h : (isPartOfName b lead || isSentinel b s) = false) :
      Reads lead b s ⟨.number, numberLength b s⟩
  | other (hslash : b ≠ Byte.slash) (hbrace : b ≠ Byte.openBrace) (hsemi : b ≠ Byte.semicolon)
      (hquote : Byte.isQuote b = false) (hdigit : Byte.isDigit b = false) :
      Reads lead b s ⟨.other, 1⟩

/-- A length with its kind comes from that length. -/
theorem map_mk_eq_ok {r : Except Unclosed Nat} {k : TokenKind} {t : Token}
    (h : r.map (Token.mk k) = .ok t) : ∃ n, r = .ok n ∧ t = ⟨k, n⟩ := by
  cases r with
  | error e => cases h
  | ok n => cases h; exact ⟨n, rfl, rfl⟩

/-- What fails with a kind fails without it. -/
theorem map_mk_eq_error {r : Except Unclosed Nat} {k : TokenKind} {e : Unclosed} :
    r.map (Token.mk k) = .error e ↔ r = .error e := by
  cases r <;> simp [Except.map]

/-- There are no other ways to read a token. -/
theorem Token.reads_of_read {lead : Option UInt8} {b : UInt8} {s : Bytes} {t : Token}
    (h : Token.read lead b s = .ok t) : Token.Reads lead b s t := by
  unfold Token.read at h
  split at h
  · next hb =>
    obtain ⟨n, hn, rfl⟩ := map_mk_eq_ok h
    exact .comment hb hn
  · next hslash =>
    split at h
    · next hb =>
      obtain ⟨n, hn, rfl⟩ := map_mk_eq_ok h
      exact .block hb hn
    · next hbrace =>
      split at h
      · next hb => cases h; exact .semicolon hb
      · next hsemi =>
        split at h
        · next hb =>
          obtain ⟨n, hn, rfl⟩ := map_mk_eq_ok h
          exact .quoted hb hn
        · next hquote =>
          split at h
          · next hb =>
            split at h
            · next hname => cases h; exact .name hb hname
            · next hname => cases h; exact .number hb (Bool.eq_false_iff.2 hname)
          · next hdigit =>
            cases h
            exact .other hslash hbrace hsemi (Bool.eq_false_iff.2 hquote) (Bool.eq_false_iff.2 hdigit)

/-- What may stand at a place is what is read there. -/
theorem Token.Reads.read {lead : Option UInt8} {b : UInt8} {s : Bytes} {t : Token}
    (h : Token.Reads lead b s t) : Token.read lead b s = .ok t := by
  unfold Token.read
  cases h with
  | comment hb hn => rw [if_pos hb, hn]; rfl
  | block hb hn => rw [if_neg (by rw [hb]; decide), if_pos hb, hn]; rfl
  | semicolon hb => rw [if_neg (by rw [hb]; decide), if_neg (by rw [hb]; decide), if_pos hb]
  | quoted hb hn =>
    rw [if_neg (Byte.ne_of_class hb (by decide)), if_neg (Byte.ne_of_class hb (by decide)),
      if_neg (Byte.ne_of_class hb (by decide)), if_pos hb, hn]
    rfl
  | name hb hname =>
    rw [if_neg (Byte.ne_of_class hb (by decide)), if_neg (Byte.ne_of_class hb (by decide)),
      if_neg (Byte.ne_of_class hb (by decide)), if_neg (by simp [Byte.isQuote_of_isDigit hb]),
      if_pos hb, if_pos hname]
  | number hb hname =>
    rw [if_neg (Byte.ne_of_class hb (by decide)), if_neg (Byte.ne_of_class hb (by decide)),
      if_neg (Byte.ne_of_class hb (by decide)), if_neg (by simp [Byte.isQuote_of_isDigit hb]),
      if_pos hb, if_neg (by simp [hname])]
  | other hslash hbrace hsemi hquote hdigit =>
    rw [if_neg hslash, if_neg hbrace, if_neg hsemi, if_neg (by simp [hquote]),
      if_neg (by simp [hdigit])]

/-- A token that cannot be read is a comment, a block or a literal that is not closed. -/
theorem Token.unclosed_of_read {lead : Option UInt8} {b : UInt8} {s : Bytes} {e : Unclosed}
    (h : Token.read lead b s = .error e) :
    (b = Byte.slash ∧ commentLength (b :: s) = .error e) ∨
    (b = Byte.openBrace ∧ blockLength (b :: s) = .error e) ∨
    (Byte.isQuote b = true ∧ quotedLength (b :: s) = .error e) := by
  unfold Token.read at h
  split at h
  · next hb => exact .inl ⟨hb, map_mk_eq_error.1 h⟩
  · split at h
    · next hb => exact .inr (.inl ⟨hb, map_mk_eq_error.1 h⟩)
    · split at h
      · cases h
      · split at h
        · next hb => exact .inr (.inr ⟨hb, map_mk_eq_error.1 h⟩)
        · split at h
          · split at h <;> cases h
          · cases h

/-- What begins with a brace is a block, and nothing else is. -/
theorem Token.kind_eq_block_iff {lead : Option UInt8} {b : UInt8} {s : Bytes} {t : Token}
    (h : Token.read lead b s = .ok t) : t.kind = .block ↔ b = Byte.openBrace := by
  cases Token.reads_of_read h with
  | comment hb => exact ⟨nofun, fun h => absurd (hb.symm.trans h) (by decide)⟩
  | block hb => exact ⟨fun _ => hb, fun _ => rfl⟩
  | semicolon hb => exact ⟨nofun, fun h => absurd (hb.symm.trans h) (by decide)⟩
  | quoted hb => exact ⟨nofun, fun h => absurd h (Byte.ne_of_class hb (by decide))⟩
  | name hb => exact ⟨nofun, fun h => absurd h (Byte.ne_of_class hb (by decide))⟩
  | number hb => exact ⟨nofun, fun h => absurd h (Byte.ne_of_class hb (by decide))⟩
  | other _ hbrace => exact ⟨nofun, fun h => absurd h hbrace⟩

/-- A block is as long as the brace that opens it says. -/
theorem Token.blockLength_of_read {lead : Option UInt8} {b : UInt8} {s : Bytes} {t : Token}
    (h : Token.read lead b s = .ok t) (hk : t.kind = .block) : blockLength (b :: s) = .ok t.length := by
  cases Token.reads_of_read h with
  | block _ hn => exact hn
  | _ => cases hk

/-! ## Tokens and lexical steps -/

/-- A byte that begins neither a comment nor a literal is passed by itself. -/
theorem stepLength_of_ne {b : UInt8} {s : Bytes} (hslash : b ≠ Byte.slash)
    (hquote : Byte.isQuote b = false) : stepLength b s = .ok 1 := by
  rw [stepLength, if_neg hslash, if_neg (by simp [hquote])]

theorem stepLength_of_notMem_marks {b : UInt8} {s : Bytes} (hb : b ∉ Byte.marks) :
    stepLength b s = .ok 1 := by
  refine stepLength_of_ne (fun h => hb (h ▸ by decide)) (Bool.eq_false_iff.2 fun h => hb ?_)
  rcases Bool.or_eq_true _ _ ▸ h with h | h
  · rw [eq_of_beq h]; decide
  · rw [eq_of_beq h]; decide

/-- **A token that is no block is one lexical step, or plain bytes throughout.** -/
theorem Token.step_or_plain {lead : Option UInt8} {b : UInt8} {s : Bytes} {t : Token}
    (h : Token.read lead b s = .ok t) (hk : t.kind ≠ .block) :
    stepLength b s = .ok t.length ∨ Plain ((b :: s).take t.length) := by
  cases Token.reads_of_read h with
  | comment hb hn => exact .inl (by rw [stepLength, if_pos hb, hn])
  | block => exact absurd rfl hk
  | semicolon hb => exact .inl (stepLength_of_ne (by rw [hb]; decide) (by rw [hb]; decide))
  | quoted hb hn =>
    exact .inl (by rw [stepLength, if_neg (Byte.ne_of_class hb (by decide)), if_pos hb, hn])
  | name hb => exact .inr (plain_nameLength hb s)
  | number hb => exact .inr (plain_numberLength hb s)
  | other hslash _ _ hquote => exact .inl (stepLength_of_ne hslash hquote)

/-- Where no block begins, a token cannot be read just where a lexical step cannot be made. -/
theorem Token.read_eq_error_iff {lead : Option UInt8} {b : UInt8} {s : Bytes} {e : Unclosed}
    (hb : b ≠ Byte.openBrace) : Token.read lead b s = .error e ↔ stepLength b s = .error e := by
  rw [Token.read, stepLength, if_neg hb]
  split
  · exact map_mk_eq_error
  · split
    · next hsemi =>
      rw [if_neg (show ¬Byte.isQuote b = true by rw [hsemi]; decide)]
      simp
    · split
      · exact map_mk_eq_error
      · split
        · split <;> simp
        · simp

end MagicNumbers
