/-
  The grammar of number literals.

  A literal is a digit and what it may go on with: the bytes of numbers, and either the digits of base
  sixteen or exponents, whichever the first two bytes say.  The end of a literal is found by going on as
  long as something fits; here it is compared with the grammar.

  * `NumberTail`, `NumberOf` — the grammar: what a literal goes on with, and the literals that a text may
    begin with.
  * `NumberTail.numberFrom_append` — going on passes over all that the grammar admits, whatever follows.
  * `numberTail_numberFrom` — it passes over nothing else.
  * `numberLength_longest` — so a number is the longest literal that the text begins with.
-/
import MagicNumbers.Proofs.Nesting

namespace MagicNumbers

/-! ## The grammar -/

/-- What a literal goes on with after its first digit, in base sixteen or not. -/
inductive NumberTail : Bool → Bytes → Prop
  | nil {hex : Bool} : NumberTail hex []
  /-- A digit, a point, a separator, a mark of the base or a type suffix. -/
  | byte {hex : Bool} {b : UInt8} {s : Bytes} (hb : Byte.isNumberByte b = true)
      (h : NumberTail hex s) : NumberTail hex (b :: s)
  /-- A digit of base sixteen.  An `e` is one of them, so the sign behind it is not taken. -/
  | hexDigit {b : UInt8} {s : Bytes} (hb : Byte.isHexDigit b = true) (h : NumberTail true s) :
      NumberTail true (b :: s)
  /-- An exponent: its mark, a sign that may be missing, and a digit. -/
  | exponent {mark digit : UInt8} {sign s : Bytes} (hmark : Byte.isExponentMark mark = true)
      (hsign : sign = [] ∨ sign = [Byte.plus] ∨ sign = [Byte.minus])
      (hdigit : Byte.isDigit digit = true) (h : NumberTail false s) :
      NumberTail false (mark :: (sign ++ digit :: s))

/-- A text begins with `0x` or `0X`. -/
def OpensHex (text : Bytes) : Prop := [0x30, 0x78] <+: text ∨ [0x30, 0x58] <+: text

/-- The literals that a text may begin with: which grammar they are from, its first two bytes say. -/
inductive NumberOf (text : Bytes) : Bytes → Prop
  | hex {s : Bytes} (hopens : OpensHex text) (h : NumberTail true s) : NumberOf text (Byte.zero :: s)
  | decimal {digit : UInt8} {s : Bytes} (hopens : ¬OpensHex text)
      (hdigit : Byte.isDigit digit = true) (h : NumberTail false s) : NumberOf text (digit :: s)

/-- Whether a literal is hexadecimal, its digit and the byte behind it tell. -/
theorem opensHex_iff {b : UInt8} {s : Bytes} : OpensHex (b :: s) ↔ isHexLead b s = true := by
  cases s with
  | nil => simp [OpensHex, isHexLead]
  | cons a s =>
    rw [OpensHex, isHexLead, Bool.and_eq_true, beq_iff_eq]
    simp only [List.cons_prefix_cons, List.nil_prefix, and_true, ← and_or_left]
    show 0x30 = b ∧ (0x78 = a ∨ 0x58 = a) ↔ b = 0x30 ∧ (a == 0x78 || a == 0x58) = true
    rw [Bool.or_eq_true, beq_iff_eq, beq_iff_eq, eq_comm, @eq_comm _ 0x78, @eq_comm _ 0x58]

/-! ## Exponents -/

/-- The mark of an exponent goes on with no number by itself. -/
theorem Byte.isNumberByte_of_isExponentMark {b : UInt8} (h : isExponentMark b = true) :
    isNumberByte b = false := by
  rcases Bool.or_eq_true _ _ ▸ h with h | h
  · rw [eq_of_beq h]; decide
  · rw [eq_of_beq h]; decide

/-- **An exponent is a mark, a sign that may be missing, and a digit**, of which the digit is left. -/
theorem exponentLength?_eq_some_iff {s : Bytes} {k : Nat} :
    exponentLength? s = some k ↔
      ∃ mark sign digit t, s = mark :: (sign ++ digit :: t) ∧ k = sign.length + 1 ∧
        Byte.isExponentMark mark = true ∧ (sign = [] ∨ sign = [Byte.plus] ∨ sign = [Byte.minus]) ∧
        Byte.isDigit digit = true := by
  constructor
  · intro h
    unfold exponentLength? at h
    split at h
    · next mark a s =>
      split at h
      · next hmark =>
        split at h
        · next ha =>
          split at h
          · next digit t =>
            split at h
            · next hdigit =>
              cases h
              refine ⟨mark, [a], digit, t, rfl, rfl, hmark, .inr ?_, hdigit⟩
              rcases ha with rfl | rfl
              · exact .inl rfl
              · exact .inr rfl
            · cases h
          · cases h
        · split at h
          · next hdigit =>
            cases h
            exact ⟨mark, [], a, s, rfl, rfl, hmark, .inl rfl, hdigit⟩
          · cases h
      · cases h
    · cases h
  · rintro ⟨mark, sign, digit, t, rfl, rfl, hmark, hsign, hdigit⟩
    have hplus : digit ≠ Byte.plus := Byte.ne_of_class hdigit (by decide)
    have hminus : digit ≠ Byte.minus := Byte.ne_of_class hdigit (by decide)
    rcases hsign with rfl | rfl | rfl
    · simp [exponentLength?, hmark, hplus, hminus, hdigit]
    · simp [exponentLength?, hmark, hdigit]
    · simp [exponentLength?, hmark, hdigit]

/-- Behind a digit there is what a literal goes on with, if there was before it. -/
theorem NumberTail.of_digit {digit : UInt8} {s : Bytes} (hdigit : Byte.isDigit digit = true)
    (h : NumberTail false (digit :: s)) : NumberTail false s := by
  cases h with
  | byte _ h => exact h
  | exponent hmark =>
    have hnumber := Byte.isNumberByte_of_isDigit hdigit
    rw [Byte.isNumberByte_of_isExponentMark hmark] at hnumber
    cases hnumber

/-! ## The grammar and the count -/

/-- **Going on passes over all that the grammar admits**, whatever follows it. -/
theorem NumberTail.numberFrom_append {hex : Bool} {s : Bytes} (h : NumberTail hex s) (n : Nat)
    (after : Bytes) : numberFrom hex n (s ++ after) = numberFrom hex (n + s.length) after := by
  induction h generalizing n with
  | nil => rfl
  | @byte hex b s hb _ ih =>
    rw [List.cons_append, numberFrom, if_pos (by rw [hb, Bool.true_or]), ih, List.length_cons,
      Nat.add_assoc, Nat.add_comm 1]
  | @hexDigit b s hb _ ih =>
    rw [List.cons_append, numberFrom, if_pos (by rw [hb, Bool.true_and, Bool.or_true]), ih,
      List.length_cons, Nat.add_assoc, Nat.add_comm 1]
  | @exponent mark digit sign s hmark hsign hdigit _ ih =>
    have hlen : exponentLength? (mark :: (sign ++ digit :: (s ++ after))) = some (sign.length + 1) :=
      exponentLength?_eq_some_iff.2 ⟨mark, sign, digit, s ++ after, rfl, rfl, hmark, hsign, hdigit⟩
    have hmark' := Byte.isNumberByte_of_isExponentMark hmark
    rw [List.cons_append, List.append_assoc, List.cons_append, numberFrom,
      if_neg (by rw [hmark']; exact Bool.false_ne_true), if_neg Bool.false_ne_true, hlen]
    -- the mark and the sign are passed at once, and then the digit by itself
    show numberFrom false (n + (sign.length + 1)) ((sign ++ digit :: (s ++ after)).drop sign.length) = _
    rw [List.drop_left, numberFrom, if_pos (by rw [Byte.isNumberByte_of_isDigit hdigit]; rfl), ih]
    congr 1
    rw [List.length_cons, List.length_append, List.length_cons]
    omega

/-- **It passes over nothing else.** -/
theorem numberTail_numberFrom (hex : Bool) (n : Nat) (s : Bytes) :
    NumberTail hex (s.take (numberFrom hex n s - n)) := by
  fun_induction numberFrom hex n s with
  | case1 n =>
    rw [List.take_nil]
    exact .nil
  | case2 n b s hb ih =>
    have hle := (numberFrom_bounds hex (n + 1) s).1
    rw [show numberFrom hex (n + 1) s - n = numberFrom hex (n + 1) s - (n + 1) + 1 by omega,
      List.take_succ_cons]
    rcases Bool.or_eq_true _ _ ▸ hb with hb | hb
    · exact .byte hb ih
    · obtain ⟨rfl, hb⟩ := Bool.and_eq_true _ _ ▸ hb
      exact .hexDigit hb ih
  | case3 n b s =>
    rw [Nat.sub_self, List.take_zero]
    exact .nil
  | case4 n b s _ hhex k hk ih =>
    obtain ⟨mark, sign, digit, t, hs, rfl, hmark, hsign, hdigit⟩ := exponentLength?_eq_some_iff.1 hk
    obtain ⟨rfl, rfl⟩ := List.cons.inj hs
    obtain rfl : hex = false := Bool.eq_false_iff.2 hhex
    -- the digit is left by the exponent and passed next
    rw [Nat.add_sub_cancel, List.drop_left, numberFrom,
      if_pos (by rw [Byte.isNumberByte_of_isDigit hdigit]; rfl)] at ih ⊢
    have hle := (numberFrom_bounds false (n + (sign.length + 1) + 1) t).1
    generalize numberFrom false (n + (sign.length + 1) + 1) t = m at ih hle ⊢
    rw [show m - (n + (sign.length + 1)) = m - (n + (sign.length + 1) + 1) + 1 by omega,
      List.take_succ_cons] at ih
    rw [show m - n = (sign.length + (m - (n + (sign.length + 1) + 1) + 1)) + 1 by omega,
      List.take_succ_cons, List.take_length_add_append, List.take_succ_cons]
    exact .exponent hmark hsign hdigit (ih.of_digit hdigit)
  | case5 n b s =>
    rw [Nat.sub_self, List.take_zero]
    exact .nil

/-- A number is a literal of the grammar. -/
theorem numberOf_numberLength {b : UInt8} (hb : Byte.isDigit b = true) (s : Bytes) :
    NumberOf (b :: s) ((b :: s).take (numberLength b s)) := by
  have htail := numberTail_numberFrom (isHexLead b s) 1 s
  have hpos := numberLength_pos b s
  rw [show numberLength b s = numberFrom (isHexLead b s) 1 s - 1 + 1 by
    unfold numberLength at hpos ⊢; omega, List.take_succ_cons]
  by_cases hopens : OpensHex (b :: s)
  · have hhex := opensHex_iff.1 hopens
    obtain ⟨hzero, -⟩ := Bool.and_eq_true _ _ ▸ hhex
    rw [hhex] at htail ⊢
    rw [eq_of_beq hzero] at hopens ⊢
    exact .hex hopens htail
  · have hhex : isHexLead b s = false := Bool.eq_false_iff.2 fun h => hopens (opensHex_iff.2 h)
    rw [hhex] at htail ⊢
    exact .decimal hopens hb htail

/-- No literal that a text begins with is longer than the number it begins with. -/
theorem NumberOf.length_le {b : UInt8} {s w : Bytes} (h : NumberOf (b :: s) w)
    (hw : w <+: b :: s) : w.length ≤ numberLength b s := by
  -- what the literal goes on with is passed, and the count does not fall behind it
  have passed : ∀ {hex t}, isHexLead b s = hex → NumberTail hex t → t <+: s →
      t.length + 1 ≤ numberLength b s := by
    rintro hex t rfl ht ⟨after, rfl⟩
    have hle := (numberFrom_bounds (isHexLead b (t ++ after)) (1 + t.length) after).1
    rw [numberLength, ht.numberFrom_append]
    omega
  cases h with
  | hex hopens ht => exact passed (opensHex_iff.1 hopens) ht (List.cons_prefix_cons.1 hw).2
  | decimal hopens _ ht =>
    have hhex : isHexLead b s = false := Bool.eq_false_iff.2 fun h => hopens (opensHex_iff.2 h)
    exact passed hhex ht (List.cons_prefix_cons.1 hw).2

/-- **A number is the longest literal of the grammar that the text begins with.**  The literal at a digit
    ends where the count says; it is a literal of the grammar that the first two bytes call for, and no
    literal of it that begins there ends later.  No byte of it opens, closes, ends or hides anything. -/
theorem numberLength_longest {src : Bytes} {pos : Nat} {b : UInt8} (hb : src[pos]? = some b)
    (hdigit : Byte.isDigit b = true) :
    let stop := pos + numberLength b (src.drop (pos + 1))
    stop ≤ src.length ∧ NumberOf (src.drop pos) (slice src pos stop) ∧
    (∀ stop', stop' ≤ src.length → NumberOf (src.drop pos) (slice src pos stop') → stop' ≤ stop) ∧
    Plain (slice src pos stop) := by
  intro stop
  have hdrop : src.drop pos = b :: src.drop (pos + 1) := drop_of_getElem? hb
  obtain ⟨hlt, -⟩ := List.getElem?_eq_some_iff.1 hb
  have hslice : slice src pos stop =
      (b :: src.drop (pos + 1)).take (numberLength b (src.drop (pos + 1))) := by
    rw [← hdrop]
    exact slice_add src pos _
  refine ⟨?_, ?_, ?_, ?_⟩
  · have hle := numberLength_le b (src.drop (pos + 1))
    rw [List.length_drop] at hle
    omega
  · rw [hslice, hdrop]
    exact numberOf_numberLength hdigit _
  · intro stop' hstop' hnumber
    rw [hdrop] at hnumber
    have hle := hnumber.length_le (hdrop ▸ List.take_prefix _ _)
    rw [slice, List.length_take, List.length_drop] at hle
    omega
  · rw [hslice]
    exact plain_numberLength hdigit _

/-- An `e` is a digit of a hexadecimal literal and takes no sign; two exponents in a row go on with
    another literal, and a third that has no digit does not. -/
theorem numberLength_longest_exponents :
    let hex := Bytes.ofString "a=0x1e+5"
    let decimal := Bytes.ofString "2.5e-3e7e+;"
    NumberOf (hex.drop 2) (Bytes.ofString "0x1e") ∧
    (∀ stop ≤ 8, NumberOf (hex.drop 2) (slice hex 2 stop) → stop ≤ 6) ∧
    NumberOf decimal (Bytes.ofString "2.5e-3e7") ∧
    ∀ stop ≤ 11, NumberOf decimal (slice decimal 0 stop) → stop ≤ 8 := by
  intro hex decimal
  have hhex : 2 + numberLength 0x30 (hex.drop 3) = 6 := by decide +kernel
  have hdecimal : 0 + numberLength 0x32 (decimal.drop 1) = 8 := by decide +kernel
  have hb : hex[2]? = some 0x30 := by decide
  have hb' : decimal[0]? = some 0x32 := by decide
  have h := numberLength_longest hb (by decide)
  have h' := numberLength_longest hb' (by decide)
  rw [hhex] at h
  rw [hdecimal] at h'
  obtain ⟨-, hnumber, hlongest, -⟩ := h
  obtain ⟨-, hnumber', hlongest', -⟩ := h'
  exact ⟨hnumber, hlongest, hnumber', hlongest'⟩

end MagicNumbers
