/-
  Quoted literals.

  A literal runs from its quote through the next quote of its kind.  A backslash hides the byte
  after it, and a slash inside is lexed as it is outside: a comment inside a literal hides any quote
  it holds.  All lengths count from the opening quote.
-/
import MagicNumbers.Lexeme.Comment

namespace MagicNumbers

/-- The end of a literal of which `n` bytes have been passed, `s` being what follows them. -/
def quotedFrom (quote : UInt8) (n : Nat) : Bytes → Except Unclosed Nat
  | [] => .error ⟨.ofQuote quote, 0⟩
  | b :: s =>
    if b = Byte.slash then
      match commentLength (b :: s) with
      | .ok k => quotedFrom quote (n + k) (s.drop (k - 1))
      | .error e => .error (e.shift n)
    else if b = Byte.backslash then quotedFrom quote (n + 2) (s.drop 1)
    else if b = quote then .ok (n + 1)
    else quotedFrom quote (n + 1) s
termination_by s => s.length
decreasing_by all_goals (simp only [List.length_cons, List.length_drop]; omega)

/-- The length of the literal that the first byte of a text delimits. -/
def quotedLength : Bytes → Except Unclosed Nat
  | [] => .ok 0
  | quote :: s => quotedFrom quote 1 s

/-! ## Bounds -/

theorem quotedFrom_bounds {quote : UInt8} {n m : Nat} {s : Bytes}
    (h : quotedFrom quote n s = .ok m) : n < m ∧ m ≤ n + s.length := by
  fun_induction quotedFrom quote n s with
  | case1 => cases h
  | case2 n s k hk ih =>
    have h1 := commentLength_pos hk
    have h2 := commentLength_le hk
    have := ih h
    simp only [List.length_cons, List.length_drop] at this ⊢
    omega
  | case3 => cases h
  | case4 n s _ ih =>
    have := ih h
    simp only [List.length_cons, List.length_drop] at this ⊢
    omega
  | case5 n s =>
    cases h
    simp only [List.length_cons]
    omega
  | case6 n b s _ _ _ ih =>
    have := ih h
    simp only [List.length_cons]
    omega

theorem quotedLength_pos {b : UInt8} {s : Bytes} {n : Nat} (h : quotedLength (b :: s) = .ok n) :
    1 < n := (quotedFrom_bounds h).1

theorem quotedLength_le {b : UInt8} {s : Bytes} {n : Nat} (h : quotedLength (b :: s) = .ok n) :
    n ≤ s.length + 1 := by
  have := (quotedFrom_bounds h).2
  omega

end MagicNumbers
