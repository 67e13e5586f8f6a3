/-
  Lexical steps and brace blocks.

  * `stepLength` : one step of a walk that sees comments and quoted literals as wholes and any other
    byte by itself.
  * `blockLength` : a block runs from its brace through the brace that matches it, where braces in
    comments and literals do not count.
-/
import MagicNumbers.Lexeme.Quoted

namespace MagicNumbers

/-- The length of the comment, the literal or the single byte that a text begins with. -/
def stepLength (b : UInt8) (s : Bytes) : Except Unclosed Nat :=
  if b = Byte.slash then commentLength (b :: s)
  else if Byte.isQuote b then quotedLength (b :: s)
  else .ok 1

/-- The end of a block of which `n` bytes have been passed, `depth` inner blocks being open. -/
def blockFrom (depth n : Nat) : Bytes → Except Unclosed Nat
  | [] => .error ⟨.brace, 0⟩
  | b :: s =>
    if b = Byte.openBrace then blockFrom (depth + 1) (n + 1) s
    else if b = Byte.closeBrace then
      match depth with
      | 0 => .ok (n + 1)
      | depth + 1 => blockFrom depth (n + 1) s
    else
      match stepLength b s with
      | .ok k => blockFrom depth (n + k) (s.drop (k - 1))
      | .error e => .error (e.shift n)
termination_by s => s.length
decreasing_by all_goals (simp only [List.length_cons, List.length_drop]; omega)

/-- The length of the block that the first byte of a text, taken for its brace, opens. -/
def blockLength (s : Bytes) : Except Unclosed Nat := blockFrom 0 1 (s.drop 1)

/-! ## Bounds -/

theorem stepLength_pos {b : UInt8} {s : Bytes} {n : Nat} (h : stepLength b s = .ok n) : 0 < n := by
  unfold stepLength at h
  split at h
  · exact commentLength_pos h
  · split at h
    · have := quotedLength_pos h; omega
    · cases h; omega

theorem stepLength_le {b : UInt8} {s : Bytes} {n : Nat} (h : stepLength b s = .ok n) :
    n ≤ s.length + 1 := by
  unfold stepLength at h
  split at h
  · exact commentLength_le h
  · split at h
    · exact quotedLength_le h
    · cases h; omega

theorem blockFrom_bounds {depth n m : Nat} {s : Bytes} (h : blockFrom depth n s = .ok m) :
    n + depth < m ∧ m ≤ n + s.length := by
  fun_induction blockFrom depth n s with
  | case1 => cases h
  | case2 depth n s ih =>
    have := ih h
    simp only [List.length_cons]
    omega
  | case3 n s =>
    cases h
    simp only [List.length_cons]
    omega
  | case4 n s _ depth ih =>
    have := ih h
    simp only [List.length_cons]
    omega
  | case5 depth n b s _ _ k hk ih =>
    have h1 := stepLength_pos hk
    have h2 := stepLength_le hk
    have := ih h
    simp only [List.length_cons, List.length_drop] at this ⊢
    omega
  | case6 => cases h

theorem blockLength_bounds {b : UInt8} {s : Bytes} {n : Nat} (h : blockLength (b :: s) = .ok n) :
    1 < n ∧ n ≤ s.length + 1 := by
  have := blockFrom_bounds h
  simp only [List.drop_succ_cons, List.drop_zero] at this
  omega

end MagicNumbers
