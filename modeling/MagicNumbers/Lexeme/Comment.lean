/-
  Comments.

  Whether a slash opens a comment is decided by the byte after it.  All lengths count from the slash.

  * `commentLength` : `//` runs through its line feed or to the end of the text; `/*` runs through
    the first `*/` that begins after it; any other slash stands alone.
  * `commentLength_pos` : no answer is empty, so a walk over comments moves on.
-/
import MagicNumbers.Lexeme.Unclosed

namespace MagicNumbers

/-- The number of bytes through the first line feed, or all of them. -/
def lineLength (s : Bytes) : Nat :=
  match s.findIdx? (· == Byte.lineFeed) with
  | some i => i + 1
  | none => s.length

/-- `n` plus the number of bytes through the first `*/`. -/
def closerFrom (n : Nat) : Bytes → Option Nat
  | a :: b :: s =>
    if a = Byte.star ∧ b = Byte.slash then some (n + 2) else closerFrom (n + 1) (b :: s)
  | _ => none

/-- The length of what the first byte of a text, taken for a slash, begins. -/
def commentLength : Bytes → Except Unclosed Nat
  | _ :: b :: s =>
    if b = Byte.slash then .ok (2 + lineLength s)
    else if b = Byte.star then
      match closerFrom 2 s with
      | some n => .ok n
      | none => .error ⟨.blockComment, 0⟩
    else .ok 1
  | _ => .ok 1

/-! ## Lines -/

theorem lineLength_lineFeed (s : Bytes) : lineLength (Byte.lineFeed :: s) = 1 := rfl

theorem lineLength_cons {b : UInt8} (hb : b ≠ Byte.lineFeed) (s : Bytes) :
    lineLength (b :: s) = lineLength s + 1 := by
  rw [lineLength, lineLength, List.findIdx?_cons, if_neg (by simp [hb])]
  cases s.findIdx? (· == Byte.lineFeed) with
  | none => rfl
  | some i => rfl

/-! ## Bounds -/

theorem lineLength_le (s : Bytes) : lineLength s ≤ s.length := by
  unfold lineLength
  split
  · next i h =>
    have := (List.findIdx?_eq_some_iff_getElem.1 h).1
    omega
  · exact Nat.le_refl _

theorem closerFrom_bounds {n m : Nat} {s : Bytes} (h : closerFrom n s = some m) :
    n + 2 ≤ m ∧ m ≤ n + s.length := by
  fun_induction closerFrom n s with
  | case1 n a b s hab =>
    cases h
    simp only [List.length_cons]
    omega
  | case2 n a b s hab ih =>
    have := ih h
    simp only [List.length_cons] at this ⊢
    omega
  | case3 => cases h

theorem commentLength_pos {s : Bytes} {n : Nat} (h : commentLength s = .ok n) : 0 < n := by
  unfold commentLength at h
  split at h
  · split at h
    · cases h; omega
    · split at h
      · split at h
        · next h' => cases h; have := (closerFrom_bounds h').1; omega
        · cases h
      · cases h; omega
  · cases h; omega

/-- A comment ends no later than the text does. -/
theorem commentLength_le {b : UInt8} {s : Bytes} {n : Nat} (h : commentLength (b :: s) = .ok n) :
    n ≤ s.length + 1 := by
  cases s with
  | nil => cases h; exact Nat.le_refl 1
  | cons a r =>
    rw [commentLength] at h
    split at h
    · cases h
      have := lineLength_le r
      simp only [List.length_cons]
      omega
    · split at h
      · split at h
        · next h' =>
          cases h
          have := (closerFrom_bounds h').2
          simp only [List.length_cons]
          omega
        · cases h
      · cases h
        exact Nat.le_add_left 1 _

/-- The only error is the comment's own. -/
theorem commentLength_error {s : Bytes} {e : Unclosed} (h : commentLength s = .error e) :
    e = ⟨.blockComment, 0⟩ := by
  unfold commentLength at h
  split at h
  · split at h
    · cases h
    · split at h
      · split at h
        · cases h
        · cases h; rfl
      · cases h
  · cases h

end MagicNumbers
