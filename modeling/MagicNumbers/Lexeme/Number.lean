/-
  Digits: part of a name, a lone sentinel, or the start of a number literal.

  * `isPartOfName` asks what leads the run of name bytes that a digit stands in.
  * `isSentinel` says that a `0` or a `1` stands alone, so that it is no literal worth reporting.
  * `numberLength` and `nameLength` say how far to go on.
-/
import MagicNumbers.Source.Cursor

namespace MagicNumbers

/-- Whether the byte `b` belongs to a name, `lead` being what leads the run of name bytes before it: a
    letter leads the run that `b` is in. -/
def isPartOfName (b : UInt8) (lead : Option UInt8) : Bool := Byte.isNameLetter (lead.getD b)

/-- The length of the mark and the sign of the exponent that a text begins with: a sign is optional, and
    a digit has to follow. -/
def exponentLength? : Bytes → Option Nat
  | e :: a :: s =>
    if Byte.isExponentMark e then
      if a = Byte.plus ∨ a = Byte.minus then
        match s with
        | d :: _ => if Byte.isDigit d then some 2 else none
        | [] => none
      else if Byte.isDigit a then some 1
      else none
    else none
  | _ => none

/-- Whether the digit `b`, followed by `s`, is a `0` or a `1` that no longer literal begins with. -/
def isSentinel (b : UInt8) (s : Bytes) : Bool :=
  (b == Byte.zero || b == Byte.one) &&
    match s with
    | [] => true
    | a :: _ =>
      !(Byte.isDigit a || a == Byte.dot || a == Byte.underscore) &&
      !(b == Byte.zero && (Byte.isHexMark a || Byte.isBinaryMark a)) &&
      (exponentLength? s).isNone

/-- The end of a literal of which `n` bytes have been passed.  Hexadecimal literals take every
    hexadecimal digit, and an `e` among them is no exponent. -/
def numberFrom (hex : Bool) (n : Nat) : Bytes → Nat
  | [] => n
  | b :: s =>
    if Byte.isNumberByte b || (hex && Byte.isHexDigit b) then numberFrom hex (n + 1) s
    else if hex then n
    else
      match exponentLength? (b :: s) with
      | some k => numberFrom hex (n + k) (s.drop (k - 1))
      | none => n
termination_by s => s.length
decreasing_by all_goals (simp only [List.length_cons, List.length_drop]; omega)

/-- Whether the digit `b`, followed by `s`, announces a hexadecimal literal. -/
def isHexLead (b : UInt8) (s : Bytes) : Bool :=
  b == Byte.zero && s.head?.any Byte.isHexMark

/-- The length of the literal that the digit `b`, followed by `s`, begins. -/
def numberLength (b : UInt8) (s : Bytes) : Nat := numberFrom (isHexLead b s) 1 s

/-- The length of a run of name bytes after its first byte, which is not looked at. -/
def nameLength (s : Bytes) : Nat := 1 + (s.takeWhile Byte.isNameByte).length

/-! ## Bounds -/

theorem exponentLength?_bounds {s : Bytes} {k : Nat} (h : exponentLength? s = some k) :
    0 < k ∧ k < s.length := by
  unfold exponentLength? at h
  repeat' split at h
  all_goals simp at h
  all_goals subst h; simp

theorem numberFrom_bounds (hex : Bool) (n : Nat) (s : Bytes) :
    n ≤ numberFrom hex n s ∧ numberFrom hex n s ≤ n + s.length := by
  fun_induction numberFrom hex n s with
  | case1 n => exact ⟨Nat.le_refl n, Nat.le_add_right n _⟩
  | case2 n b s _ ih =>
    simp only [List.length_cons]
    omega
  | case3 n => exact ⟨Nat.le_refl n, Nat.le_add_right n _⟩
  | case4 n b s _ _ k hk ih =>
    have := exponentLength?_bounds hk
    simp only [List.length_cons, List.length_drop] at this ih ⊢
    omega
  | case5 n => exact ⟨Nat.le_refl n, Nat.le_add_right n _⟩

theorem numberLength_pos (b : UInt8) (s : Bytes) : 0 < numberLength b s :=
  (numberFrom_bounds _ 1 s).1

theorem numberLength_le (b : UInt8) (s : Bytes) : numberLength b s ≤ s.length + 1 := by
  have := (numberFrom_bounds (isHexLead b s) 1 s).2
  unfold numberLength
  omega

theorem nameLength_pos (s : Bytes) : 0 < nameLength s := by
  unfold nameLength
  omega

theorem nameLength_le (s : Bytes) : nameLength s ≤ s.length + 1 := by
  have := (List.takeWhile_sublist (p := Byte.isNameByte) (l := s)).length_le
  unfold nameLength
  omega

end MagicNumbers
