/-
  Numbers as they are given on a command line.
-/
namespace MagicNumbers.Text

/-- The value of some decimal digits, with `n` read before them. -/
def digitsFrom (n : Nat) : List Char → Option Nat
  | [] => some n
  | c :: cs => if c.isDigit then digitsFrom (n * 10 + (c.toNat - '0'.toNat)) cs else none

/-- A natural number: an optional plus sign and one or more digits, at most `limit`. -/
def natural? (limit : Nat) (s : String) : Option Nat :=
  let digits :=
    match s.toList with
    | '+' :: cs => cs
    | cs => cs
  if digits.isEmpty then none
  else (digitsFrom 0 digits).filter (· ≤ limit)

/-- The largest number of 64 bits. -/
def maxWord : Nat := 18446744073709551615

end MagicNumbers.Text
