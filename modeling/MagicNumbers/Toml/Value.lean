/-
  The part of TOML that settings are written in.

  A document is a row of keys with values.  A value is a text, an integer, a truth value or an array
  of texts.  Tables, numbers with a fraction and dates are of no use to a setting and are not read.

  * `integer?` : the integers of TOML, with separators between digits and four bases.
-/
namespace MagicNumbers.Toml

/-- A value that a setting can have. -/
inductive Value where
  | text (s : String)
  | integer (n : Int)
  | boolean (b : Bool)
  | texts (items : List String)
  deriving DecidableEq, Repr

/-! ## Integers -/

/-- The value of a digit of any base up to sixteen. -/
def digitValue? (c : Char) : Option Nat :=
  if '0' ≤ c ∧ c ≤ '9' then some (c.toNat - '0'.toNat)
  else if 'a' ≤ c ∧ c ≤ 'f' then some (c.toNat - 'a'.toNat + 10)
  else if 'A' ≤ c ∧ c ≤ 'F' then some (c.toNat - 'A'.toNat + 10)
  else none

/-- The value of digits that may be parted by single underscores, `n` being the value of those read so
    far.  An underscore stands between two digits. -/
def digits? (base n : Nat) (afterDigit : Bool) : List Char → Option Nat
  | [] => if afterDigit then some n else none
  | c :: cs =>
    if c = '_' then if afterDigit then digits? base n false cs else none
    else
      match digitValue? c with
      | some d => if d < base then digits? base (n * base + d) true cs else none
      | none => none

/-- A decimal number without a sign.  A zero leads only itself. -/
def decimal? (cs : List Char) : Option Nat :=
  if cs.head? = some '0' ∧ cs.length ≠ 1 then none else digits? 10 0 false cs

/-- An integer that 64 bits hold.  Only decimal numbers have a sign. -/
def integer? (cs : List Char) : Option Int :=
  let value : Option Int :=
    match cs with
    | '+' :: cs => (decimal? cs).map Int.ofNat
    | '-' :: cs => (decimal? cs).map fun n => -Int.ofNat n
    | '0' :: 'x' :: cs => (digits? 16 0 false cs).map Int.ofNat
    | '0' :: 'o' :: cs => (digits? 8 0 false cs).map Int.ofNat
    | '0' :: 'b' :: cs => (digits? 2 0 false cs).map Int.ofNat
    | cs => (decimal? cs).map Int.ofNat
  value.filter fun n => -9223372036854775808 ≤ n ∧ n ≤ 9223372036854775807

example : integer? "1_000".toList = some 1000 := by decide
example : integer? "-0".toList = some 0 := by decide
example : integer? "0xfF".toList = some 255 := by decide
example : integer? "012".toList = none := by decide
example : integer? "1__0".toList = none := by decide

end MagicNumbers.Toml
