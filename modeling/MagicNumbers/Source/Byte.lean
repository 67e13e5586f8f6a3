/-
  Bytes of a source text and their classes.

  A source is a list of bytes.  Nothing is decoded before it is lexed: a byte of a multi-byte UTF-8
  character counts as a letter, so a name in any script is one run of name bytes.

  * `isNameByte` / `isNameLetter` say what may stand in a name and what may lead one.
  * `isNumberByte` says what a number literal may hold besides hexadecimal digits and exponents.
  * `newlines` counts line feeds, the only line ends there are.
-/
namespace MagicNumbers

/-- A source text, a word or a file name, as it is stored. -/
abbrev Bytes := List UInt8

/-- The UTF-8 bytes of a text. -/
def Bytes.ofString (s : String) : Bytes := s.toUTF8.data.toList

namespace Byte

/-! ## The bytes that lexing tells apart -/

abbrev lineFeed : UInt8 := 0x0A
abbrev carriageReturn : UInt8 := 0x0D
abbrev doubleQuote : UInt8 := 0x22
abbrev singleQuote : UInt8 := 0x27
abbrev star : UInt8 := 0x2A
abbrev slash : UInt8 := 0x2F
abbrev semicolon : UInt8 := 0x3B
abbrev backslash : UInt8 := 0x5C
abbrev openBrace : UInt8 := 0x7B
abbrev closeBrace : UInt8 := 0x7D
abbrev dot : UInt8 := 0x2E
abbrev underscore : UInt8 := 0x5F
abbrev dollar : UInt8 := 0x24
abbrev plus : UInt8 := 0x2B
abbrev minus : UInt8 := 0x2D
abbrev zero : UInt8 := 0x30
abbrev one : UInt8 := 0x31

/-! ## Classes -/

/-- `0` to `9`. -/
def isDigit (b : UInt8) : Bool := 0x30 ≤ b && b ≤ 0x39

/-- `A` to `Z` and `a` to `z`. -/
def isLetter (b : UInt8) : Bool := (0x41 ≤ b && b ≤ 0x5A) || (0x61 ≤ b && b ≤ 0x7A)

/-- A digit of base sixteen, of either case. -/
def isHexDigit (b : UInt8) : Bool :=
  isDigit b || (0x41 ≤ b && b ≤ 0x46) || (0x61 ≤ b && b ≤ 0x66)

/-- A byte that can lead a name: a letter, `_`, `$`, or any byte of a non-ASCII character. -/
def isNameLetter (b : UInt8) : Bool :=
  isLetter b || b == underscore || b == dollar || 0x80 ≤ b

/-- A byte of a name: one that can lead it, or a digit. -/
def isNameByte (b : UInt8) : Bool := isNameLetter b || isDigit b

/-- `x` and `X`, which announce a hexadecimal literal after a zero. -/
def isHexMark (b : UInt8) : Bool := b == 0x78 || b == 0x58

/-- `b` and `B`, which announce a binary literal after a zero. -/
def isBinaryMark (b : UInt8) : Bool := b == 0x62 || b == 0x42

/-- `e` and `E`, which announce an exponent. -/
def isExponentMark (b : UInt8) : Bool := b == 0x65 || b == 0x45

/-- The suffixes of typed literals: `f`, `d` and `l`, of either case. -/
def isTypeSuffix (b : UInt8) : Bool :=
  b == 0x66 || b == 0x46 || b == 0x64 || b == 0x44 || b == 0x6C || b == 0x4C

/-- A byte that goes on with a number literal whatever stands before it: a digit, a point, a separator,
    a mark of the base or a type suffix. -/
def isNumberByte (b : UInt8) : Bool :=
  isDigit b || b == dot || b == underscore || isHexMark b || isBinaryMark b || isTypeSuffix b

/-- The two bytes that open a quoted literal. -/
def isQuote (b : UInt8) : Bool := b == doubleQuote || b == singleQuote

/-- What leads a name is part of it. -/
theorem isNameByte_of_isNameLetter {b : UInt8} (h : isNameLetter b = true) :
    isNameByte b = true := by
  simp [isNameByte, h]

/-- A digit is part of a name, though it cannot lead one. -/
theorem isNameByte_of_isDigit {b : UInt8} (h : isDigit b = true) : isNameByte b = true := by
  simp [isNameByte, h]

/-- A digit goes on with a number. -/
theorem isNumberByte_of_isDigit {b : UInt8} (h : isDigit b = true) : isNumberByte b = true := by
  simp [isNumberByte, h]

end Byte

/-- The number of line feeds in a text. -/
def newlines (s : Bytes) : Nat := s.count Byte.lineFeed

@[simp] theorem newlines_nil : newlines [] = 0 := rfl

@[simp] theorem newlines_append (s t : Bytes) : newlines (s ++ t) = newlines s + newlines t :=
  List.count_append

end MagicNumbers
