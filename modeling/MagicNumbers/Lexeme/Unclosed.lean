/-
  Lexical errors: a construct that is opened and never closed.

  Lexing itself knows only where in the text it was given the construct opens (`Unclosed`).  The
  line, which takes the text before it, is added for the whole source (`Malformed`).
-/
import MagicNumbers.Source.Byte

namespace MagicNumbers

/-- What has an end of its own and can therefore lack it. -/
inductive Construct where
  | blockComment
  | stringLiteral
  | charLiteral
  | brace
  deriving DecidableEq, Repr

namespace Construct

/-- The name used in messages. -/
def name : Construct → String
  | blockComment => "block comment"
  | stringLiteral => "string literal"
  | charLiteral => "character literal"
  | brace => "brace"

/-- The literal that a quote opens.  Any byte but `'` delimits a string. -/
def ofQuote (quote : UInt8) : Construct :=
  if quote = Byte.singleQuote then charLiteral else stringLiteral

/-- The bytes that open a construct. -/
def opener : Construct → Bytes
  | blockComment => [Byte.slash, Byte.star]
  | stringLiteral => [Byte.doubleQuote]
  | charLiteral => [Byte.singleQuote]
  | brace => [Byte.openBrace]

end Construct

/-- A construct that the text ends without closing, and where it opens. -/
structure Unclosed where
  construct : Construct
  offset : Nat
  deriving DecidableEq, Repr

/-- The same error seen from `n` bytes further left. -/
def Unclosed.shift (e : Unclosed) (n : Nat) : Unclosed := { e with offset := e.offset + n }

@[simp] theorem Unclosed.shift_zero (e : Unclosed) : e.shift 0 = e := rfl

theorem Unclosed.shift_shift (e : Unclosed) (m n : Nat) :
    (e.shift m).shift n = e.shift (m + n) := by
  simp [Unclosed.shift, Nat.add_assoc]

/-- A source that cannot be lexed: what is not closed, where it opens, and on which line. -/
structure Malformed extends Unclosed where
  line : Nat
  deriving DecidableEq, Repr

namespace Malformed

/-- The error for a construct that opens at `offset`, which is taken to be no later than the end of the
    source.  Its line is one more than the number of line feeds before it. -/
def ofSource (src : Bytes) (construct : Construct) (offset : Nat) : Malformed :=
  let offset := min offset src.length
  { construct, offset, line := newlines (src.take offset) + 1 }

/-- The error with its place in words. -/
def message (e : Malformed) : String :=
  s!"unterminated {e.construct.name} starting at line {e.line} (offset {e.offset})"

end Malformed

/-- Places an error of lexing in the whole source. -/
def Unclosed.inSource (src : Bytes) (e : Unclosed) : Malformed :=
  Malformed.ofSource src e.construct e.offset

end MagicNumbers
