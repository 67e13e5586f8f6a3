/-
  Keyword questions about a range of a source, given by positions.

  A range that is reversed, too short or past the end holds no word.
-/
import MagicNumbers.Context.Statement
import MagicNumbers.Lexeme.Extent

namespace MagicNumbers

/-- Whether `word` stands in `[start, stop)` as a whole word.  The bytes that bound it may lie outside
    the range. -/
def rangeHoldsWord (src : Bytes) (start stop : Nat) (word : Bytes) : Except Malformed Bool :=
  (locate src 0 (search word stop (Cursor.ofOffset src start))).map Search.isFound

/-- Whether all of `keywords` stand in `[start, stop)`. -/
def rangeHoldsAll (src : Bytes) (start stop : Nat) (keywords : List Bytes) : Except Malformed Bool :=
  locate src 0 (holdsAll keywords stop (Cursor.ofOffset src start))

/-- The answers to the same question for a row of bounds, the statement being followed along. -/
def followStatement (src : Bytes) (start : Nat) (stops : List Nat) (keywords : List Bytes) :
    List (Except Malformed Bool) :=
  ((Statement.fresh keywords (Cursor.ofOffset src start)).askAll stops).map (locate src 0)

end MagicNumbers
