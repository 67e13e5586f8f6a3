/-
  Lexing at a position of a source.

  The lengths of the other modules count from the head of a text.  Here the same answers are given
  for a position in a whole source: where the construct ends, and how many line ends it holds if the
  caller keeps count of lines.  An error carries its line.
-/
import MagicNumbers.Lexeme.Block

namespace MagicNumbers

/-- Where a construct ends in the source, and the line ends passed. -/
structure Extent where
  stop : Nat
  newlines : Nat
  deriving DecidableEq, Repr

/-- The extent of the `n` bytes from `pos` on.  No lines are counted unless asked for. -/
def Extent.over (src : Bytes) (pos n : Nat) (countLines : Bool) : Extent :=
  ⟨pos + n, if countLines then MagicNumbers.newlines ((src.drop pos).take n) else 0⟩

/-- Places an error found from `pos` on in the source. -/
def locate (src : Bytes) (pos : Nat) {α : Type} : Except Unclosed α → Except Malformed α
  | .ok a => .ok a
  | .error e => .error ((e.shift pos).inSource src)

/-- The extent of the comment that begins at `pos`.  A byte that begins none is passed by itself and
    counts as no line end. -/
def commentExtent (src : Bytes) (pos : Nat) (countLines : Bool) : Except Malformed Extent :=
  (locate src pos (commentLength (src.drop pos))).map fun n =>
    Extent.over src pos n (countLines && n != 1)

/-- The extent of the quoted literal whose quote is at `pos`. -/
def quotedExtent (src : Bytes) (pos : Nat) (countLines : Bool) : Except Malformed Extent :=
  (locate src pos (quotedLength (src.drop pos))).map fun n => Extent.over src pos n countLines

/-- The end of the block whose brace is at `pos`. -/
def blockStop (src : Bytes) (pos : Nat) : Except Malformed Nat :=
  (locate src pos (blockLength (src.drop pos))).map (pos + ·)

end MagicNumbers
