/-
  What stands at a place of a source.

  Classifying is lexical alone: it depends neither on the keywords nor on where the statement
  starts.  A block is one token, whatever it holds.
-/
import MagicNumbers.Lexeme.Block
import MagicNumbers.Lexeme.Number

namespace MagicNumbers

/-- The kinds of token that a scan tells apart. -/
inductive TokenKind where
  /-- A comment, or a slash that begins none. -/
  | comment
  /-- A quoted literal. -/
  | quoted
  /-- A number literal. -/
  | number
  /-- The rest of a name from a digit on, or a sentinel with what clings to it. -/
  | name
  /-- A block from its brace through the matching one. -/
  | block
  | semicolon
  /-- Any other byte. -/
  | other
  deriving DecidableEq, Repr

/-- A token and its length in bytes. -/
structure Token where
  kind : TokenKind
  length : Nat
  deriving DecidableEq, Repr

/-- The token that begins with `b`, given what leads the run of name bytes before it, and what follows
    it. -/
def Token.read (lead : Option UInt8) (b : UInt8) (s : Bytes) : Except Unclosed Token :=
  if b = Byte.slash then (commentLength (b :: s)).map (⟨.comment, ·⟩)
  else if b = Byte.openBrace then (blockLength (b :: s)).map (⟨.block, ·⟩)
  else if b = Byte.semicolon then .ok ⟨.semicolon, 1⟩
  else if Byte.isQuote b then (quotedLength (b :: s)).map (⟨.quoted, ·⟩)
  else if Byte.isDigit b then
    if isPartOfName b lead || isSentinel b s then .ok ⟨.name, nameLength s⟩
    else .ok ⟨.number, numberLength b s⟩
  else .ok ⟨.other, 1⟩

/-- A token is not empty and ends no later than the text does. -/
theorem Token.read_bounds {lead : Option UInt8} {b : UInt8} {s : Bytes} {t : Token}
    (h : Token.read lead b s = .ok t) : 0 < t.length ∧ t.length ≤ s.length + 1 := by
  have lift : ∀ {r : Except Unclosed Nat} {k : TokenKind},
      r.map (Token.mk k) = .ok t → r = .ok t.length := by
    intro r k hr
    cases r with
    | error e => simp [Except.map] at hr
    | ok n => simp [Except.map] at hr; simp [← hr]
  unfold Token.read at h
  split at h
  · exact ⟨commentLength_pos (lift h), commentLength_le (lift h)⟩
  · split at h
    · have := blockLength_bounds (lift h)
      omega
    · split at h
      · cases h
        simp
      · split at h
        · have := quotedLength_pos (lift h)
          have := quotedLength_le (lift h)
          omega
        · split at h
          · split at h
            · cases h
              exact ⟨nameLength_pos s, nameLength_le s⟩
            · cases h
              exact ⟨numberLength_pos b s, numberLength_le b s⟩
          · cases h
            simp

end MagicNumbers
