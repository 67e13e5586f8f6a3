/-
  Looking for a keyword in a stretch of source.

  A keyword counts only as a whole word, and not inside comments or quoted literals.  The search
  goes by lexical steps and stops where the word no longer fits before its bound.  The places it
  visits do not depend on the bound, so a search that came up empty can go on from where it paused
  once the bound is larger.
-/
import MagicNumbers.Lexeme.Block
import MagicNumbers.Source.Cursor

namespace MagicNumbers

/-- How far a search has come: the word was found, or it is to go on from a place. -/
inductive Search where
  | found
  | paused (next : Cursor)
  deriving DecidableEq, Repr

/-- Whether the search is over. -/
def Search.isFound : Search → Bool
  | found => true
  | paused _ => false

/-- Whether a word is no longer than a text. -/
def fits : Bytes → Bytes → Bool
  | [], _ => true
  | _ :: _, [] => false
  | _ :: w, _ :: s => fits w s

theorem fits_iff (w s : Bytes) : fits w s = true ↔ w.length ≤ s.length := by
  fun_induction fits w s <;> simp_all

/-- Whether a word stands at a place, with no name byte on either side of it. -/
def standsAt (word : Bytes) (c : Cursor) : Bool :=
  c.lead.isNone && !(c.rest.drop word.length).head?.any Byte.isNameByte &&
    word.isPrefixOf c.rest

/-- Looks for `word` from a place on, until it does not fit before `bound` or the end of the text. -/
def searchFrom (word : Bytes) (bound : Nat) (c : Cursor) : Except Unclosed Search :=
  match _hr : c.rest with
  | [] => .ok (.paused c)
  | b :: s =>
    if c.offset + word.length ≤ bound ∧ fits word (b :: s) then
      if b = Byte.slash ∨ Byte.isQuote b then
        match _hk : stepLength b s with
        | .ok k => searchFrom word bound (c.advance k)
        | .error e => .error (e.shift c.offset)
      else if standsAt word c then .ok .found
      else searchFrom word bound (c.advance 1)
    else .ok (.paused c)
termination_by c.rest.length
decreasing_by
  · have := stepLength_pos _hk
    simp [_hr]
    omega
  · simp [_hr]

/-- Looks for a word; the empty word is found nowhere. -/
def search (word : Bytes) (bound : Nat) (c : Cursor) : Except Unclosed Search :=
  if word.isEmpty then .ok (.paused c) else searchFrom word bound c

/-- Whether every one of some words is found from a place on.  They are looked for in turn, and the
    first that is missing settles the question. -/
def allFound (bound : Nat) (c : Cursor) : List Bytes → Except Unclosed Bool
  | [] => .ok true
  | word :: words =>
    match search word bound c with
    | .error e => .error e
    | .ok (.paused _) => .ok false
    | .ok .found => allFound bound c words

/-- Whether a stretch of source holds all the safe keywords.  Where there are none, nothing is safe. -/
def holdsAll (keywords : List Bytes) (bound : Nat) (c : Cursor) : Except Unclosed Bool :=
  if keywords.isEmpty then .ok false else allFound bound c keywords

end MagicNumbers
