/-
  A place in a source text.

  Lexing looks ahead as far as it likes but back only over names: it asks which byte leads the run of
  name bytes that ends at a place.  A cursor holds that byte, so it need not hold the text behind it.

  * `leadOf` is the byte that leads the run of name bytes at the end of a text; `leadOf_eq` says so.
  * `Cursor.ofOffset src pos` is the place `pos` bytes into `src`, which may lie past the end.
  * `advance n` moves right; `Cursor.advance_ofOffset` says that the two agree.
-/
import MagicNumbers.Source.Byte

namespace MagicNumbers

/-! ## Looking back -/

/-- The byte that leads the run of name bytes at the end of a text, after one more byte. -/
def nextLead (lead : Option UInt8) (b : UInt8) : Option UInt8 :=
  if Byte.isNameByte b then some (lead.getD b) else none

/-- The byte that leads the run of name bytes at the end of a text, if it ends in a name byte. -/
def leadOf (s : Bytes) : Option UInt8 := s.foldl nextLead none

@[simp] theorem leadOf_nil : leadOf [] = none := rfl

theorem leadOf_concat (s : Bytes) (b : UInt8) : leadOf (s ++ [b]) = nextLead (leadOf s) b := by
  simp [leadOf]

/-- Where no name is under way, names begin as they do at the start of a text. -/
theorem leadOf_append {s : Bytes} (h : leadOf s = none) (t : Bytes) : leadOf (s ++ t) = leadOf t := by
  rw [leadOf] at h ⊢
  rw [List.foldl_append, h, leadOf]

/-- Going back over name bytes, the last one met is the one that leads the run. -/
theorem leadOf_eq (s : Bytes) : leadOf s = (s.reverse.takeWhile Byte.isNameByte).getLast? := by
  suffices ∀ r : Bytes, leadOf r.reverse = (r.takeWhile Byte.isNameByte).getLast? by
    simpa using this s.reverse
  intro r
  induction r with
  | nil => rfl
  | cons b r ih =>
    rw [List.reverse_cons, leadOf_concat, ih, nextLead]
    by_cases hb : Byte.isNameByte b = true
    · rw [List.takeWhile_cons, if_pos hb, if_pos hb, List.getLast?_cons]
    · rw [List.takeWhile_cons, if_neg hb, if_neg hb, List.getLast?_nil]

/-! ## Places -/

/-- A place in a text: how many bytes precede it, the byte that leads the run of name bytes that ends
    there, and the bytes from it on.  Past the end of the text the offset goes on counting and nothing
    is left. -/
structure Cursor where
  offset : Nat
  lead : Option UInt8
  rest : Bytes
  deriving DecidableEq, Repr

namespace Cursor

/-- Moves over `n` bytes. -/
def advance (c : Cursor) (n : Nat) : Cursor :=
  match n, c.rest with
  | 0, _ => c
  | n + 1, b :: s => advance ⟨c.offset + 1, nextLead c.lead b, s⟩ n
  | n + 1, [] => ⟨c.offset + (n + 1), c.lead, []⟩

/-- The start of a text. -/
def start (src : Bytes) : Cursor := ⟨0, none, src⟩

/-- The place `pos` bytes into a text. -/
def ofOffset (src : Bytes) (pos : Nat) : Cursor := (start src).advance pos

/-! ## What a move does -/

@[simp] theorem advance_zero (c : Cursor) : c.advance 0 = c := by
  simp [advance]

theorem advance_eq (c : Cursor) (n : Nat) :
    c.advance n = ⟨c.offset + n, (c.rest.take n).foldl nextLead c.lead, c.rest.drop n⟩ := by
  induction n generalizing c with
  | zero => simp
  | succ n ih =>
    obtain ⟨o, l, r⟩ := c
    cases r with
    | nil => simp [advance]
    | cons b s => simp [advance, ih]; omega

@[simp] theorem offset_advance (c : Cursor) (n : Nat) : (c.advance n).offset = c.offset + n := by
  simp [advance_eq]

@[simp] theorem rest_advance (c : Cursor) (n : Nat) : (c.advance n).rest = c.rest.drop n := by
  simp [advance_eq]

theorem lead_advance (c : Cursor) (n : Nat) :
    (c.advance n).lead = (c.rest.take n).foldl nextLead c.lead := by
  simp [advance_eq]

/-- Two moves are one. -/
theorem advance_advance (c : Cursor) (m n : Nat) : (c.advance m).advance n = c.advance (m + n) := by
  simp [advance_eq, Nat.add_assoc, List.take_add]

theorem ofOffset_eq (src : Bytes) (pos : Nat) :
    Cursor.ofOffset src pos = ⟨pos, leadOf (src.take pos), src.drop pos⟩ := by
  simp [ofOffset, start, advance_eq, leadOf]

@[simp] theorem offset_ofOffset (src : Bytes) (pos : Nat) : (ofOffset src pos).offset = pos := by
  rw [ofOffset_eq]

@[simp] theorem rest_ofOffset (src : Bytes) (pos : Nat) :
    (ofOffset src pos).rest = src.drop pos := by
  rw [ofOffset_eq]

@[simp] theorem lead_ofOffset (src : Bytes) (pos : Nat) :
    (ofOffset src pos).lead = leadOf (src.take pos) := by
  rw [ofOffset_eq]

/-- A move from a place in a text leads to the place that many bytes further. -/
theorem advance_ofOffset (src : Bytes) (pos n : Nat) :
    (Cursor.ofOffset src pos).advance n = Cursor.ofOffset src (pos + n) := by
  simp [ofOffset, advance_advance]

end Cursor

end MagicNumbers
