/-
  UTF-8, well-formed and not.

  The decoder reads one byte at a time and keeps the part of a character it has seen.  A byte that
  cannot go on with that part closes it as ill-formed, and is then read as the first byte of what
  follows.  Hence each ill-formed stretch is as long as it can be while it still begins some
  character.

  * `decode` gives for each character the character, and `none` for each ill-formed stretch.
  * `decodeLossy` writes U+FFFD for each `none`; `decode?` refuses a text that has one.
-/
import MagicNumbers.Source.Byte

namespace MagicNumbers.Utf8

/-- A character begun: the value of the bits seen, how many bytes are owed, and the range that the next
    of them has to be in. -/
structure Partial where
  value : Nat
  owed : Nat
  low : UInt8
  high : UInt8
  deriving DecidableEq, Repr

/-- What the first byte of a character says. -/
inductive Lead where
  /-- It is a character of its own. -/
  | ascii
  /-- It begins a longer one. -/
  | longer (part : Partial)
  /-- It begins none. -/
  | bad
  deriving DecidableEq, Repr

/-- Reads a first byte.  The ranges of the second byte leave out overlong forms, surrogates and what
    lies beyond U+10FFFF. -/
def lead (b : UInt8) : Lead :=
  if b < 0x80 then .ascii
  else if b < 0xC2 then .bad
  else if b < 0xE0 then .longer ⟨b.toNat - 0xC0, 1, 0x80, 0xBF⟩
  else if b < 0xF0 then
    let low := if b = 0xE0 then 0xA0 else 0x80
    let high := if b = 0xED then 0x9F else 0xBF
    .longer ⟨b.toNat - 0xE0, 2, low, high⟩
  else if b < 0xF5 then
    let low := if b = 0xF0 then 0x90 else 0x80
    let high := if b = 0xF4 then 0x8F else 0xBF
    .longer ⟨b.toNat - 0xF0, 3, low, high⟩
  else .bad

/-- Characters and ill-formed stretches so far, last first, and the character begun. -/
structure State where
  done : List (Option Char)
  part : Option Partial
  deriving DecidableEq, Repr

/-- Reads a byte where a character begins. -/
def State.first (done : List (Option Char)) (b : UInt8) : State :=
  match lead b with
  | .ascii => ⟨some (Char.ofNat b.toNat) :: done, none⟩
  | .longer p => ⟨done, some p⟩
  | .bad => ⟨none :: done, none⟩

/-- Reads one byte. -/
def State.read (st : State) (b : UInt8) : State :=
  match st.part with
  | none => State.first st.done b
  | some p =>
    if p.low ≤ b ∧ b ≤ p.high then
      let value := p.value * 64 + (b.toNat - 0x80)
      if p.owed ≤ 1 then ⟨some (Char.ofNat value) :: st.done, none⟩
      else ⟨st.done, some ⟨value, p.owed - 1, 0x80, 0xBF⟩⟩
    else State.first (none :: st.done) b

/-- The end of the text closes a character begun as ill-formed. -/
def State.close (st : State) : List (Option Char) :=
  match st.part with
  | none => st.done.reverse
  | some _ => (none :: st.done).reverse

/-- The characters of a text, with `none` for each ill-formed stretch. -/
def decode (s : Bytes) : List (Option Char) := (s.foldl State.read ⟨[], none⟩).close

/-- The text with U+FFFD for each ill-formed stretch. -/
def decodeLossy (s : Bytes) : String :=
  String.ofList ((decode s).map (·.getD '\uFFFD'))

/-- The text, if it is well-formed. -/
def decode? (s : Bytes) : Option String :=
  let cs := decode s
  if cs.all Option.isSome then some (String.ofList (cs.filterMap id)) else none

end MagicNumbers.Utf8
