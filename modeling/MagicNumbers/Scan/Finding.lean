/-
  What a scan reports, and what it is told to take for a constant.
-/
import MagicNumbers.Source.Byte
import MagicNumbers.Text.Utf8

namespace MagicNumbers

/-- A literal in the source: the line it begins on, how many bytes precede it, and its bytes, quotes
    included. -/
structure Finding where
  line : Nat
  offset : Nat
  bytes : Bytes
  deriving DecidableEq, Repr

/-- The literal as it is printed; what is not UTF-8 in it is replaced. -/
def Finding.text (f : Finding) : String := Utf8.decodeLossy f.bytes

/-- Whether findings are in the order of the source: each is on a later line than the one before it, or
    further right on the same line. -/
def inDiscoveryOrder : List Finding → Bool
  | f :: g :: rest =>
    (f.line < g.line || f.line == g.line && f.offset < g.offset) && inDiscoveryOrder (g :: rest)
  | _ => true

/-- How a source is lexed. -/
structure LexOptions where
  /-- A statement that holds all of these declares a constant, and its literals are not reported. -/
  safeKeywords : List Bytes := [Bytes.ofString "static", Bytes.ofString "final"]
  /-- Leaves the line ends of skipped blocks out of the count, so that later lines come out low. -/
  legacyLineDrift : Bool := false
  deriving DecidableEq, Repr

end MagicNumbers
