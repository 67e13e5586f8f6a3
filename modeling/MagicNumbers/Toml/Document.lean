/-
  Documents of keys and values.

  Each line holds a key with its value, or nothing, and may end in a comment; an array may go on over
  several lines.  No key occurs twice.

  * `unixBreaks` : a line may end in a line feed or in a carriage return and a line feed; the second
    form is turned into the first before anything is read, and no other carriage return is let
    through.
  * `document?` : the keys and values of a document in its order, or nothing if it is not one.
-/
import MagicNumbers.Toml.Value
import MagicNumbers.Toml.Quoted

namespace MagicNumbers.Toml

/-- The text with a line feed for each carriage return and line feed. -/
def unixBreaks : List Char → List Char
  | '\r' :: '\n' :: cs => '\n' :: unixBreaks cs
  | c :: cs => c :: unixBreaks cs
  | [] => []

/-- Drops the comment that a text begins with, if it begins with one. -/
def dropComment : List Char → List Char
  | '#' :: cs => cs.dropWhile isPrintable
  | cs => cs

/-- Drops gaps, line breaks and comments; in a comment, `inside` is set. -/
def dropSpace (inside : Bool) : List Char → List Char
  | [] => []
  | c :: cs =>
    if c = '\n' then dropSpace false cs
    else if inside then if isPrintable c then dropSpace true cs else c :: cs
    else if isGap c then dropSpace false cs
    else if c = '#' then dropSpace true cs
    else c :: cs

/-- The rest of a document after the line whose value has been read. -/
def finishLine? (cs : List Char) : Option (List Char) :=
  match dropComment (cs.dropWhile isGap) with
  | [] => some []
  | '\n' :: cs => some cs
  | _ => none

/-! ## Keys and values -/

/-- A character of a key without quotes. -/
def isKeyChar (c : Char) : Bool := c.isAlphanum || c == '_' || c == '-'

/-- Reads a key. -/
def key? (cs : List Char) : Option (String × List Char) :=
  match cs.takeWhile isKeyChar with
  | [] => shortQuoted? cs
  | name => some (String.ofList name, cs.dropWhile isKeyChar)

/-- A character of a value without quotes. -/
def isWordChar (c : Char) : Bool := isKeyChar c || c == '+' || c == '.' || c == ':'

/-- Reads a truth value or an integer. -/
def word? (cs : List Char) : Option (Value × List Char) :=
  let word := cs.takeWhile isWordChar
  let rest := cs.dropWhile isWordChar
  if word = "true".toList then some (.boolean true, rest)
  else if word = "false".toList then some (.boolean false, rest)
  else (integer? word).map fun n => (.integer n, rest)

/-- Reads the items of an array of texts up to its closing bracket, at most `fuel` of them.  A comma may
    follow the last item. -/
def items? (fuel : Nat) (cs : List Char) : Option (List String × List Char) :=
  match fuel, dropSpace false cs with
  | _, ']' :: rest => some ([], rest)
  | 0, _ => none
  | fuel + 1, cs =>
    match quoted? cs with
    | none => none
    | some (item, rest) =>
      match dropSpace false rest with
      | ']' :: rest => some ([item], rest)
      | ',' :: rest => (items? fuel rest).map fun (items, rest) => (item :: items, rest)
      | _ => none

/-- Reads a value. -/
def value? : List Char → Option (Value × List Char)
  | '[' :: cs => (items? cs.length cs).map fun (items, rest) => (.texts items, rest)
  | '"' :: cs => (quoted? ('"' :: cs)).map fun (s, rest) => (.text s, rest)
  | '\'' :: cs => (quoted? ('\'' :: cs)).map fun (s, rest) => (.text s, rest)
  | cs => word? cs

/-- Reads a key, its value and the rest of the line. -/
def pair? (cs : List Char) : Option ((String × Value) × List Char) :=
  match key? cs with
  | none => none
  | some (key, rest) =>
    match rest.dropWhile isGap with
    | '=' :: rest =>
      match value? (rest.dropWhile isGap) with
      | none => none
      | some (value, rest) => (finishLine? rest).map fun rest => ((key, value), rest)
    | _ => none

/-- Reads the pairs of a document, at most `fuel` of them. -/
def pairs? (fuel : Nat) (cs : List Char) : Option (List (String × Value)) :=
  match fuel, dropSpace false cs with
  | _, [] => some []
  | 0, _ => none
  | fuel + 1, cs =>
    match pair? cs with
    | none => none
    | some (pair, rest) => (pairs? fuel rest).map (pair :: ·)

/-- Whether no key occurs twice. -/
def distinctKeys : List (String × Value) → Bool
  | [] => true
  | (key, _) :: rest => rest.all (fun pair => pair.1 != key) && distinctKeys rest

/-- The mark that may precede a text to tell its byte order. -/
def byteOrderMark : Char := '\uFEFF'

/-- The keys of a document with their values.  A pair takes more than one character, so the length of
    the text bounds their number. -/
def document? (text : String) : Option (List (String × Value)) :=
  let cs := unixBreaks text.toList
  let cs := if cs.head? = some byteOrderMark then cs.tail else cs
  (pairs? cs.length cs).filter distinctKeys

end MagicNumbers.Toml
