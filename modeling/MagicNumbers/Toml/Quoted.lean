/-
  Quoted texts of TOML.

  There are four forms: basic texts between `"` with escapes, literal texts between `'` without, and
  both again between tripled quotes, where line breaks may occur.  Each reader starts after the
  opening quotes, keeps what it has read last first, and gives the text and what follows it.

  Line breaks are single line feeds here; see `Document`.
-/
namespace MagicNumbers.Toml

/-! ## What may stand in a text -/

/-- Space and tab. -/
def isGap (c : Char) : Bool := c == ' ' || c == '\t'

/-- A character that is no control character.  The tab is let through. -/
def isPrintable (c : Char) : Bool := c == '\t' || (0x20 ≤ c.toNat && c.toNat ≠ 0x7F)

/-! ## Escapes -/

/-- The value of some hexadecimal digits. -/
def hexValue? (n : Nat) : List Char → Option Nat
  | [] => some n
  | c :: cs =>
    if c.isDigit then hexValue? (n * 16 + (c.toNat - '0'.toNat)) cs
    else if 'a' ≤ c ∧ c ≤ 'f' then hexValue? (n * 16 + (c.toNat - 'a'.toNat + 10)) cs
    else if 'A' ≤ c ∧ c ≤ 'F' then hexValue? (n * 16 + (c.toNat - 'A'.toNat + 10)) cs
    else none

/-- The character that `width` hexadecimal digits at the head of a text give.  Surrogates are no
    characters. -/
def codePoint? (width : Nat) (cs : List Char) : Option Char :=
  if cs.length < width then none
  else
    match hexValue? 0 (cs.take width) with
    | some n => if n.isValidChar then some (Char.ofNat n) else none
    | none => none

/-- The character that an escape stands for, the text being what follows the backslash, and the length
    of the escape without the backslash. -/
def escape? : List Char → Option (Char × Nat)
  | 'b' :: _ => some ('\x08', 1)
  | 't' :: _ => some ('\t', 1)
  | 'n' :: _ => some ('\n', 1)
  | 'f' :: _ => some ('\x0C', 1)
  | 'r' :: _ => some ('\r', 1)
  | '"' :: _ => some ('"', 1)
  | '\\' :: _ => some ('\\', 1)
  | 'u' :: cs => (codePoint? 4 cs).map (·, 5)
  | 'U' :: cs => (codePoint? 8 cs).map (·, 9)
  | _ => none

/-! ## On one line -/

/-- Reads a basic text. -/
def basicFrom (done : List Char) : List Char → Option (String × List Char)
  | [] => none
  | c :: cs =>
    if c = '"' then some (String.ofList done.reverse, cs)
    else if c = '\\' then
      match escape? cs with
      | some (e, n) => basicFrom (e :: done) (cs.drop n)
      | none => none
    else if isPrintable c then basicFrom (c :: done) cs
    else none
termination_by cs => cs.length
decreasing_by all_goals (simp only [List.length_cons, List.length_drop]; omega)

/-- Reads a literal text. -/
def literalFrom (done : List Char) : List Char → Option (String × List Char)
  | [] => none
  | c :: cs =>
    if c = '\'' then some (String.ofList done.reverse, cs)
    else if isPrintable c then literalFrom (c :: done) cs
    else none

/-! ## On several lines -/

/-- What closes a text between tripled quotes, seen at one of them: the quotes of its own that stand
    before the last three, of which there can be two, and what follows. -/
def tripled? (quote : Char) : List Char → Option (List Char × List Char)
  | a :: b :: c :: cs =>
    if a = quote ∧ b = quote ∧ c = quote then
      let own := (cs.take 2).takeWhile (· == quote)
      some (own, cs.drop own.length)
    else none
  | _ => none

/-- A line break, if a text begins with one, is dropped right after the opening quotes. -/
def dropFirstBreak : List Char → List Char
  | '\n' :: cs => cs
  | cs => cs

/-- What follows a backslash at the end of a line: it hides all space up to the next visible character.
    -/
def hiddenBreak? (cs : List Char) : Option (List Char) :=
  match cs.dropWhile isGap with
  | '\n' :: rest => some (rest.dropWhile fun c => isGap c || c == '\n')
  | _ => none

theorem length_dropWhile_le (p : Char → Bool) (cs : List Char) :
    (cs.dropWhile p).length ≤ cs.length :=
  (List.dropWhile_sublist p).length_le

theorem hiddenBreak?_length {cs rest : List Char} (h : hiddenBreak? cs = some rest) :
    rest.length ≤ cs.length := by
  unfold hiddenBreak? at h
  split at h
  · next r hr =>
    cases h
    have h1 := length_dropWhile_le (fun c => isGap c || c == '\n') r
    have h2 := length_dropWhile_le isGap cs
    rw [hr] at h2
    simp only [List.length_cons] at h2
    omega
  · cases h

/-- Reads a basic text of several lines. -/
def longBasicFrom (done : List Char) : List Char → Option (String × List Char)
  | [] => none
  | c :: cs =>
    match tripled? '"' (c :: cs) with
    | some (own, rest) => some (String.ofList (done.reverse ++ own), rest)
    | none =>
      if c = '\\' then
        match _h : hiddenBreak? cs with
        | some rest => longBasicFrom done rest
        | none =>
          match escape? cs with
          | some (e, n) => longBasicFrom (e :: done) (cs.drop n)
          | none => none
      else if isPrintable c || c == '\n' then longBasicFrom (c :: done) cs
      else none
termination_by cs => cs.length
decreasing_by
  · have := hiddenBreak?_length _h
    simp only [List.length_cons]
    omega
  · simp only [List.length_cons, List.length_drop]
    omega
  · simp only [List.length_cons]
    omega

/-- Reads a literal text of several lines. -/
def longLiteralFrom (done : List Char) : List Char → Option (String × List Char)
  | [] => none
  | c :: cs =>
    match tripled? '\'' (c :: cs) with
    | some (own, rest) => some (String.ofList (done.reverse ++ own), rest)
    | none => if isPrintable c || c == '\n' then longLiteralFrom (c :: done) cs else none

/-! ## Every form -/

/-- Reads a quoted text on one line, as keys are written. -/
def shortQuoted? : List Char → Option (String × List Char)
  | '"' :: cs => basicFrom [] cs
  | '\'' :: cs => literalFrom [] cs
  | _ => none

/-- Reads a quoted text of any form. -/
def quoted? : List Char → Option (String × List Char)
  | '"' :: '"' :: '"' :: cs => longBasicFrom [] (dropFirstBreak cs)
  | '\'' :: '\'' :: '\'' :: cs => longLiteralFrom [] (dropFirstBreak cs)
  | cs => shortQuoted? cs

end MagicNumbers.Toml
