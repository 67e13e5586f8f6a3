/-
  JSON texts and the values they stand for.

  `Denotes` is the grammar of JSON with the meaning of each phrase: all kinds of values, all escapes,
  blanks between tokens.  It says nothing about how a text is read.  That a text stands for one value
  only is shown by a machine that goes through it character by character, with the arrays and objects
  that are still open on a stack, and that reads whatever the grammar allows.

  * `Denotes` — a text is well-formed and stands for a phrase.
  * `Denotes.reads` — the machine reads it as that phrase.
  * `Denotes.unique` — a text stands for at most one value.
-/
import Mathlib.Algebra.Field.Rat
import MagicNumbers.Report.Json

namespace MagicNumbers.Json

/-- A value.  The members of an object are in the order in which they are written. -/
inductive Value where
  | null
  | bool (b : Bool)
  | number (q : ℚ)
  | text (s : String)
  | array (items : List Value)
  | object (members : List (String × Value))

/-! ## Characters -/

/-- The characters that may stand between two tokens. -/
def isBlank (c : Char) : Bool := c = ' ' ∨ c = '\t' ∨ c = '\n' ∨ c = '\r'

/-- The characters that end a word or a number. -/
def isDelimiter (c : Char) : Bool := isBlank c || "[]\x7b\x7d,:\"".toList.contains c

/-- What a letter after a backslash stands for, other than `u`. -/
def shortEscape? (c : Char) : Option Char :=
  if c = '"' ∨ c = '\\' ∨ c = '/' then some c
  else if c = 'b' then some '\x08'
  else if c = 'f' then some '\x0C'
  else if c = 'n' then some '\n'
  else if c = 'r' then some '\r'
  else if c = 't' then some '\t'
  else none

/-- The value of a digit of base sixteen. -/
def hexValue? (c : Char) : Option Nat :=
  if c.isDigit then some (c.toNat - '0'.toNat)
  else if 'a' ≤ c ∧ c ≤ 'f' then some (c.toNat - 'a'.toNat + 10)
  else if 'A' ≤ c ∧ c ≤ 'F' then some (c.toNat - 'A'.toNat + 10)
  else none

/-- The number that four digits of base sixteen make. -/
def unit? (a b c d : Char) : Option Nat :=
  match hexValue? a, hexValue? b, hexValue? c, hexValue? d with
  | some a, some b, some c, some d => some (((a * 16 + b) * 16 + c) * 16 + d)
  | _, _, _, _ => none

/-- The character that is spelled between quotes: by itself, by a backslash and a letter, by four
    digits of base sixteen, or, if four digits do not suffice, by a pair of surrogates. -/
def spelled? : List Char → Option Char
  | [c] => if c = '"' ∨ c = '\\' ∨ c.toNat < 0x20 then none else some c
  | [x, e] => if x = '\\' then shortEscape? e else none
  | [x, u, a, b, c, d] =>
    if x = '\\' ∧ u = 'u' then
      (unit? a b c d).bind fun n => if n.isValidChar then some (Char.ofNat n) else none
    else none
  | [x, u, a, b, c, d, x', u', a', b', c', d'] =>
    if x = '\\' ∧ u = 'u' ∧ x' = '\\' ∧ u' = 'u' then
      match unit? a b c d, unit? a' b' c' d' with
      | some high, some low =>
        if 0xD800 ≤ high ∧ high < 0xDC00 ∧ 0xDC00 ≤ low ∧ low < 0xE000 then
          some (Char.ofNat (0x10000 + (high - 0xD800) * 0x400 + (low - 0xDC00)))
        else none
      | _, _ => none
    else none
  | _ => none

/-! ## Words and numbers -/

/-- The number that some digits make. -/
def digits? (cs : List Char) : Option Nat :=
  if cs ≠ [] ∧ cs.all Char.isDigit then some (Nat.ofDigitChars 10 cs 0) else none

/-- The digits after a point, if there is a point, and what follows them. -/
def fraction? : List Char → Option (List Char × List Char)
  | [] => some ([], [])
  | c :: cs =>
    if c = '.' then
      if cs.takeWhile Char.isDigit = [] then none
      else some (cs.takeWhile Char.isDigit, cs.dropWhile Char.isDigit)
    else some ([], c :: cs)

/-- The exponent that a text is. -/
def exponent? : List Char → Option ℤ
  | [] => some 0
  | c :: cs =>
    if c = 'e' ∨ c = 'E' then
      match cs with
      | [] => none
      | sign :: ds =>
        if sign = '-' then (digits? ds).map fun n => -n
        else if sign = '+' then (digits? ds).map fun n => n
        else (digits? (sign :: ds)).map fun n => n
    else none

/-- A number without its sign: digits that do not start with a zero unless they are one, a fraction, an
    exponent. -/
def unsigned? (cs : List Char) : Option ℚ :=
  let whole := cs.takeWhile Char.isDigit
  if whole = [] ∨ (whole.head? = some '0' ∧ whole ≠ ['0']) then none
  else
    match fraction? (cs.dropWhile Char.isDigit) with
    | none => none
    | some (fraction, rest) =>
      (exponent? rest).map fun e : ℤ =>
        Nat.ofDigitChars 10 (whole ++ fraction) 0 * (10 : ℚ) ^ (e - fraction.length)

/-- A number. -/
def number? : List Char → Option ℚ
  | [] => none
  | c :: cs => if c = '-' then (unsigned? cs).map fun q => -q else unsigned? (c :: cs)

/-- The value that is written without quotes and brackets. -/
def bare? (cs : List Char) : Option Value :=
  if cs = "null".toList then some .null
  else if cs = "true".toList then some (.bool true)
  else if cs = "false".toList then some (.bool false)
  else (number? cs).map .number

/-! ## Grammar -/

/-- What a stretch of a text can stand for. -/
inductive Phrase where
  | value (v : Value)
  /-- A name, a colon and a value. -/
  | member (name : String) (v : Value)
  /-- What is between the brackets of an array. -/
  | items (vs : List Value)
  /-- What is between the braces of an object. -/
  | members (ms : List (String × Value))

/-- A text between quotes, spelled character by character. -/
def Quotes (cs : List Char) (s : String) : Prop :=
  ∃ pieces, List.Forall₂ (fun piece c => spelled? piece = some c) pieces s.toList ∧
    cs = '"' :: (pieces.flatten ++ ['"'])

/-- **The grammar of JSON**, with what each phrase stands for. -/
inductive Denotes : List Char → Phrase → Prop
  | bare {cs v} : (∀ c ∈ cs, isDelimiter c = false) → bare? cs = some v → Denotes cs (.value v)
  | text {cs s} : Quotes cs s → Denotes cs (.value (.text s))
  | array {cs vs} : Denotes cs (.items vs) → Denotes ('[' :: (cs ++ [']'])) (.value (.array vs))
  | object {cs ms} :
    Denotes cs (.members ms) → Denotes ('\x7b' :: (cs ++ ['\x7d'])) (.value (.object ms))
  | blankBefore {b cs v} : isBlank b → Denotes cs (.value v) → Denotes (b :: cs) (.value v)
  | blankAfter {b cs v} : isBlank b → Denotes cs (.value v) → Denotes (cs ++ [b]) (.value v)
  | member {before name after cs k v} : before.all isBlank → Quotes name k → after.all isBlank →
    Denotes cs (.value v) → Denotes (before ++ name ++ after ++ ':' :: cs) (.member k v)
  | noItems {bs} : bs.all isBlank → Denotes bs (.items [])
  | lastItem {cs v} : Denotes cs (.value v) → Denotes cs (.items [v])
  | nextItem {cs ds v w vs} : Denotes cs (.value v) → Denotes ds (.items (w :: vs)) →
    Denotes (cs ++ ',' :: ds) (.items (v :: w :: vs))
  | noMembers {bs} : bs.all isBlank → Denotes bs (.members [])
  | lastMember {cs k v} : Denotes cs (.member k v) → Denotes cs (.members [(k, v)])
  | nextMember {cs ds k v m ms} : Denotes cs (.member k v) → Denotes ds (.members (m :: ms)) →
    Denotes (cs ++ ',' :: ds) (.members ((k, v) :: m :: ms))

/-! ## Reading a text -/

/-- What is open around the place that a reader is at. -/
inductive Open where
  /-- An array with the items before this place. -/
  | array (items : List Value)
  /-- An object with the members before this place. -/
  | object (members : List (String × Value))
  /-- A member of which the name has been read. -/
  | member (name : String)

/-- What a reader is doing. -/
inductive Mode where
  /-- A value has to come, or the end of the array that has just been opened. -/
  | value (mayClose : Bool)
  /-- A name has to come, or the end of the object that has just been opened. -/
  | name (mayClose : Bool)
  /-- A colon has to come after a name. -/
  | colon (name : String)
  /-- Characters between quotes have been read, then a piece of the next. -/
  | text (isName : Bool) (read piece : List Char)
  /-- Part of a word or number has been read. -/
  | bare (read : List Char)
  /-- A value has been read. -/
  | done (v : Value)

/-- A reader amid a text. -/
structure Reader where
  stack : List Open
  mode : Mode

namespace Reader

/-- What comes after a value. -/
def leave (stack : List Open) (v : Value) (c : Char) : Option Reader :=
  if isBlank c then some ⟨stack, .done v⟩
  else
    match stack with
    | .array items :: rest =>
      if c = ',' then some ⟨.array (items ++ [v]) :: rest, .value false⟩
      else if c = ']' then some ⟨rest, .done (.array (items ++ [v]))⟩
      else none
    | .member name :: .object members :: rest =>
      if c = ',' then some ⟨.object (members ++ [(name, v)]) :: rest, .name false⟩
      else if c = '\x7d' then some ⟨rest, .done (.object (members ++ [(name, v)]))⟩
      else none
    | _ => none

/-- The end of an array or object that a value or name could have stood in. -/
def close (stack : List Open) (c : Char) : Option Reader :=
  match stack with
  | .array items :: rest => if c = ']' then some ⟨rest, .done (.array items)⟩ else none
  | .object members :: rest => if c = '\x7d' then some ⟨rest, .done (.object members)⟩ else none
  | _ => none

/-- Reads a character. -/
def step (r : Reader) (c : Char) : Option Reader :=
  match r.mode with
  | .value mayClose =>
    if isBlank c then some r
    else if c = '"' then some ⟨r.stack, .text false [] []⟩
    else if c = '[' then some ⟨.array [] :: r.stack, .value true⟩
    else if c = '\x7b' then some ⟨.object [] :: r.stack, .name true⟩
    else if isDelimiter c then if mayClose then close r.stack c else none
    else some ⟨r.stack, .bare [c]⟩
  | .name mayClose =>
    if isBlank c then some r
    else if c = '"' then some ⟨r.stack, .text true [] []⟩
    else if mayClose then close r.stack c
    else none
  | .colon name =>
    if isBlank c then some r
    else if c = ':' then some ⟨.member name :: r.stack, .value false⟩
    else none
  | .text isName read piece =>
    if piece = [] ∧ c = '"' then
      let s := String.ofList read
      some ⟨r.stack, if isName then .colon s else .done (.text s)⟩
    else
      match spelled? (piece ++ [c]) with
      | some x => some ⟨r.stack, .text isName (read ++ [x]) []⟩
      | none => some ⟨r.stack, .text isName read (piece ++ [c])⟩
  | .bare read =>
    if isDelimiter c then (bare? read).bind fun v => leave r.stack v c
    else some ⟨r.stack, .bare (read ++ [c])⟩
  | .done v => leave r.stack v c

/-- Reads some characters. -/
def run (r : Reader) (cs : List Char) : Option Reader := cs.foldlM step r

theorem run_cons (r : Reader) (c : Char) (cs : List Char) :
    r.run (c :: cs) = (r.step c).bind fun r => r.run cs :=
  List.foldlM_cons

theorem run_append (r : Reader) (cs ds : List Char) :
    r.run (cs ++ ds) = (r.run cs).bind fun r => r.run ds :=
  List.foldlM_append

variable {stack : List Open} {b : Char}

theorem step_value_blank {mayClose : Bool} (hb : isBlank b) :
    step ⟨stack, .value mayClose⟩ b = some ⟨stack, .value mayClose⟩ :=
  if_pos hb

theorem step_name_blank {mayClose : Bool} (hb : isBlank b) :
    step ⟨stack, .name mayClose⟩ b = some ⟨stack, .name mayClose⟩ :=
  if_pos hb

theorem step_colon_blank {name : String} (hb : isBlank b) :
    step ⟨stack, .colon name⟩ b = some ⟨stack, .colon name⟩ :=
  if_pos hb

theorem leave_blank {v : Value} (hb : isBlank b) : leave stack v b = some ⟨stack, .done v⟩ :=
  if_pos hb

/-- Blanks are passed where they may stand. -/
theorem run_blanks {r : Reader} (h : ∀ b, isBlank b → r.step b = some r) {bs : List Char}
    (hbs : bs.all isBlank) : r.run bs = some r := by
  induction bs with
  | nil => rfl
  | cons b bs ih =>
    rw [List.all_cons, Bool.and_eq_true] at hbs
    rw [run_cons, h b hbs.1]
    exact ih hbs.2

end Reader

/-! ## Reading characters between quotes -/

/-- How long the spelling is that a text starts with, as its first characters tell. -/
def spellingLength : List Char → Nat
  | [] => 0
  | [_] => 1
  | x :: u :: cs =>
    if x ≠ '\\' then 1
    else if u ≠ 'u' then 2
    else
      match cs with
      | p :: q :: r :: s :: _ => if (unit? p q r s).any Nat.isValidChar then 6 else 12
      | _ => 0

/-- A spelling is as long as its first characters tell, whatever comes after it. -/
theorem spellingLength_append {cs : List Char} {c : Char} (h : spelled? cs = some c)
    (rest : List Char) : spellingLength (cs ++ rest) = cs.length := by
  fun_cases spelled? cs with
  | case1 x hx =>
    rw [spelled?, if_pos hx] at h
    cases h
  | case2 x hx =>
    cases rest with
    | nil => rfl
    | cons y rest => exact if_pos fun hback => hx (.inr (.inl hback))
  | case3 e =>
    have hu : e ≠ 'u' := by
      rintro rfl
      cases h
    exact if_pos hu
  | case4 x e hx =>
    rw [spelled?, if_neg hx] at h
    cases h
  | case5 x u p q r s hx =>
    obtain ⟨rfl, rfl⟩ := hx
    rw [spelled?, if_pos ⟨rfl, rfl⟩, Option.bind_eq_some_iff] at h
    obtain ⟨n, hn, h⟩ := h
    have hvalid : n.isValidChar := by
      by_contra hvalid
      rw [if_neg hvalid] at h
      cases h
    have hany : (unit? p q r s).any Nat.isValidChar := by
      rw [hn]
      exact decide_eq_true hvalid
    exact if_pos hany
  | case6 x u p q r s hx =>
    rw [spelled?, if_neg hx] at h
    cases h
  | case7 x u p q r s x' u' p' q' r' s' hx high low hlow hhigh hrange =>
    obtain ⟨rfl, rfl, -, -⟩ := hx
    -- the first of a pair of surrogates is no character of its own
    have hany : ¬ (unit? p q r s).any Nat.isValidChar := by
      rw [hhigh, Option.any_some, decide_eq_true_iff, Nat.isValidChar]
      omega
    exact if_neg hany
  | case8 x u p q r s x' u' p' q' r' s' hx high low hlow hhigh hrange =>
    simp only [spelled?, if_pos hx, hhigh, hlow, if_neg hrange] at h
    cases h
  | case9 x u p q r s x' u' p' q' r' s' hx hnone =>
    rw [spelled?, if_pos hx] at h
    split at h
    · exact (hnone _ _ ‹_› ‹_›).elim
    · cases h
  | case10 x u p q r s x' u' p' q' r' s' hx =>
    rw [spelled?, if_neg hx] at h
    cases h
  | case11 cs h1 h2 h3 h4 =>
    rw [spelled?] at h
    · cases h
    all_goals assumption

/-- The start of a spelling is no spelling. -/
theorem spelled?_eq_none_of_append {start rest : List Char} {c : Char} (hrest : rest ≠ [])
    (h : spelled? (start ++ rest) = some c) : spelled? start = none := by
  rcases hs : spelled? start with _ | c'
  · rfl
  · have hwhole := spellingLength_append h []
    rw [List.append_nil, spellingLength_append hs, List.length_append] at hwhole
    have hpos := List.length_pos_iff.2 hrest
    omega

/-- No spelling starts with a quote. -/
theorem ne_quote_of_spelled? {x c : Char} {cs : List Char} (h : spelled? (x :: cs) = some c) :
    x ≠ '"' := by
  rintro rfl
  have hlength := spellingLength_append h []
  cases cs with
  | nil => cases h
  | cons y cs => simp [spellingLength] at hlength

namespace Reader

variable {stack : List Open} {isName : Bool} {read : List Char}

/-- The rest of a spelling of which a piece has been read. -/
theorem run_spelled {piece cs : List Char} {c : Char} (hcs : cs ≠ [])
    (h : spelled? (piece ++ cs) = some c) :
    run ⟨stack, .text isName read piece⟩ cs = some ⟨stack, .text isName (read ++ [c]) []⟩ := by
  induction cs generalizing piece with
  | nil => exact (hcs rfl).elim
  | cons x cs ih =>
    have hquote : ¬ (piece = [] ∧ x = '"') := by
      rintro ⟨rfl, hx⟩
      exact ne_quote_of_spelled? h hx
    rw [← List.singleton_append, ← List.append_assoc] at h
    rw [run_cons, step]
    simp only [if_neg hquote]
    -- the spelling is not taken for complete before its last character
    cases cs with
    | nil =>
      rw [List.append_nil] at h
      rw [h]
      rfl
    | cons y cs =>
      rw [spelled?_eq_none_of_append (List.cons_ne_nil y cs) h]
      exact ih (List.cons_ne_nil y cs) h

/-- Spellings one after the other. -/
theorem run_pieces {pieces : List (List Char)} {cs : List Char}
    (h : List.Forall₂ (fun piece c => spelled? piece = some c) pieces cs) :
    run ⟨stack, .text isName read []⟩ pieces.flatten =
      some ⟨stack, .text isName (read ++ cs) []⟩ := by
  induction h generalizing read with
  | nil => rw [List.append_nil]; rfl
  | @cons piece c pieces cs hpiece _ ih =>
    have hne : piece ≠ [] := by
      rintro rfl
      cases hpiece
    have hread : run ⟨stack, .text isName read []⟩ piece =
        some ⟨stack, .text isName (read ++ [c]) []⟩ := run_spelled hne hpiece
    rw [List.flatten_cons, run_append, hread, Option.bind_some, ih, List.append_assoc,
      List.singleton_append]

/-- A text between quotes, as a value or as a name. -/
theorem run_quotes {r : Reader} {cs : List Char} {s : String} (h : Quotes cs s)
    (hr : r.step '"' = some ⟨stack, .text isName [] []⟩) :
    r.run cs = some ⟨stack, if isName then .colon s else .done (.text s)⟩ := by
  obtain ⟨pieces, hpieces, rfl⟩ := h
  rw [run_cons, hr, Option.bind_some, run_append, run_pieces hpieces, List.nil_append,
    Option.bind_some, run_cons, step]
  simp only [and_self, if_true, String.ofList_toList]
  rfl

end Reader

/-! ## Reading values -/

namespace Reader

variable {stack : List Open}

/-- Characters that end no word or number. -/
theorem run_bare {read cs : List Char} (h : ∀ c ∈ cs, isDelimiter c = false) :
    run ⟨stack, .bare read⟩ cs = some ⟨stack, .bare (read ++ cs)⟩ := by
  induction cs generalizing read with
  | nil => rw [List.append_nil]; rfl
  | cons c cs ih =>
    have hstep : step ⟨stack, .bare read⟩ c = some ⟨stack, .bare (read ++ [c])⟩ := by
      simp only [step, h c (List.mem_cons_self ..), Bool.false_eq_true, if_false]
    rw [run_cons, hstep, Option.bind_some, ih fun d hd => h d (List.mem_cons_of_mem c hd),
      List.append_assoc, List.singleton_append]

/-- The reader has just read a value.  A word or number is only known to be at its end by what follows
    it. -/
def Holds (r : Reader) (stack : List Open) (v : Value) : Prop :=
  r.stack = stack ∧ (r.mode = .done v ∨ ∃ read, r.mode = .bare read ∧ bare? read = some v)

theorem holds_done (v : Value) : Holds ⟨stack, .done v⟩ stack v := ⟨rfl, .inl rfl⟩

/-- What follows a value is read as such. -/
theorem Holds.step {r : Reader} {v : Value} {c : Char} (h : r.Holds stack v)
    (hc : isDelimiter c) : r.step c = leave stack v c := by
  obtain ⟨rfl, hmode | ⟨read, hmode, hread⟩⟩ := h
  · simp only [Reader.step, hmode]
  · simp only [Reader.step, hmode, hc, if_true, hread, Option.bind_some]

/-- There is only one value that the reader has read. -/
theorem Holds.unique {r : Reader} {stack' : List Open} {v w : Value} (hv : r.Holds stack v)
    (hw : r.Holds stack' w) : v = w := by
  obtain ⟨-, hv | ⟨read, hv, hread⟩⟩ := hv
  · obtain ⟨-, hw | ⟨read, hw, -⟩⟩ := hw
    · rw [hv] at hw
      cases hw
      rfl
    · rw [hv] at hw
      cases hw
  · obtain ⟨-, hw | ⟨read', hw, hread'⟩⟩ := hw
    · rw [hv] at hw
      cases hw
    · rw [hv] at hw
      cases hw
      rw [hread] at hread'
      cases hread'
      rfl

end Reader

open Reader

theorem isDelimiter_of_isBlank {b : Char} (h : isBlank b) : isDelimiter b := by
  rw [isDelimiter, h, Bool.true_or]

/-- A text is read as what it is said to stand for, wherever that may stand.  The items of an array
    are read together with the bracket after them, and so the members of an object. -/
def Reads (cs : List Char) : Phrase → Prop
  | .value v => ∀ stack (mayClose : Bool),
    ∃ r, run ⟨stack, .value mayClose⟩ cs = some r ∧ r.Holds stack v
  | .member name v => ∀ stack members (mayClose : Bool),
    ∃ r, run ⟨.object members :: stack, .name mayClose⟩ cs = some r ∧
      r.Holds (.member name :: .object members :: stack) v
  | .items vs => ∀ stack items (mayClose : Bool), (vs = [] → mayClose) →
    run ⟨.array items :: stack, .value mayClose⟩ (cs ++ [']']) =
      some ⟨stack, .done (.array (items ++ vs))⟩
  | .members ms => ∀ stack members (mayClose : Bool), (ms = [] → mayClose) →
    run ⟨.object members :: stack, .name mayClose⟩ (cs ++ ['\x7d']) =
      some ⟨stack, .done (.object (members ++ ms))⟩

theorem reads_bare {cs : List Char} {v : Value} (hdelim : ∀ c ∈ cs, isDelimiter c = false)
    (h : bare? cs = some v) : Reads cs (.value v) := by
  intro stack mayClose
  cases cs with
  | nil => cases h
  | cons c cs =>
    have hc := hdelim c (List.mem_cons_self ..)
    have hne : ∀ d, isDelimiter d → c ≠ d := by
      rintro d hd rfl
      rw [hc] at hd
      cases hd
    have hblank : isBlank c = false := (Bool.or_eq_false_iff.1 hc).1
    have hstep : step ⟨stack, .value mayClose⟩ c = some ⟨stack, .bare [c]⟩ := by
      simp only [step, hc, hblank, if_neg (hne '"' rfl), if_neg (hne '[' rfl),
        if_neg (hne '\x7b' rfl), Bool.false_eq_true, if_false]
    refine ⟨⟨stack, .bare (c :: cs)⟩, ?_, rfl, .inr ⟨_, rfl, h⟩⟩
    rw [run_cons, hstep, Option.bind_some,
      run_bare fun d hd => hdelim d (List.mem_cons_of_mem c hd), List.singleton_append]

theorem reads_member {before name after cs : List Char} {k : String} {v : Value}
    (hbefore : before.all isBlank) (hname : Quotes name k) (hafter : after.all isBlank)
    (h : Reads cs (.value v)) : Reads (before ++ name ++ after ++ ':' :: cs) (.member k v) := by
  intro stack members mayClose
  obtain ⟨r, hr, hholds⟩ := h (.member k :: .object members :: stack) false
  refine ⟨r, ?_, hholds⟩
  rw [run_append, run_append, run_append, run_blanks (fun b hb => step_name_blank hb) hbefore,
    Option.bind_some, run_quotes hname rfl, Option.bind_some]
  simp only [if_true]
  rw [run_blanks (fun b hb => step_colon_blank hb) hafter, Option.bind_some, run_cons]
  exact hr

/-- **Whatever the grammar allows is read**, and as what it stands for. -/
theorem Denotes.reads {cs : List Char} {p : Phrase} (h : Denotes cs p) : Reads cs p := by
  -- on the derivation; what is open around a phrase does not change while the phrase is read
  induction h with
  | bare hdelim hbare => exact reads_bare hdelim hbare
  | text hquotes =>
    intro stack mayClose
    exact ⟨_, run_quotes hquotes rfl, holds_done _⟩
  | array _ ih =>
    intro stack mayClose
    exact ⟨_, ih stack [] true fun _ => rfl, holds_done _⟩
  | object _ ih =>
    intro stack mayClose
    exact ⟨_, ih stack [] true fun _ => rfl, holds_done _⟩
  | blankBefore hb _ ih =>
    intro stack mayClose
    obtain ⟨r, hr, hholds⟩ := ih stack mayClose
    refine ⟨r, ?_, hholds⟩
    rw [run_cons, step_value_blank hb]
    exact hr
  | blankAfter hb _ ih =>
    intro stack mayClose
    obtain ⟨r, hr, hholds⟩ := ih stack mayClose
    refine ⟨_, ?_, holds_done _⟩
    rw [run_append, hr, Option.bind_some, run_cons, hholds.step (isDelimiter_of_isBlank hb),
      leave_blank hb]
    rfl
  | member hbefore hname hafter _ ih => exact reads_member hbefore hname hafter ih
  | noItems hbs =>
    intro stack items mayClose hmay
    rw [hmay rfl, run_append, run_blanks (fun b hb => step_value_blank hb) hbs, List.append_nil]
    rfl
  | lastItem _ ih =>
    intro stack items mayClose _
    obtain ⟨r, hr, hholds⟩ := ih (.array items :: stack) mayClose
    rw [run_append, hr, Option.bind_some, run_cons, hholds.step rfl]
    rfl
  | @nextItem cs ds v w vs _ _ ih ih' =>
    intro stack items mayClose _
    obtain ⟨r, hr, hholds⟩ := ih (.array items :: stack) mayClose
    have hrest := ih' stack (items ++ [v]) false nofun
    rw [List.append_assoc, List.singleton_append] at hrest
    rw [List.append_assoc, run_append, hr, Option.bind_some, List.cons_append, run_cons,
      hholds.step rfl]
    exact hrest
  | noMembers hbs =>
    intro stack members mayClose hmay
    rw [hmay rfl, run_append, run_blanks (fun b hb => step_name_blank hb) hbs, List.append_nil]
    rfl
  | lastMember _ ih =>
    intro stack members mayClose _
    obtain ⟨r, hr, hholds⟩ := ih stack members mayClose
    rw [run_append, hr, Option.bind_some, run_cons, hholds.step rfl]
    rfl
  | @nextMember cs ds k v m ms _ _ ih ih' =>
    intro stack members mayClose _
    obtain ⟨r, hr, hholds⟩ := ih stack members mayClose
    have hrest := ih' stack (members ++ [(k, v)]) false nofun
    rw [List.append_assoc, List.singleton_append] at hrest
    rw [List.append_assoc, run_append, hr, Option.bind_some, List.cons_append, run_cons,
      hholds.step rfl]
    exact hrest

/-- **A text stands for at most one value.** -/
theorem Denotes.unique {cs : List Char} {v w : Value} (hv : Denotes cs (.value v))
    (hw : Denotes cs (.value w)) : v = w := by
  obtain ⟨r, hr, hv⟩ := hv.reads [] false
  obtain ⟨r', hr', hw⟩ := hw.reads [] false
  rw [hr] at hr'
  cases hr'
  exact hv.unique hw

end MagicNumbers.Json
