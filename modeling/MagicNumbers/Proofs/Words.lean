/-
  Numbers and the words they stand in.

  A word is a run of name bytes.  What leads it decides whether a digit in it may begin a number; but a
  number need not reach the end of its word, and the scan goes on right behind it.  So a digit further on
  in the word may begin another one.  Here it is shown that there is no other way for a number to be found
  inside a word.

  * `BeginsWord`, `Finding.Trails` — no name is under way at an offset; or a number that was found stands
    before it in the same word, with letters in between.
  * `Token.goesOn` — a word that a digit leads goes on behind a number or a letter, and behind no other
    token.
  * `Worded` — the invariant: where such a word goes on, a number was found before in it, or the
    statement is safe.
  * `number_begins_word` — a number that is found begins a word or trails another one; so where no number
    is cut off inside its word, each begins a word and no word has two of them.
-/
import Mathlib.Data.List.Nodup
import MagicNumbers.Proofs.Comments
import MagicNumbers.Proofs.Keywords
import MagicNumbers.Proofs.Order
import MagicNumbers.Proofs.Ranges

namespace MagicNumbers

/-! ## Words -/

/-- The bytes from one offset up to another are all in names. -/
def InNames (src : Bytes) (start stop : Nat) : Prop :=
  ∀ i < stop, start ≤ i → src[i]?.any Byte.isNameByte = true

instance (src : Bytes) (start stop : Nat) : Decidable (InNames src start stop) :=
  inferInstanceAs (Decidable (∀ i < stop, start ≤ i → src[i]?.any Byte.isNameByte = true))

/-- No name is under way at an offset: it is zero, or the byte before it is in no name. -/
def BeginsWord (src : Bytes) (pos : Nat) : Prop :=
  pos = 0 ∨ src[pos - 1]?.any Byte.isNameByte = false

instance (src : Bytes) (pos : Nat) : Decidable (BeginsWord src pos) :=
  inferInstanceAs (Decidable (pos = 0 ∨ src[pos - 1]?.any Byte.isNameByte = false))

/-- A word that a digit leads goes on at an offset. -/
structure GoesOn (src : Bytes) (pos : Nat) : Prop where
  lead : ∃ d, leadOf (src.take pos) = some d ∧ Byte.isDigit d = true
  next : ∃ b, src[pos]? = some b ∧ Byte.isNameByte b = true

/-- What leads a name is in it. -/
theorem isNameByte_of_leadOf {s : Bytes} {d : UInt8} (h : leadOf s = some d) :
    Byte.isNameByte d = true := by
  rw [leadOf_eq] at h
  exact List.all_eq_true.1 List.all_takeWhile d (List.mem_of_getLast? h)

/-- No name is under way behind a byte that is in none. -/
theorem leadOf_take_of_concat {src u : Bytes} {pos n : Nat} {x : UInt8}
    (h : (src.drop pos).take n = u ++ [x]) (hx : Byte.isNameByte x = false) :
    leadOf (src.take (pos + n)) = none := by
  rw [List.take_add, h, ← List.append_assoc, leadOf_concat, nextLead, if_neg (by simp [hx])]

/-- A word begins just where no name is under way. -/
theorem beginsWord_iff_leadOf {src : Bytes} {pos : Nat} (h : pos ≤ src.length) :
    BeginsWord src pos ↔ leadOf (src.take pos) = none := by
  rw [leadOf_take_eq_none_iff h, BeginsWord]
  constructor
  · rintro hbegins i b rfl hb
    rcases hbegins with hzero | hfalse
    · cases hzero
    · exact (Option.any_eq_false _ _).1 hfalse b hb
  · intro hbefore
    cases pos with
    | zero => exact .inl rfl
    | succ i => exact .inr ((Option.any_eq_false _ _).2 fun b hb => hbefore i b rfl hb)

/-- Where a word goes on, it does not begin. -/
theorem GoesOn.not_beginsWord {src : Bytes} {pos : Nat} (h : GoesOn src pos) : ¬BeginsWord src pos := by
  obtain ⟨⟨d, hd, -⟩, a, ha, -⟩ := h
  obtain ⟨hlt, -⟩ := List.getElem?_eq_some_iff.1 ha
  rw [beginsWord_iff_leadOf (Nat.le_of_lt hlt), hd]
  exact nofun

/-! ## Tokens -/

/-- What stands some bytes further in the source stands there behind the next byte. -/
theorem getElem?_of_drop_cons {src s : Bytes} {b : UInt8} {pos n : Nat} (hs : src.drop pos = b :: s)
    (hn : 0 < n) : src[pos + n]? = s[n - 1]? := by
  rw [← List.getElem?_drop, hs, show n = n - 1 + 1 by omega, List.getElem?_cons_succ,
    Nat.add_sub_cancel]

/-- A number is not cut off before a byte that goes on with numbers. -/
theorem isNumberByte_behind_numberFrom {hex : Bool} {n : Nat} {s : Bytes} {b : UInt8}
    (h : s[numberFrom hex n s - n]? = some b) : Byte.isNumberByte b = false := by
  fun_induction numberFrom hex n s with
  | case1 n => cases h
  | case2 n a s _ ih =>
    have hle := (numberFrom_bounds hex (n + 1) s).1
    rw [show numberFrom hex (n + 1) s - n = numberFrom hex (n + 1) s - (n + 1) + 1 by omega,
      List.getElem?_cons_succ] at h
    exact ih h
  | case3 n a s ha =>
    rw [Nat.sub_self, List.getElem?_cons_zero] at h
    cases h
    exact (Bool.or_eq_false_iff.1 (Bool.eq_false_iff.2 ha)).1
  | case4 n a s _ _ k hk ih =>
    have hle := (numberFrom_bounds hex (n + k) (s.drop (k - 1))).1
    have hpos := (exponentLength?_bounds hk).1
    apply ih
    rw [List.getElem?_drop, ← h,
      show numberFrom hex (n + k) (s.drop (k - 1)) - n =
        k - 1 + (numberFrom hex (n + k) (s.drop (k - 1)) - (n + k)) + 1 by omega,
      List.getElem?_cons_succ]
  | case5 n a s ha =>
    rw [Nat.sub_self, List.getElem?_cons_zero] at h
    cases h
    exact (Bool.or_eq_false_iff.1 (Bool.eq_false_iff.2 ha)).1

/-- The byte behind a name is in no name. -/
theorem isNameByte_behind_name {s : Bytes} {b : UInt8} (h : s[nameLength s - 1]? = some b) :
    Byte.isNameByte b = false := by
  have hdrop : s.drop (s.takeWhile Byte.isNameByte).length = s.dropWhile Byte.isNameByte := by
    have hleft : (s.takeWhile Byte.isNameByte ++ s.dropWhile Byte.isNameByte).drop
        (s.takeWhile Byte.isNameByte).length = s.dropWhile Byte.isNameByte := List.drop_left
    rwa [List.takeWhile_append_dropWhile] at hleft
  have hnot := List.head?_dropWhile_not Byte.isNameByte s
  rw [nameLength, Nat.add_sub_cancel_left, ← List.head?_drop, hdrop] at h
  rw [h] at hnot
  exact hnot

/-- No name is under way behind a comment, a literal, a block or a semicolon, if something follows. -/
theorem Token.leadOf_behind {src : Bytes} {pos : Nat} {b : UInt8} {s : Bytes} {t : Token}
    (hs : src.drop pos = b :: s) (ht : Token.read (leadOf (src.take pos)) b s = .ok t)
    (hlt : pos + t.length < src.length) (hk : t.kind ≠ .name ∧ t.kind ≠ .number ∧ t.kind ≠ .other) :
    leadOf (src.take (pos + t.length)) = none := by
  have hbreak : t.kind = .block ∨ t.kind = .semicolon → leadOf (src.take (pos + t.length)) = none := by
    intro hk
    obtain ⟨u, x, hx, htake⟩ := Token.endsInBreak_of_read ht hk
    rw [← hs] at htake
    exact leadOf_take_of_concat htake
      (Byte.eq_false_of_mem_stops (by decide) (Byte.mem_stops_of_mem_breaks hx))
  cases Token.reads_of_read ht with
  | @comment n hb hn =>
    subst hb
    show leadOf (src.take (pos + n)) = none
    by_cases hone : n = 1
    · subst hone
      exact leadOf_take_of_concat (x := Byte.slash) (u := []) (by rw [hs]; rfl) (by decide)
    · have hpos := commentLength_pos hn
      obtain ⟨form, inner, after, htext, hlen, hholds⟩ := exists_comment hn (by omega)
      have hafter : after ≠ [] := by
        rintro rfl
        have hend := congrArg List.length (hs.trans htext)
        rw [List.length_drop, List.append_nil, hlen] at hend
        have hlt' : pos + n < src.length := hlt
        omega
      rw [List.take_add, hs, htext, ← hlen, List.take_left]
      exact CommentForm.leadOf_comment hholds hafter _
  | block => exact hbreak (.inl rfl)
  | semicolon => exact hbreak (.inr rfl)
  | @quoted n hb hn =>
    have hpos := quotedLength_pos hn
    obtain ⟨u, hu⟩ := take_of_quotedFrom hn
    refine leadOf_take_of_concat (x := b) (u := b :: u) ?_ ?_
    · show (src.drop pos).take n = _
      rw [hs, List.take_cons (by omega), hu, List.cons_append]
    · rcases Byte.eq_of_isQuote hb with rfl | rfl
      · decide
      · decide
  | name => exact absurd rfl hk.1
  | number => exact absurd rfl hk.2.1
  | other => exact absurd rfl hk.2.2

/-- **A word that a digit leads goes on behind a number or a letter.**  A name is passed to its end, and
    no other token ends inside a word. -/
theorem Token.goesOn {src : Bytes} {pos : Nat} {b : UInt8} {s : Bytes} {t : Token}
    (hs : src.drop pos = b :: s) (ht : Token.read (leadOf (src.take pos)) b s = .ok t)
    (h : GoesOn src (pos + t.length)) :
    t.kind = .number ∨
    t.kind = .other ∧ t.length = 1 ∧ Byte.isDigit b = false ∧ GoesOn src pos := by
  obtain ⟨⟨d, hd, hdigit⟩, a, ha, hname⟩ := h
  obtain ⟨hlt, -⟩ := List.getElem?_eq_some_iff.1 ha
  have hbehind := Token.leadOf_behind hs ht hlt
  rw [hd] at hbehind
  cases Token.reads_of_read ht with
  | comment | block | semicolon | quoted => cases hbehind ⟨nofun, nofun, nofun⟩
  | name =>
    have hnext : s[nameLength s - 1]? = some a := by
      rw [← getElem?_of_drop_cons hs (nameLength_pos s), ha]
    rw [isNameByte_behind_name hnext] at hname
    cases hname
  | number => exact .inl rfl
  | other _ _ _ _ hb =>
    have htake : (src.drop pos).take 1 = [b] := by rw [hs]; rfl
    have hlead : nextLead (leadOf (src.take pos)) b = some d := by
      rw [← hd, List.take_add, htake, leadOf_concat]
    rw [nextLead] at hlead
    split at hlead
    · next hnameb =>
      refine .inr ⟨rfl, rfl, hb, ⟨d, ?_, hdigit⟩, b, getElem?_of_drop hs, hnameb⟩
      -- the letter does not lead the word, since a digit does
      cases hbefore : leadOf (src.take pos) with
      | none =>
        rw [hbefore] at hlead
        cases hlead
        cases hb.symm.trans hdigit
      | some d' =>
        rw [hbefore] at hlead
        exact hlead
    · cases hlead

/-- What is read as a number begins with a digit, and no letter leads its word. -/
theorem Token.number_of_read {lead : Option UInt8} {b : UInt8} {s : Bytes} {t : Token}
    (h : Token.read lead b s = .ok t) (hk : t.kind = .number) :
    Byte.isDigit b = true ∧ isPartOfName b lead = false ∧ t.length = numberLength b s := by
  cases Token.reads_of_read h with
  | number hb hname => exact ⟨hb, (Bool.or_eq_false_iff.1 hname).1, rfl⟩
  | _ => cases hk

/-! ## Where numbers are found -/

/-- The finding is a number: a digit begins it. -/
def Finding.isNumber (f : Finding) : Bool := f.bytes.head?.any Byte.isDigit

/-- The offset lies in the word that a number ends in, with nothing but letters in between; and the number
    does not end before a digit. -/
structure Finding.Trails (src : Bytes) (g : Finding) (pos : Nat) : Prop where
  stop_le : g.stop ≤ pos
  names : InNames src (g.stop - 1) pos
  letters : ∀ i b, g.stop ≤ i → i < pos → src[i]? = some b → Byte.isDigit b = false
  ends : ∀ b, src[g.stop]? = some b → Byte.isDigit b = false

/-- One letter further. -/
theorem Finding.Trails.succ {src : Bytes} {g : Finding} {pos : Nat} {b : UInt8}
    (h : g.Trails src pos) (hb : src[pos]? = some b) (hname : Byte.isNameByte b = true)
    (hdigit : Byte.isDigit b = false) : g.Trails src (pos + 1) := by
  refine ⟨Nat.le_succ_of_le h.stop_le, ?_, ?_, h.ends⟩
  · intro i hlt hle
    rcases Nat.lt_succ_iff_lt_or_eq.1 hlt with hlt | rfl
    · exact h.names i hlt hle
    · rw [hb]
      exact hname
  · intro i a hle hlt ha
    rcases Nat.lt_succ_iff_lt_or_eq.1 hlt with hlt | rfl
    · exact h.letters i a hle hlt ha
    · rw [hb] at ha
      cases ha
      exact hdigit

/-- Right behind a number, if its word goes on there. -/
theorem Finding.trails_of_goesOn {src : Bytes} {g : Finding} (h : GoesOn src g.stop)
    (hends : ∀ b, src[g.stop]? = some b → Byte.isDigit b = false) : g.Trails src g.stop := by
  obtain ⟨hpos, hname⟩ := not_or.1 h.not_beginsWord
  refine ⟨Nat.le_refl _, ?_, ?_, hends⟩
  · intro i hlt hle
    rw [show i = g.stop - 1 by omega]
    exact Bool.not_eq_false _ ▸ hname
  · intro i _ hle hlt
    exact absurd hlt (Nat.not_lt.2 hle)

/-- The word that the scope is in, if a digit leads it and it goes on, has been accounted for: a number
    was found in it, or its statement is safe. -/
def Frame.Traced (opts : LexOptions) (src : Bytes) (found : List Finding) (frame : Frame) : Prop :=
  GoesOn src frame.cursor.offset →
    (∃ g ∈ found, g.isNumber = true ∧ g.Trails src frame.cursor.offset) ∨
    holdsAll opts.safeKeywords frame.cursor.offset frame.statement.start = .ok true

/-- A number that was found begins a word, or trails another one. -/
def Finding.Accounted (src : Bytes) (found : List Finding) (f : Finding) : Prop :=
  BeginsWord src f.offset ∨ ∃ g ∈ found, g.isNumber = true ∧ g.stop < f.offset ∧ g.Trails src f.offset

/-- More may be found in the meantime. -/
theorem Frame.Traced.mono {opts : LexOptions} {src : Bytes} {found found' : List Finding} {frame : Frame}
    (h : frame.Traced opts src found) (hsub : found ⊆ found') : frame.Traced opts src found' := by
  intro hgoes
  rcases h hgoes with ⟨g, hg, hnumber, htrails⟩ | hsafe
  · exact .inl ⟨g, hsub hg, hnumber, htrails⟩
  · exact .inr hsafe

theorem Finding.Accounted.mono {src : Bytes} {found found' : List Finding} {f : Finding}
    (h : f.Accounted src found) (hsub : found ⊆ found') : f.Accounted src found' := by
  rcases h with hbegins | ⟨g, hg, htrails⟩
  · exact .inl hbegins
  · exact .inr ⟨g, hsub hg, htrails⟩

/-- What is safe stays safe further on in the statement. -/
theorem holdsAll_true_of_le {words : List Bytes} {bound bound' : Nat} {c : Cursor}
    (hle : bound ≤ bound') (h : holdsAll words bound c = .ok true) :
    holdsAll words bound' c = .ok true := by
  obtain ⟨hne, hall⟩ := holdsAll_eq_true_iff.1 h
  exact holdsAll_eq_true_iff.2 ⟨hne, fun word hword => search_found_of_le hle (hall word hword)⟩

/-- A scope reads tokens as the source before it has them. -/
theorem Frame.Takes.read_source {opts : LexOptions} {src : Bytes} {frame : Frame} {b : UInt8}
    {s : Bytes} {t : Token} (ht : frame.Takes b s t) (hlies : frame.Lies opts src) :
    src.drop frame.cursor.offset = b :: s ∧
      Token.read (leadOf (src.take frame.cursor.offset)) b s = .ok t := by
  obtain ⟨start, pos, hat⟩ := hlies.isAt
  refine ⟨hlies.rest_eq.symm.trans ht.rest, ?_⟩
  have hlead : frame.cursor.lead = leadOf (src.take frame.cursor.offset) := by
    rw [hat.lead_eq, hat.offset_eq]
  rw [← hlead]
  exact ht.read

/-- Where no name is under way there is nothing to account for. -/
theorem Frame.traced_of_leadOf {opts : LexOptions} {src : Bytes} {found : List Finding} {frame : Frame}
    (h : leadOf (src.take frame.cursor.offset) = none) : frame.Traced opts src found := by
  rintro ⟨⟨d, hd, -⟩, -⟩
  rw [h] at hd
  cases hd

section

variable {opts : LexOptions} {src : Bytes} {found : List Finding} {frame : Frame} {b : UInt8}
  {s : Bytes} {t : Token} (hlies : frame.Lies opts src) (ht : frame.Takes b s t)
include hlies ht

/-- **A token that is no number leaves a scope accounted for.** -/
theorem Frame.Traced.advance {frame' : Frame} (h : frame.Traced opts src found) (hk : t.kind ≠ .number)
    (hcursor : frame'.cursor = frame.cursor.advance t.length)
    (hstart : t.kind = .other → frame'.statement.start = frame.statement.start) :
    frame'.Traced opts src found := by
  obtain ⟨hs, hread⟩ := ht.read_source hlies
  rw [Frame.Traced, hcursor, Cursor.offset_advance]
  intro hgoes
  rcases Token.goesOn hs hread hgoes with hnumber | ⟨hother, hlen, hdigit, hbefore⟩
  · exact absurd hnumber hk
  rw [hlen, hstart hother]
  obtain ⟨a, ha, hname⟩ := hbefore.next
  rw [getElem?_of_drop hs] at ha
  cases ha
  rcases h hbefore with ⟨g, hg, hnumber, htrails⟩ | hsafe
  · exact .inl ⟨g, hg, hnumber, htrails.succ (getElem?_of_drop hs) hname hdigit⟩
  · exact .inr (holdsAll_true_of_le (Nat.le_succ _) hsafe)

/-- So it is where a statement starts behind the token. -/
theorem Frame.Traced.enter (h : frame.Traced opts src found)
    (hk : t.kind = .block ∨ t.kind = .semicolon) (stop : Nat) :
    (Frame.enter opts (frame.cursor.advance t.length) stop).Traced opts src found := by
  refine h.advance hlies ht ?_ rfl ?_
  · rcases hk with hk | hk <;> rw [hk] <;> decide
  · intro hother
    rcases hk with hk | hk
    · cases hk.symm.trans hother
    · cases hk.symm.trans hother

variable (hk : t.kind = .number) {f : Finding} (hoffset : f.offset = frame.cursor.offset)
include hk hoffset

/-- **A number that is found is accounted for**: it begins a word, or its word goes on there, and then
    what accounts for the scope accounts for it. -/
theorem Frame.Traced.accounted (h : frame.Traced opts src found)
    (hanswer : holdsAll opts.safeKeywords frame.cursor.offset frame.statement.start = .ok false) :
    f.Accounted src found := by
  obtain ⟨hs, hread⟩ := ht.read_source hlies
  obtain ⟨hb, hname, -⟩ := Token.number_of_read hread hk
  have hbyte : src[frame.cursor.offset]? = some b := getElem?_of_drop hs
  obtain ⟨hlt, -⟩ := List.getElem?_eq_some_iff.1 hbyte
  rw [Finding.Accounted, hoffset]
  cases hlead : leadOf (src.take frame.cursor.offset) with
  | none => exact .inl ((beginsWord_iff_leadOf (Nat.le_of_lt hlt)).2 hlead)
  | some d =>
    rw [hlead] at hname
    have hd : Byte.isDigit d = true := by
      rcases Bool.or_eq_true _ _ ▸ isNameByte_of_leadOf hlead with hletter | hdigit
      · cases hname.symm.trans hletter
      · exact hdigit
    have hgoes : GoesOn src frame.cursor.offset :=
      ⟨⟨d, hlead, hd⟩, b, hbyte, Byte.isNameByte_of_isDigit hb⟩
    rcases h hgoes with ⟨g, hg, hnumber, htrails⟩ | hsafe
    · refine .inr ⟨g, hg, hnumber, Nat.lt_of_le_of_ne htrails.stop_le ?_, htrails⟩
      intro heq
      cases hb.symm.trans (htrails.ends b (heq ▸ hbyte))
    · rw [hanswer] at hsafe
      cases hsafe

/-- Behind a number that was found, its word is accounted for. -/
theorem Frame.traced_of_number {frame' : Frame} (hbytes : f.bytes = frame.cursor.rest.take t.length)
    (hmem : f ∈ found) (hcursor : frame'.cursor = frame.cursor.advance t.length) :
    frame'.Traced opts src found := by
  obtain ⟨hs, hread⟩ := ht.read_source hlies
  obtain ⟨hb, -, hlen⟩ := Token.number_of_read hread hk
  have hpos := numberLength_pos b s
  have hnumber : f.isNumber = true := by
    rw [Finding.isNumber, hbytes, ht.rest, List.take_cons (hlen ▸ hpos)]
    exact hb
  have hstop : f.stop = frame.cursor.offset + t.length := by
    rw [Finding.stop, hoffset, hbytes, List.length_take_of_le ht.length_le]
  rw [Frame.Traced, hcursor, Cursor.offset_advance, ← hstop]
  intro hgoes
  refine .inl ⟨f, hmem, hnumber, Finding.trails_of_goesOn hgoes ?_⟩
  intro a ha
  have hnext : s[numberLength b s - 1]? = some a := by
    rw [← getElem?_of_drop_cons hs hpos, ← hlen, ← hstop, ha]
  have hnot := isNumberByte_behind_numberFrom hnext
  refine Bool.eq_false_iff.2 fun hdigit => ?_
  cases hnot.symm.trans (Byte.isNumberByte_of_isDigit hdigit)

end

/-- **A literal that is found leaves its scope accounted for**, and if it is a number it is so itself. -/
theorem Frame.Traced.literal {opts : LexOptions} {src : Bytes} {found : List Finding}
    {frame frame' : Frame} {b : UInt8} {s : Bytes} {t : Token} {f : Finding}
    (h : frame.Traced opts src found) (hlies : frame.Lies opts src) (ht : frame.Takes b s t)
    (hk : t.IsLiteral) (hcursor : frame'.cursor = frame.cursor.advance t.length)
    (hstart : frame'.statement.start = frame.statement.start)
    (hoffset : f.offset = frame.cursor.offset) (hbytes : f.bytes = frame.cursor.rest.take t.length)
    (hanswer : holdsAll opts.safeKeywords (t.bound frame.cursor.offset) frame.statement.start =
      .ok false) :
    frame'.Traced opts src (found ++ [f]) ∧ (f.isNumber = true → f.Accounted src (found ++ [f])) := by
  have hsub : found ⊆ found ++ [f] := List.subset_append_left _ _
  rcases hk with hk | hk
  · refine ⟨(h.advance hlies ht (by rw [hk]; decide) hcursor (fun _ => hstart)).mono hsub, ?_⟩
    -- a quote is no digit
    intro hnumber
    have hquote : Byte.isQuote b = true := by
      cases Token.reads_of_read ht.read with
      | quoted hb => exact hb
      | _ => cases hk
    have hdigit : Byte.isDigit b = true := by
      rw [Finding.isNumber, hbytes, ht.rest, List.take_cons (Token.read_bounds ht.read).1] at hnumber
      exact hnumber
    cases hquote.symm.trans (Byte.isQuote_of_isDigit hdigit)
  · rw [Token.bound, if_neg (by rw [hk]; decide)] at hanswer
    have hmem : f ∈ found ++ [f] := List.mem_append_right _ List.mem_cons_self
    refine ⟨Frame.traced_of_number hlies ht hk hoffset hbytes hmem hcursor, fun _ => ?_⟩
    exact (h.accounted hlies ht hk hoffset hanswer).mono hsub

/-- The open scopes, and the numbers among what was found, are accounted for. -/
structure Worded (opts : LexOptions) (src : Bytes) (frames : List Frame) (found : List Finding) :
    Prop where
  traced : ∀ frame ∈ frames, frame.Traced opts src found
  accounted : ∀ f ∈ found, f.isNumber = true → f.Accounted src found

/-- **A step leaves numbers and scopes accounted for.** -/
theorem Worded.step {opts : LexOptions} {src : Bytes} {st st' : ScanState} {frame : Frame}
    {below : List Frame} (h : Worded opts src (frame :: below) st.found.toList)
    (hlies : frame.Lies opts src) (hs : Step opts st frame below st') :
    Worded opts src st'.frames st'.found.toList := by
  obtain ⟨htraced, haccounted⟩ := h
  obtain ⟨hframe, hbelow⟩ := List.forall_mem_cons.1 htraced
  cases hs with
  | close => exact ⟨hbelow, haccounted⟩
  | skip ht hk =>
    refine ⟨List.forall_mem_cons.2 ⟨?_, hbelow⟩, haccounted⟩
    refine hframe.advance hlies ht ?_ rfl (fun _ => rfl)
    rcases hk with hk | hk | hk <;> rw [hk] <;> decide
  | semicolon ht hk =>
    exact ⟨List.forall_mem_cons.2 ⟨hframe.enter hlies ht (.inr hk) _, hbelow⟩, haccounted⟩
  | @literal b s t safe ht hk ha =>
    obtain ⟨start, pos, hat⟩ := hlies.isAt
    rw [Statement.ask_eq hat.knows] at ha
    have hstart := hlies.start_ask (t.bound frame.cursor.offset)
    cases safe with
    | true =>
      -- the statement is safe up to the literal, and so behind it
      refine ⟨List.forall_mem_cons.2 ⟨fun _ => .inr ?_, hbelow⟩, haccounted⟩
      show holdsAll opts.safeKeywords (frame.cursor.advance t.length).offset _ = _
      rw [hstart, Cursor.offset_advance]
      exact holdsAll_true_of_le (t.bound_le _) ha
    | false =>
      let f : Finding := ⟨st.line, frame.cursor.offset, frame.cursor.rest.take t.length⟩
      let frame' : Frame :=
        ⟨frame.cursor.advance t.length, frame.stop, (frame.statement.ask (t.bound frame.cursor.offset)).2⟩
      show Worded opts src (frame' :: below) (st.found.push f).toList
      rw [Array.toList_push]
      have hsub : st.found.toList ⊆ st.found.toList ++ [f] := List.subset_append_left _ _
      have hparts : frame'.Traced opts src (st.found.toList ++ [f]) ∧
          (f.isNumber = true → f.Accounted src (st.found.toList ++ [f])) :=
        hframe.literal hlies ht hk rfl hstart rfl rfl ha
      obtain ⟨htop, hnew⟩ := hparts
      constructor
      · exact List.forall_mem_cons.2 ⟨htop, fun g hg => (hbelow g hg).mono hsub⟩
      · exact List.forall_mem_append.2 ⟨fun g hg hnumber => (haccounted g hg hnumber).mono hsub,
          List.forall_mem_singleton.2 hnew⟩
  | pass ht hk =>
    exact ⟨List.forall_mem_cons.2 ⟨hframe.enter hlies ht (.inl hk) _, hbelow⟩, haccounted⟩
  | enter ht hk =>
    refine ⟨List.forall_mem_cons.2 ⟨?_, List.forall_mem_cons.2
      ⟨hframe.enter hlies ht (.inl hk) _, hbelow⟩⟩, haccounted⟩
    -- the scope inside begins behind a brace
    obtain ⟨hs, hread⟩ := ht.read_source hlies
    apply Frame.traced_of_leadOf
    show leadOf (src.take (frame.cursor.advance 1).offset) = none
    rw [Cursor.offset_advance]
    refine leadOf_take_of_concat (x := Byte.openBrace) (u := []) ?_ (by decide)
    rw [hs, (Token.kind_eq_block_iff hread).1 hk]
    rfl

/-- **In every state of a scan they are accounted for.** -/
theorem Reachable.worded {opts : LexOptions} {src : Bytes} {st : ScanState}
    (h : Reachable opts src st) : Worded opts src st.frames st.found.toList := by
  induction h with
  | start =>
    constructor
    · exact List.forall_mem_singleton.2 (Frame.traced_of_leadOf rfl)
    · exact List.forall_mem_nil _
  | step hst hf hs ih =>
    rw [hf] at ih
    exact ih.step (hst.top hf).1 (step_of_eq_ok hs)

/-! ## Every scan -/

/-- What was found tells its offset. -/
theorem ScanState.Ordered.eq_of_offset_eq {src : Bytes} {st : ScanState} (h : st.Ordered src)
    {f g : Finding} (hf : f ∈ st.found.toList) (hg : g ∈ st.found.toList)
    (heq : f.offset = g.offset) : f = g := by
  have hnodup : (st.found.toList.map Finding.offset).Nodup := by
    refine List.pairwise_map.2 (h.ordered.imp_of_mem ?_)
    rintro a b ha - ⟨-, hstop⟩
    have hlt := (h.stands a ha).lt_stop
    omega
  exact List.inj_on_of_nodup_map hnodup hf hg heq

/-- A number is cut off inside its word: its last byte and the byte behind it are in names. -/
def Finding.CutOff (src : Bytes) (f : Finding) : Prop := InNames src (f.stop - 1) (f.stop + 1)

instance (src : Bytes) (f : Finding) : Decidable (f.CutOff src) :=
  inferInstanceAs (Decidable (InNames src (f.stop - 1) (f.stop + 1)))

/-- **A number that is found begins a word, or trails another one in its word.**  So if no number is cut
    off inside its word, each begins a word, and in each word there begins at most one. -/
theorem number_begins_word {opts : LexOptions} {src : Bytes} {found : List Finding}
    (h : scan opts src = .ok found) :
    (∀ f ∈ found, f.isNumber = true → BeginsWord src f.offset ∨
      ∃ g ∈ found, g.isNumber = true ∧ g.stop < f.offset ∧ g.Trails src f.offset) ∧
    ((∀ g ∈ found, g.isNumber = true → ¬g.CutOff src) →
      (∀ f ∈ found, f.isNumber = true → BeginsWord src f.offset) ∧
      ∀ f ∈ found, ∀ g ∈ found, f.isNumber = true → g.isNumber = true →
        f.offset ≤ g.offset → InNames src f.offset g.offset → f = g) := by
  obtain ⟨last, hrun, rfl⟩ := run_of_scan_ok h
  have hreach := (Reachable.start.run_ok hrun).1
  have haccounted := hreach.worded.accounted
  refine ⟨haccounted, ?_⟩
  intro hwhole
  have hbegins : ∀ f ∈ last.found.toList, f.isNumber = true → BeginsWord src f.offset := by
    intro f hf hnumber
    rcases haccounted f hf hnumber with hbegins | ⟨g, hg, hnumber', hlt, htrails⟩
    · exact hbegins
    · refine absurd ?_ (hwhole g hg hnumber')
      intro i hi hle
      exact htrails.names i (by omega) hle
  refine ⟨hbegins, ?_⟩
  intro f hf g hg _ hnumber hle hnames
  rcases Nat.lt_or_eq_of_le hle with hlt | heq
  · -- the word that `f` begins is under way where `g` begins
    rcases hbegins g hg hnumber with hzero | hfalse
    · omega
    · rw [hnames (g.offset - 1) (by omega) (by omega)] at hfalse
      cases hfalse
  · exact hreach.ordered.eq_of_offset_eq hf hg heq

/-- Two literals and a name, each a word of its own; and a literal that is cut off before its exponent. -/
theorem number_begins_word_suffix :
    let whole := Bytes.ofString "0x1F+x2y*100L"
    let found : List Finding := [⟨1, 0, Bytes.ofString "0x1F"⟩, ⟨1, 9, Bytes.ofString "100L"⟩]
    let cut := Bytes.ofString "0x1p3"
    let found' : List Finding := [⟨1, 0, Bytes.ofString "0x1"⟩, ⟨1, 4, Bytes.ofString "3"⟩]
    scan {} whole = .ok found ∧ (∀ f ∈ found, f.isNumber = true → BeginsWord whole f.offset) ∧
    scan {} cut = .ok found' ∧ ∃ g ∈ found', g.isNumber = true ∧ g.stop < 4 ∧ g.Trails cut 4 := by
  intro whole found cut found'
  have h : scan {} whole = .ok found := eq_ok_of_toOption (by decide +kernel)
  have h' : scan {} cut = .ok found' := eq_ok_of_toOption (by decide +kernel)
  have hwhole : ∀ g ∈ found, g.isNumber = true → ¬g.CutOff whole := by decide
  refine ⟨h, ((number_begins_word h).2 hwhole).1, h', ?_⟩
  rcases (number_begins_word h').1 ⟨1, 4, Bytes.ofString "3"⟩ (by decide) (by decide) with hbegins | hcut
  · exact absurd hbegins (by decide)
  · exact hcut

/-- Behind a literal that is cut off before its exponent, another one is found in the same word. -/
theorem number_found_inside_word :
    let src := Bytes.ofString "0x1p3"
    let found : List Finding := [⟨1, 0, Bytes.ofString "0x1"⟩, ⟨1, 4, Bytes.ofString "3"⟩]
    scan {} src = .ok found ∧
    ¬(∀ f ∈ found, f.isNumber = true → BeginsWord src f.offset) ∧
    ¬(∀ f ∈ found, ∀ g ∈ found, f.isNumber = true → g.isNumber = true →
      f.offset ≤ g.offset → InNames src f.offset g.offset → f = g) := by
  intro src found
  have h : scan {} src = .ok found := eq_ok_of_toOption (by decide +kernel)
  refine ⟨h, by decide, by decide⟩

end MagicNumbers
