/-
  How lines end does not matter.

  A line may end in a line feed, or in a carriage return and a line feed.  If all line ends of a source
  are turned from the one into the other, a scan finds the same literals on the same lines, further
  right by one byte for each line end before them.

  * `crlf` — the text with a carriage return before each line feed; `grown` says how long its beginning
    becomes.
  * `stepLength_crlf` — lexical steps grow as the bytes do that they pass.
  * `decodeLossy_crlf` — what is printed of some bytes changes as they do.
  * `scan_crlf` — so a scan of the one is told by a scan of the other.
-/
import Mathlib.Data.List.Forall2
import MagicNumbers.Proofs.RevisedScan

namespace MagicNumbers

/-! ## Carriage returns -/

/-- What a byte becomes: a line feed gets a carriage return in front of it. -/
def crlfByte (b : UInt8) : Bytes :=
  if b = Byte.lineFeed then [Byte.carriageReturn, Byte.lineFeed] else [b]

/-- The text with a carriage return before each line feed. -/
def crlf (s : Bytes) : Bytes := s.flatMap crlfByte

/-- How many bytes the first `n` bytes of a text become. -/
def grown (s : Bytes) (n : Nat) : Nat := n + newlines (s.take n)

@[simp] theorem crlf_nil : crlf [] = [] := rfl

theorem crlf_append (s t : Bytes) : crlf (s ++ t) = crlf s ++ crlf t := List.flatMap_append

theorem crlf_lineFeed (s : Bytes) :
    crlf (Byte.lineFeed :: s) = Byte.carriageReturn :: Byte.lineFeed :: crlf s := rfl

theorem crlf_cons {b : UInt8} (hb : b ≠ Byte.lineFeed) (s : Bytes) : crlf (b :: s) = b :: crlf s := by
  rw [crlf, List.flatMap_cons, crlfByte, if_neg hb, List.singleton_append, crlf]

/-- Without line feeds nothing changes. -/
theorem crlf_eq_self {s : Bytes} (h : Byte.lineFeed ∉ s) : crlf s = s := by
  induction s with
  | nil => rfl
  | cons b s ih =>
    obtain ⟨hb, hs⟩ := List.ne_and_not_mem_of_not_mem_cons h
    rw [crlf_cons hb.symm, ih hs]

theorem newlines_lineFeed (s : Bytes) : newlines (Byte.lineFeed :: s) = newlines s + 1 :=
  List.count_cons_self

theorem length_crlf (s : Bytes) : (crlf s).length = s.length + newlines s := by
  induction s with
  | nil => rfl
  | cons b s ih =>
    by_cases hb : b = Byte.lineFeed
    · rw [hb, crlf_lineFeed, newlines_lineFeed, List.length_cons, List.length_cons, List.length_cons, ih]
      omega
    · rw [crlf_cons hb, newlines_cons hb, List.length_cons, List.length_cons, ih]
      omega

/-- No line is added. -/
theorem newlines_crlf (s : Bytes) : newlines (crlf s) = newlines s := by
  induction s with
  | nil => rfl
  | cons b s ih =>
    by_cases hb : b = Byte.lineFeed
    · rw [hb, crlf_lineFeed, newlines_cons (by decide), newlines_lineFeed, newlines_lineFeed, ih]
    · rw [crlf_cons hb, newlines_cons hb, newlines_cons hb, ih]

/-- No name begins or ends at another byte. -/
theorem leadOf_crlf (s : Bytes) : leadOf (crlf s) = leadOf s := by
  suffices ∀ lead, (crlf s).foldl nextLead lead = s.foldl nextLead lead from this none
  induction s with
  | nil => exact fun _ => rfl
  | cons b s ih =>
    intro lead
    by_cases hb : b = Byte.lineFeed
    · rw [hb, crlf_lineFeed]
      exact ih none
    · rw [crlf_cons hb, List.foldl_cons, List.foldl_cons, ih]

/-! ## Beginnings -/

theorem grown_zero (s : Bytes) : grown s 0 = 0 := rfl

theorem grown_add (s : Bytes) (m n : Nat) : grown s (m + n) = grown s m + grown (s.drop m) n := by
  simp only [grown, List.take_add, newlines_append]
  omega

theorem grown_succ_lineFeed (s : Bytes) (n : Nat) :
    grown (Byte.lineFeed :: s) (n + 1) = grown s n + 2 := by
  rw [grown, grown, List.take_succ_cons, newlines_lineFeed]
  omega

theorem grown_succ {b : UInt8} (hb : b ≠ Byte.lineFeed) (s : Bytes) (n : Nat) :
    grown (b :: s) (n + 1) = grown s n + 1 := by
  rw [grown, grown, List.take_succ_cons, newlines_cons hb]
  omega

/-- **The first `n` bytes become the first `grown s n` bytes**, -/
theorem take_crlf (s : Bytes) (n : Nat) : (crlf s).take (grown s n) = crlf (s.take n) := by
  induction s generalizing n with
  | nil => rw [List.take_nil, crlf_nil, List.take_nil]
  | cons b s ih =>
    cases n with
    | zero => rfl
    | succ n =>
      by_cases hb : b = Byte.lineFeed
      · rw [hb, grown_succ_lineFeed, crlf_lineFeed, List.take_succ_cons, List.take_succ_cons, ih,
          List.take_succ_cons, crlf_lineFeed]
      · rw [grown_succ hb, crlf_cons hb, List.take_succ_cons, ih, List.take_succ_cons, crlf_cons hb]

/-- and the others become the others. -/
theorem drop_crlf (s : Bytes) (n : Nat) : (crlf s).drop (grown s n) = crlf (s.drop n) := by
  induction s generalizing n with
  | nil => rw [List.drop_nil, crlf_nil, List.drop_nil]
  | cons b s ih =>
    cases n with
    | zero => rfl
    | succ n =>
      by_cases hb : b = Byte.lineFeed
      · rw [hb, grown_succ_lineFeed, crlf_lineFeed, List.drop_succ_cons, List.drop_succ_cons, ih,
          List.drop_succ_cons]
      · rw [grown_succ hb, crlf_cons hb, List.drop_succ_cons, ih, List.drop_succ_cons]

/-- The place behind a line feed moves by two bytes, -/
theorem grown_of_lineFeed {t s : Bytes} {n : Nat} (hs : t.drop n = Byte.lineFeed :: s) :
    grown t (n + 1) = grown t n + 2 := by
  rw [grown_add, hs, grown_succ_lineFeed, grown_zero]

/-- that behind another byte by one. -/
theorem grown_of_ne {t s : Bytes} {n : Nat} {b : UInt8} (hs : t.drop n = b :: s)
    (hb : b ≠ Byte.lineFeed) : grown t (n + 1) = grown t n + 1 := by
  rw [grown_add, hs, grown_succ hb, grown_zero]

/-- Up to its first line feed a text is as it was. -/
theorem agreeUpTo_crlf (s : Bytes) :
    AgreeUpTo [Byte.carriageReturn, Byte.lineFeed] s (crlf s) := by
  by_cases h : Byte.lineFeed ∈ s
  · obtain ⟨u, more, rfl, hu⟩ := List.eq_append_cons_of_mem h
    rw [crlf_append, crlf_eq_self hu, crlf_lineFeed]
    exact .stop u _ _ (by decide) (by decide)
  · rw [crlf_eq_self h]
    exact .same s

/-! ## Comments -/

theorem lineLength_crlf (s : Bytes) : lineLength (crlf s) = grown s (lineLength s) := by
  induction s with
  | nil => rfl
  | cons b s ih =>
    by_cases hb : b = Byte.lineFeed
    · subst hb
      rw [crlf_lineFeed, lineLength_cons (by decide), lineLength_lineFeed, lineLength_lineFeed]
      rfl
    · rw [crlf_cons hb, lineLength_cons hb, lineLength_cons hb, grown_succ hb, ih]

/-- A text begins with a slash before and after. -/
theorem head?_crlf_eq_slash {s : Bytes} :
    (crlf s).head? = some Byte.slash ↔ s.head? = some Byte.slash := by
  cases s with
  | nil => exact Iff.rfl
  | cons b s =>
    by_cases hb : b = Byte.lineFeed
    · subst hb
      rw [crlf_lineFeed, List.head?_cons, List.head?_cons]
      decide
    · rw [crlf_cons hb]
      exact Iff.rfl

/-- The closer is at hand, or it is looked for one byte further. -/
theorem closerFrom_cons (n : Nat) (a : UInt8) (s : Bytes) :
    closerFrom n (a :: s) =
      if a = Byte.star ∧ s.head? = some Byte.slash then some (n + 2) else closerFrom (n + 1) s := by
  cases s with
  | nil => simp [closerFrom]
  | cons b s => simp only [closerFrom, List.head?_cons, Option.some.injEq]

/-- A closer is found where it was. -/
theorem closerFrom_crlf (t : Bytes) (n : Nat) :
    closerFrom (grown t n) (crlf (t.drop n)) = (closerFrom n (t.drop n)).map (grown t) := by
  generalize hs : t.drop n = s
  induction s generalizing n with
  | nil => rfl
  | cons a s ih =>
    have hdrop := drop_succ_of_drop hs
    have hnext := ih (n + 1) hdrop
    by_cases ha : a = Byte.lineFeed
    · subst ha
      rw [grown_of_lineFeed hs] at hnext
      rw [crlf_lineFeed, closerFrom_cons, if_neg (fun h => absurd h.1 (by decide)), closerFrom_cons,
        if_neg (fun h => absurd h.1 (by decide)), closerFrom_cons n,
        if_neg (fun h => absurd h.1 (by decide))]
      exact hnext
    · rw [grown_of_ne hs ha] at hnext
      rw [crlf_cons ha, closerFrom_cons, closerFrom_cons n]
      by_cases hclose : a = Byte.star ∧ s.head? = some Byte.slash
      · obtain ⟨more, hmore⟩ := List.head?_eq_some_iff.1 hclose.2
        rw [if_pos hclose, if_pos ⟨hclose.1, head?_crlf_eq_slash.2 hclose.2⟩, Option.map_some,
          grown_of_ne (hdrop.trans hmore) (by decide), grown_of_ne hs ha]
      · rw [if_neg hclose, if_neg (fun h => hclose ⟨h.1, head?_crlf_eq_slash.1 h.2⟩)]
        exact hnext

/-- What a length in the text, or the place of an error, becomes. -/
def grownLength (t : Bytes) : Except Unclosed Nat → Except Unclosed Nat
  | .ok n => .ok (grown t n)
  | .error e => .error ⟨e.construct, grown t e.offset⟩

/-- **Comments grow as their bytes do.** -/
theorem commentLength_crlf {b : UInt8} (hb : b ≠ Byte.lineFeed) (s : Bytes) :
    commentLength (b :: crlf s) = grownLength (b :: s) (commentLength (b :: s)) := by
  have hone : Except.ok 1 = grownLength (b :: s) (.ok 1) := by
    rw [grownLength, grown_succ hb, grown_zero]
  cases s with
  | nil => exact hone
  | cons c s =>
    by_cases hc : c = Byte.lineFeed
    · subst hc
      exact hone
    · rw [crlf_cons hc, commentLength, commentLength]
      split
      · rw [grownLength, lineLength_crlf, Nat.add_comm 2, Nat.add_comm 2, grown_succ hb, grown_succ hc]
      · split
        · have hclose := closerFrom_crlf (b :: c :: s) 2
          rw [grown_succ hb, grown_succ hc, grown_zero] at hclose
          simp only [List.drop_succ_cons, List.drop_zero, Nat.zero_add] at hclose
          rw [hclose]
          cases closerFrom 2 s with
          | none => rfl
          | some m => rfl
        · exact hone

/-! ## Quoted literals -/

/-- A byte that means nothing in a literal is passed by itself. -/
theorem quotedFrom_of_ne {quote b : UInt8} (hslash : b ≠ Byte.slash) (hback : b ≠ Byte.backslash)
    (hquote : b ≠ quote) (n : Nat) (s : Bytes) :
    quotedFrom quote n (b :: s) = quotedFrom quote (n + 1) s := by
  rw [quotedFrom, if_neg hslash, if_neg hback, if_neg hquote]

/-- **Literals grow as their bytes do.**  A backslash before a line feed hides the carriage return, and
    then the line feed is passed by itself. -/
theorem quotedFrom_crlf {quote : UInt8} (hquote : Byte.isQuote quote = true) (t : Bytes) (n : Nat) :
    quotedFrom quote (grown t n) (crlf (t.drop n)) = grownLength t (quotedFrom quote n (t.drop n)) := by
  have hfeed : Byte.lineFeed ≠ quote := (Byte.ne_of_class hquote (by decide)).symm
  have hreturn : Byte.carriageReturn ≠ quote := (Byte.ne_of_class hquote (by decide)).symm
  generalize hs : t.drop n = s
  fun_induction quotedFrom quote n s with
  | case1 n =>
    rw [crlf_nil, quotedFrom]
    rfl
  | case2 n s k hk ih =>
    have hpos := commentLength_pos hk
    have hnext := ih (drop_of_step hs hpos).symm
    have hdrop : (crlf s).drop (grown (Byte.slash :: s) k - 1) = crlf (s.drop (k - 1)) := by
      have hk' : grown (Byte.slash :: s) k = grown s (k - 1) + 1 := by
        rw [← grown_succ (b := Byte.slash) (by decide), Nat.sub_add_cancel hpos]
      rw [hk', Nat.add_sub_cancel, drop_crlf]
    rw [grown_add, hs] at hnext
    rw [crlf_cons (by decide), quotedFrom, if_pos rfl, commentLength_crlf (by decide), hk]
    show quotedFrom quote (grown t n + grown (Byte.slash :: s) k)
      ((crlf s).drop (grown (Byte.slash :: s) k - 1)) = _
    rw [hdrop]
    exact hnext
  | case3 n s e he =>
    rw [crlf_cons (by decide), quotedFrom, if_pos rfl, commentLength_crlf (by decide), he]
    cases commentLength_error he
    simp only [grownLength, Unclosed.shift, grown_zero, Nat.zero_add]
  | case4 n s hslash ih =>
    have hdrop := drop_succ_of_drop hs
    have hback : grown t (n + 1) = grown t n + 1 := grown_of_ne hs (by decide)
    rw [crlf_cons (by decide), quotedFrom, if_neg (by decide), if_pos rfl]
    cases s with
    | nil =>
      rw [crlf_nil, List.drop_nil, quotedFrom, quotedFrom]
      rfl
    | cons c s =>
      have hnext := ih (drop_succ_of_drop hdrop)
      rw [List.drop_succ_cons, List.drop_zero] at hnext ⊢
      by_cases hc : c = Byte.lineFeed
      · subst hc
        rw [grown_of_lineFeed hdrop, hback] at hnext
        rw [crlf_lineFeed, List.drop_succ_cons, List.drop_zero,
          quotedFrom_of_ne (by decide) (by decide) hfeed]
        exact hnext
      · rw [grown_of_ne hdrop hc, hback] at hnext
        rw [crlf_cons hc, List.drop_succ_cons, List.drop_zero]
        exact hnext
  | case5 n s hslash hback =>
    rw [crlf_cons hfeed.symm, quotedFrom, if_neg hslash, if_neg hback, if_pos rfl, grownLength,
      grown_of_ne hs hfeed.symm]
  | case6 n b s hslash hback hb ih =>
    have hnext := ih (drop_succ_of_drop hs)
    by_cases hlf : b = Byte.lineFeed
    · subst hlf
      rw [grown_of_lineFeed hs] at hnext
      rw [crlf_lineFeed, quotedFrom_of_ne (by decide) (by decide) hreturn,
        quotedFrom_of_ne (by decide) (by decide) hfeed]
      exact hnext
    · rw [grown_of_ne hs hlf] at hnext
      rw [crlf_cons hlf, quotedFrom_of_ne hslash hback hb]
      exact hnext

/-! ## Lexical steps -/

/-- **Lexical steps grow as the bytes do that they pass.** -/
theorem stepLength_crlf {b : UInt8} (hb : b ≠ Byte.lineFeed) (s : Bytes) :
    stepLength b (crlf s) = grownLength (b :: s) (stepLength b s) := by
  rw [stepLength, stepLength]
  split
  · exact commentLength_crlf hb s
  · split
    · next hquote =>
      have hlength := quotedFrom_crlf hquote (b :: s) 1
      rw [grown_succ hb, grown_zero, List.drop_succ_cons, List.drop_zero] at hlength
      exact hlength
    · rw [grownLength, grown_succ hb, grown_zero]

/-! ## The revision -/

/-- The source with a carriage return before each line feed. -/
def crlfRevision (src : Bytes) : Revision where
  old := src
  new := crlf src
  move := grown src
  place _ := True
  stops := [Byte.carriageReturn, Byte.lineFeed]
  change := crlf

theorem mem_stops_crlf (src : Bytes) :
    Byte.carriageReturn ∈ (crlfRevision src).stops ∧ Byte.lineFeed ∈ (crlfRevision src).stops :=
  ⟨List.mem_cons_self, List.mem_cons_of_mem _ List.mem_cons_self⟩

theorem sameLine_crlf (src : Bytes) (p : Nat) : (crlfRevision src).SameLine p := by
  show newlines ((crlf src).take (grown src p)) = newlines (src.take p)
  rw [take_crlf, newlines_crlf]

/-- A byte that is no line feed begins steps that correspond. -/
theorem steps_crlf {src s : Bytes} {p : Nat} {b : UInt8} (hs : src.drop p = b :: s)
    (hb : b ≠ Byte.lineFeed) : (crlfRevision src).Steps p b s (crlf s) := by
  refine ⟨?_, fun _ => agreeUpTo_crlf s, ?_, ?_⟩
  · show (crlf src).drop (grown src p) = b :: crlf s
    rw [drop_crlf, hs, crlf_cons hb]
  · rw [stepLength_crlf hb]
    have hmove : ∀ n, grown src (p + n) = grown src p + grown (b :: s) n := by
      intro n
      rw [grown_add, hs]
    cases stepLength b s with
    | ok n => exact .ok ⟨trivial, hmove n⟩
    | error e => exact .error ⟨rfl, hmove e.offset, sameLine_crlf src _⟩
  · intro _ n n' hn hn'
    rw [stepLength_crlf hb, hn] at hn'
    cases hn'
    show (b :: crlf s).take (grown (b :: s) n) = crlf ((b :: s).take n)
    rw [← crlf_cons hb, take_crlf]

/-- A line feed becomes a carriage return and a line feed. -/
theorem feeds_crlf {src s : Bytes} {p : Nat} (hs : src.drop p = Byte.lineFeed :: s) :
    (crlfRevision src).Feeds p := by
  have hnext : (crlf src).drop (grown src p + 2) = crlf s := by
    rw [← grown_of_lineFeed hs, drop_crlf, drop_succ_of_drop hs]
  refine ⟨?_, ⟨trivial, grown_of_lineFeed hs⟩, mem_stops_crlf src⟩
  show (crlf src).drop (grown src p) = _ :: _ :: (crlf src).drop (grown src p + 2)
  rw [hnext, drop_crlf, hs, crlf_lineFeed]

/-- **To end lines otherwise is harmless.** -/
theorem harmless_crlf (src : Bytes) : (crlfRevision src).Harmless where
  stops_subset := by
    show [Byte.carriageReturn, Byte.lineFeed] ⊆ _
    decide
  place_zero := trivial
  move_zero := rfl
  move_length := by
    show grown src src.length = (crlf src).length
    rw [length_crlf, grown, List.take_length]
  move_lt := by
    intro p q hlt
    show grown src p < grown src q
    rw [show q = p + (q - p) by omega, grown_add]
    have hle : q - p ≤ grown (src.drop p) (q - p) := Nat.le_add_right _ _
    omega
  move_add := by
    intro p n hstops
    show grown src (p + n) = grown src p + n
    have hnone : newlines ((src.drop p).take n) = 0 :=
      List.count_eq_zero.2 (hstops _ (mem_stops_crlf src).2)
    have hgrown : grown (src.drop p) n = n := by rw [grown, hnone, Nat.add_zero]
    rw [grown_add, hgrown]
  change_eq := fun s hstops => crlf_eq_self (hstops _ (mem_stops_crlf src).2)
  line := fun p _ => sameLine_crlf src p
  lead := by
    intro p _ _
    show leadOf ((crlf src).take (grown src p)) = leadOf (src.take p)
    rw [take_crlf, leadOf_crlf]
  step := by
    intro p b s _ hs
    by_cases hb : b = Byte.lineFeed
    · subst hb
      exact .inr ⟨rfl, feeds_crlf hs⟩
    · exact .inl ⟨crlf s, steps_crlf hs hb⟩

/-! ## What is printed -/

/-- The text with a carriage return before each line feed. -/
def crlfText (s : String) : String :=
  String.ofList (s.toList.flatMap fun c => if c = '\n' then ['\r', '\n'] else [c])

namespace Utf8

/-- What becomes of a character, or of an ill-formed stretch. -/
def crlfItem (x : Option Char) : List (Option Char) :=
  if x = some '\n' then [some '\r', some '\n'] else [x]

/-- The least value that a character begun can have with its next byte. -/
def Partial.least (p : Partial) : Nat := p.value * 64 + (p.low.toNat - 0x80)

theorem Partial.least_of_low {p : Partial} (h : p.low = 0x80) : p.least = p.value * 64 := by
  have hlow : p.low.toNat = 0x80 := by rw [h]; rfl
  unfold least
  omega

/-- A character begun goes on with no byte of ASCII and does not end as one. -/
structure Partial.Long (p : Partial) : Prop where
  low : 0x80 ≤ p.low
  least : 2 ≤ p.least
  last : p.owed ≤ 1 → 0x80 ≤ p.least

instance (p : Partial) : Decidable p.Long :=
  decidable_of_iff (0x80 ≤ p.low ∧ 2 ≤ p.least ∧ (p.owed ≤ 1 → 0x80 ≤ p.least))
    ⟨fun ⟨hlow, hleast, hlast⟩ => ⟨hlow, hleast, hlast⟩, fun h => ⟨h.low, h.least, h.last⟩⟩

/-- So does one of which the first byte has been read. -/
theorem long_of_lead {b : UInt8} {p : Partial} (h : lead b = .longer p) : p.Long := by
  have hall : ∀ b, (match lead b with | .longer p => decide p.Long | _ => true) = true :=
    Byte.forall_of_ofNat (by decide +kernel)
  have hb := hall b
  rw [h] at hb
  exact of_decide_eq_true hb

/-- A value past ASCII is no line feed. -/
theorem ofNat_ne_lineFeed {n : Nat} (hn : n ≠ 10) : Char.ofNat n ≠ '\n' := by
  intro heq
  by_cases hvalid : n.isValidChar
  · rw [Char.ofNat, dif_pos hvalid] at heq
    exact hn (congrArg Char.toNat heq)
  · rw [Char.ofNat, dif_neg hvalid] at heq
    exact absurd heq (by decide)

/-- What a machine has read of a text, and what another has read of the text with carriage returns. -/
structure State.Crlf (st st' : State) : Prop where
  part : st'.part = st.part
  done : st'.done.reverse = st.done.reverse.flatMap crlfItem
  long : ∀ p ∈ st.part, p.Long

section

variable {done done' : List (Option Char)} (hdone : done'.reverse = done.reverse.flatMap crlfItem)
include hdone

/-- Both have read one more character, which is no line feed, or one more ill-formed stretch. -/
theorem reverse_cons_crlf {x : Option Char} (hx : x ≠ some '\n') :
    (x :: done').reverse = (x :: done).reverse.flatMap crlfItem := by
  rw [List.reverse_cons, List.reverse_cons, List.flatMap_append, hdone, List.flatMap_singleton,
    crlfItem, if_neg hx]

/-- Both read a first byte. -/
theorem State.crlf_first {b : UInt8} (hb : b ≠ Byte.lineFeed) :
    (State.first done b).Crlf (State.first done' b) := by
  rw [State.first, State.first]
  split
  · have hnat : b.toNat ≠ 10 := fun heq => hb (UInt8.toNat_inj.1 heq)
    have hchar : some (Char.ofNat b.toNat) ≠ some '\n' :=
      fun heq => ofNat_ne_lineFeed hnat (Option.some.inj heq)
    exact ⟨rfl, reverse_cons_crlf hdone hchar, nofun⟩
  · next p hp => exact ⟨rfl, hdone, fun q hq => Option.some.inj hq ▸ long_of_lead hp⟩
  · exact ⟨rfl, reverse_cons_crlf hdone nofun, nofun⟩

/-- The one reads a line feed, the other a carriage return and a line feed. -/
theorem State.crlf_lineFeed :
    (State.mk (some '\n' :: done) none).Crlf (State.mk (some '\n' :: some '\r' :: done') none) := by
  refine ⟨rfl, ?_, nofun⟩
  rw [List.reverse_cons, List.reverse_cons, List.reverse_cons, hdone, List.flatMap_append,
    List.append_assoc]
  rfl

end

/-- A character begun goes on alike for both. -/
theorem State.crlf_follow {done done' : List (Option Char)} {p : Partial} {b : UInt8}
    (hdone : done'.reverse = done.reverse.flatMap crlfItem) (hlong : p.Long)
    (hb : p.low ≤ b ∧ b ≤ p.high) :
    (State.read ⟨done, some p⟩ b).Crlf (State.read ⟨done', some p⟩ b) := by
  have hle : p.least ≤ p.value * 64 + (b.toNat - 0x80) :=
    Nat.add_le_add_left (Nat.sub_le_sub_right (UInt8.le_iff_toNat_le.1 hb.1) _) _
  simp only [State.read, if_pos hb]
  split
  · next howed =>
    have hlast := hlong.last howed
    have hchar : some (Char.ofNat (p.value * 64 + (b.toNat - 0x80))) ≠ some '\n' :=
      fun heq => ofNat_ne_lineFeed (by omega) (Option.some.inj heq)
    exact ⟨rfl, reverse_cons_crlf hdone hchar, nofun⟩
  · refine ⟨rfl, hdone, ?_⟩
    intro q hq
    rw [← Option.some.inj hq]
    have hleast := hlong.least
    refine ⟨UInt8.le_refl _, ?_, fun _ => ?_⟩
    · rw [Partial.least_of_low rfl]
      show 2 ≤ (p.value * 64 + (b.toNat - 0x80)) * 64
      omega
    · rw [Partial.least_of_low rfl]
      show 0x80 ≤ (p.value * 64 + (b.toNat - 0x80)) * 64
      omega

/-- A byte that cannot go on with a character begun closes it as ill-formed. -/
theorem State.read_of_not_follow {done : List (Option Char)} {p : Partial} {b : UInt8}
    (hb : ¬(p.low ≤ b ∧ b ≤ p.high)) : State.read ⟨done, some p⟩ b = State.first (none :: done) b := by
  simp only [State.read, if_neg hb]

/-- **A step of the one machine is a step or two of the other.** -/
theorem State.Crlf.read {st st' : State} (h : st.Crlf st') (b : UInt8) :
    (st.read b).Crlf ((crlfByte b).foldl State.read st') := by
  obtain ⟨done, part⟩ := st
  obtain ⟨done', part'⟩ := st'
  obtain ⟨rfl, hdone, hlong⟩ := h
  by_cases hb : b = Byte.lineFeed
  · subst hb
    cases part' with
    | none => exact State.crlf_lineFeed hdone
    | some p =>
      have hlow : ∀ x : UInt8, x < 0x80 → ¬(p.low ≤ x ∧ x ≤ p.high) := by
        intro x hx hrange
        exact absurd (UInt8.lt_of_le_of_lt hrange.1 hx) (UInt8.not_lt.2 (hlong p rfl).low)
      rw [State.read_of_not_follow (hlow _ (by decide))]
      show State.Crlf _ (State.read (State.read _ Byte.carriageReturn) Byte.lineFeed)
      rw [State.read_of_not_follow (hlow _ (by decide))]
      exact State.crlf_lineFeed (reverse_cons_crlf hdone nofun)
  · rw [crlfByte, if_neg hb]
    cases part' with
    | none => exact State.crlf_first hdone hb
    | some p =>
      show State.Crlf _ (State.read ⟨done', some p⟩ b)
      by_cases hrange : p.low ≤ b ∧ b ≤ p.high
      · exact State.crlf_follow hdone (hlong p rfl) hrange
      · rw [State.read_of_not_follow hrange, State.read_of_not_follow hrange]
        exact State.crlf_first (reverse_cons_crlf hdone (Option.some_ne_none _).symm) hb

/-- So is a run. -/
theorem State.Crlf.foldl {st st' : State} (h : st.Crlf st') (s : Bytes) :
    (s.foldl State.read st).Crlf ((crlf s).foldl State.read st') := by
  induction s generalizing st st' with
  | nil => exact h
  | cons b s ih =>
    rw [crlf, List.flatMap_cons, List.foldl_append, List.foldl_cons]
    exact ih (h.read b)

/-- **With carriage returns, what is decoded has them too.** -/
theorem decode_crlf (s : Bytes) : decode (crlf s) = (decode s).flatMap crlfItem := by
  have hstart : (State.mk [] none).Crlf ⟨[], none⟩ := ⟨rfl, rfl, nofun⟩
  obtain ⟨hpart, hdone, -⟩ := hstart.foldl s
  rw [decode, decode, State.close, State.close, hpart]
  split
  · exact hdone
  · exact reverse_cons_crlf hdone nofun

/-- **What is printed of some bytes changes as they do.** -/
theorem decodeLossy_crlf (s : Bytes) : decodeLossy (crlf s) = crlfText (decodeLossy s) := by
  have hitem : ∀ x : Option Char, (crlfItem x).map (·.getD '\uFFFD') =
      if x.getD '\uFFFD' = '\n' then ['\r', '\n'] else [x.getD '\uFFFD'] := by
    intro x
    cases x with
    | none => rfl
    | some c =>
      by_cases hc : c = '\n'
      · rw [hc]
        rfl
      · rw [crlfItem, if_neg fun heq => hc (Option.some.inj heq), Option.getD_some, if_neg hc]
        rfl
  rw [decodeLossy, decodeLossy, crlfText, decode_crlf, String.toList_ofList, List.map_flatMap,
    List.flatMap_map]
  simp only [hitem]

end Utf8

/-! ## Sources -/

/-- The finding `f'` is what `f` becomes when the lines of `src` end in a carriage return and a line
    feed. -/
structure Finding.CrlfOf (src : Bytes) (f f' : Finding) : Prop where
  line : f'.line = f.line
  offset : f'.offset = f.offset + newlines (src.take f.offset)
  bytes : f'.bytes = crlf f.bytes
  text : f'.text = crlfText f.text

/-- **How lines end does not matter.**  The keywords hold neither a carriage return nor a line feed.
    Then a source can be scanned just if it can be with a carriage return before each line feed.  Its
    findings correspond one to one and in order: they are on the same lines, further right by the line
    ends before them, and hold carriage returns where they hold line feeds.  If it cannot be scanned, the
    same construct on the same line is what fails, further right likewise. -/
theorem scan_crlf {opts : LexOptions}
    (hwords : ∀ word ∈ opts.safeKeywords, Byte.carriageReturn ∉ word ∧ Byte.lineFeed ∉ word)
    (src : Bytes) :
    ((∃ found', scan opts (crlf src) = .ok found') ↔ ∃ found, scan opts src = .ok found) ∧
    (∀ found, scan opts src = .ok found →
      ∃ found', scan opts (crlf src) = .ok found' ∧
        List.Forall₂ (Finding.CrlfOf src) found found') ∧
    ∀ e, scan opts src = .error e →
      ∃ e', scan opts (crlf src) = .error e' ∧ e'.construct = e.construct ∧ e'.line = e.line ∧
        e'.offset = e.offset + newlines (src.take e.offset) := by
  have havoid : ∀ word ∈ opts.safeKeywords, ∀ x ∈ (crlfRevision src).stops, x ∉ word := by
    intro word hword x hx
    rcases List.mem_pair.1 hx with rfl | rfl
    · exact (hwords word hword).1
    · exact (hwords word hword).2
  have hscan := (harmless_crlf src).scan_eq havoid
  have hok : ∀ found, scan opts src = .ok found →
      scan opts (crlf src) = .ok (found.map (crlfRevision src).finding) := by
    intro found hfound
    rwa [show scan opts (crlfRevision src).old = .ok found from hfound] at hscan
  have herror : ∀ e, scan opts src = .error e →
      scan opts (crlf src) = .error { e with offset := grown src e.offset } := by
    intro e he
    rwa [show scan opts (crlfRevision src).old = .error e from he] at hscan
  refine ⟨⟨?_, ?_⟩, ?_, ?_⟩
  · rintro ⟨found', hfound'⟩
    cases h : scan opts src with
    | ok found => exact ⟨found, rfl⟩
    | error e =>
      rw [herror e h] at hfound'
      cases hfound'
  · rintro ⟨found, hfound⟩
    exact ⟨_, hok found hfound⟩
  · intro found hfound
    refine ⟨_, hok found hfound, ?_⟩
    rw [List.forall₂_map_right_iff, List.forall₂_same]
    intro f _
    exact ⟨rfl, rfl, rfl, Utf8.decodeLossy_crlf f.bytes⟩
  · intro e he
    exact ⟨_, herror e he, rfl, rfl, rfl⟩

/-- A literal that an escape carries over a line end, and keywords on lines of their own. -/
theorem scan_crlf_escape :
    let src := Bytes.ofString "a(\"b\\\nc\");\nstatic\nfinal int d = 2; 3"
    let found : List Finding := [⟨1, 2, Bytes.ofString "\"b\\\nc\""⟩, ⟨4, 35, Bytes.ofString "3"⟩]
    let found' : List Finding := [⟨1, 2, Bytes.ofString "\"b\\\r\nc\""⟩, ⟨4, 38, Bytes.ofString "3"⟩]
    scan {} src = .ok found ∧ scan {} (crlf src) = .ok found' ∧
    List.Forall₂ (Finding.CrlfOf src) found found' := by
  intro src found found'
  have hwords : ∀ word ∈ ({} : LexOptions).safeKeywords,
      Byte.carriageReturn ∉ word ∧ Byte.lineFeed ∉ word := by decide
  have h : scan {} src = .ok found := eq_ok_of_toOption (by decide +kernel)
  have h' : scan {} (crlf src) = .ok found' := eq_ok_of_toOption (by decide +kernel)
  obtain ⟨found'', h'', hcrlf⟩ := (scan_crlf hwords src).2.1 found h
  rw [h'] at h''
  cases h''
  exact ⟨h, h', hcrlf⟩

end MagicNumbers
