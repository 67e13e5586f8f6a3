/-
  What a comment holds does not matter.

  A comment that a walk from the start of a source comes to may hold other bytes, as many and with as
  many line ends, as long as it still ends where it did.  No other place of the source is lexed
  differently then, also if the new bytes are braces, quotes or keywords.

  * `CommentForm` — the ways to delimit a comment; `CommentForm.Holds` says what may stand between the
    delimiters.
  * `exists_comment`, `commentLength_comment` — each comment is delimited in one of these ways, and what
    is delimited so is a comment.
  * `scan_comment` — a scan finds the same whatever the comment holds.
-/
import Mathlib.Data.List.Infix
import MagicNumbers.Proofs.RevisedScan

namespace MagicNumbers

/-! ## Comments and what they hold -/

/-- The ways to delimit a comment: by `/*` and `*/`, by `//` and a line feed, or by `//` and the end of
    the text. -/
inductive CommentForm where
  | block
  | line
  | lastLine
  deriving DecidableEq, Repr

namespace CommentForm

def opener : CommentForm → Bytes
  | block => [Byte.slash, Byte.star]
  | line | lastLine => [Byte.slash, Byte.slash]

def closer : CommentForm → Bytes
  | block => [Byte.star, Byte.slash]
  | line => [Byte.lineFeed]
  | lastLine => []

/-- The comment that holds `inner`, delimiters included. -/
def comment (form : CommentForm) (inner : Bytes) : Bytes := form.opener ++ inner ++ form.closer

/-- The bytes `inner` may stand between the delimiters: if `after` follows the comment, it does not end
    before it is closed. -/
def Holds : CommentForm → Bytes → Bytes → Prop
  | block, inner, _ => ¬[Byte.star, Byte.slash] <:+: inner
  | line, inner, _ => Byte.lineFeed ∉ inner
  | lastLine, inner, after => Byte.lineFeed ∉ inner ∧ after = []

instance (form : CommentForm) (inner after : Bytes) : Decidable (form.Holds inner after) :=
  match form with
  | block => inferInstanceAs (Decidable (¬[Byte.star, Byte.slash] <:+: inner))
  | line => inferInstanceAs (Decidable (Byte.lineFeed ∉ inner))
  | lastLine => inferInstanceAs (Decidable (Byte.lineFeed ∉ inner ∧ after = []))

theorem block_append (inner after : Bytes) :
    block.comment inner ++ after =
      Byte.slash :: Byte.star :: (inner ++ Byte.star :: Byte.slash :: after) := by
  simp [comment, opener, closer]

theorem line_append (inner after : Bytes) :
    line.comment inner ++ after =
      Byte.slash :: Byte.slash :: (inner ++ Byte.lineFeed :: after) := by
  simp [comment, opener, closer]

theorem lastLine_append (inner after : Bytes) :
    lastLine.comment inner ++ after = Byte.slash :: Byte.slash :: (inner ++ after) := by
  simp [comment, opener, closer]

theorem length_comment (form : CommentForm) (inner : Bytes) :
    (form.comment inner).length = 2 + inner.length + form.closer.length := by
  have hopener : form.opener.length = 2 := by cases form <;> rfl
  rw [comment, List.length_append, List.length_append, hopener]

theorem exists_comment_eq_cons (form : CommentForm) (inner : Bytes) :
    ∃ s, form.comment inner = Byte.slash :: s := by
  cases form with
  | block => exact ⟨_, rfl⟩
  | line => exact ⟨_, rfl⟩
  | lastLine => exact ⟨_, rfl⟩

/-- No name is under way behind a comment that something follows. -/
theorem leadOf_comment {form : CommentForm} {inner after : Bytes} (h : form.Holds inner after)
    (hafter : after ≠ []) (before : Bytes) : leadOf (before ++ form.comment inner) = none := by
  cases form with
  | block =>
    rw [comment, ← List.append_assoc, show closer block = [Byte.star] ++ [Byte.slash] from rfl,
      ← List.append_assoc, leadOf_concat]
    rfl
  | line =>
    rw [comment, ← List.append_assoc, show closer line = [Byte.lineFeed] from rfl, leadOf_concat]
    rfl
  | lastLine => exact absurd h.2 hafter

end CommentForm

/-! ## How comments end -/

/-- A line goes on as long as there is no line feed. -/
theorem lineLength_append_of_notMem {inner : Bytes} (h : Byte.lineFeed ∉ inner) (after : Bytes) :
    lineLength (inner ++ after) = inner.length + lineLength after := by
  induction inner with
  | nil => exact (Nat.zero_add _).symm
  | cons b inner ih =>
    obtain ⟨hb, hinner⟩ := List.ne_and_not_mem_of_not_mem_cons h
    rw [List.cons_append, lineLength_cons hb.symm, ih hinner, List.length_cons]
    omega

/-- A line ends in its line feed, or it is the last one. -/
theorem line_or_lastLine (s : Bytes) :
    (∃ inner after, s = inner ++ Byte.lineFeed :: after ∧ Byte.lineFeed ∉ inner) ∨
      Byte.lineFeed ∉ s := by
  by_cases h : Byte.lineFeed ∈ s
  · obtain ⟨inner, after, hs, hinner⟩ := List.eq_append_cons_of_mem h
    exact .inl ⟨inner, after, hs, hinner⟩
  · exact .inr h

/-- No closer begins further right in what holds none. -/
theorem not_infix_tail {b : UInt8} {s t : Bytes} (h : ¬t <:+: b :: s) : ¬t <:+: s :=
  fun hwithin => h (hwithin.trans (List.suffix_cons b s).isInfix)

/-- A closer is found behind what holds none. -/
theorem closerFrom_of_not_infix {inner : Bytes} (h : ¬[Byte.star, Byte.slash] <:+: inner) (n : Nat)
    (after : Bytes) :
    closerFrom n (inner ++ Byte.star :: Byte.slash :: after) = some (n + inner.length + 2) := by
  induction inner generalizing n with
  | nil => rw [List.nil_append, closerFrom, if_pos ⟨rfl, rfl⟩, List.length_nil, Nat.add_zero]
  | cons a inner ih =>
    have hinner := ih (not_infix_tail h) (n + 1)
    rw [List.length_cons, show n + (inner.length + 1) + 2 = n + 1 + inner.length + 2 by omega, ← hinner]
    -- the two bytes at hand are no closer: the second is one of `inner`, or the star behind it
    cases inner with
    | nil =>
      have hstar : ¬(a = Byte.star ∧ Byte.star = Byte.slash) := fun hab => absurd hab.2 (by decide)
      rw [List.singleton_append, List.nil_append, closerFrom, if_neg hstar]
    | cons b inner =>
      have hab : ¬(a = Byte.star ∧ b = Byte.slash) := by
        rintro ⟨rfl, rfl⟩
        exact h (List.prefix_append [Byte.star, Byte.slash] inner).isInfix
      rw [List.cons_append, List.cons_append, closerFrom, if_neg hab, ← List.cons_append]

/-- Before the closer that is found there is none. -/
theorem exists_inner_of_closerFrom {n m : Nat} {s : Bytes} (h : closerFrom n s = some m) :
    ∃ inner after, s = inner ++ Byte.star :: Byte.slash :: after ∧
      ¬[Byte.star, Byte.slash] <:+: inner := by
  fun_induction closerFrom n s with
  | case1 n a b s hab =>
    obtain ⟨rfl, rfl⟩ := hab
    cases h
    exact ⟨[], s, rfl, by decide⟩
  | case2 n a b s hab ih =>
    obtain ⟨inner, after, hs, hinner⟩ := ih h
    refine ⟨a :: inner, after, by rw [hs, List.cons_append], ?_⟩
    intro hwithin
    rcases List.infix_cons_iff.1 hwithin with ⟨more, hprefix⟩ | hwithin
    · -- a closer at the head would have been found before
      cases hprefix
      cases hs
      exact hab ⟨rfl, rfl⟩
    · exact hinner hwithin
  | case3 => cases h

/-- **What is delimited as a comment is one.** -/
theorem commentLength_comment {form : CommentForm} {inner after : Bytes}
    (h : form.Holds inner after) :
    commentLength (form.comment inner ++ after) = .ok (form.comment inner).length := by
  rw [CommentForm.length_comment]
  cases form with
  | block =>
    rw [CommentForm.block_append, commentLength, if_neg (by decide), if_pos rfl,
      closerFrom_of_not_infix h]
    rfl
  | line =>
    rw [CommentForm.line_append, commentLength, if_pos rfl, lineLength_append_of_notMem h,
      lineLength_lineFeed, Nat.add_assoc]
    rfl
  | lastLine =>
    obtain ⟨hinner, rfl⟩ := h
    rw [CommentForm.lastLine_append, commentLength, if_pos rfl, lineLength_append_of_notMem hinner]
    rfl

/-- **Every comment is delimited in one of these ways.**  A slash that begins none is passed alone. -/
theorem exists_comment {s : Bytes} {n : Nat} (hn : commentLength (Byte.slash :: s) = .ok n)
    (hlong : 1 < n) :
    ∃ form inner after, Byte.slash :: s = CommentForm.comment form inner ++ after ∧
      (form.comment inner).length = n ∧ form.Holds inner after := by
  suffices hform : ∃ form inner after, Byte.slash :: s = CommentForm.comment form inner ++ after ∧
      form.Holds inner after by
    obtain ⟨form, inner, after, hs, hholds⟩ := hform
    rw [hs, commentLength_comment hholds] at hn
    cases hn
    exact ⟨form, inner, after, hs, rfl, hholds⟩
  cases s with
  | nil =>
    cases hn
    exact absurd hlong (Nat.lt_irrefl 1)
  | cons b s =>
    rw [commentLength] at hn
    split at hn
    · next hb =>
      subst hb
      rcases line_or_lastLine s with ⟨inner, after, rfl, hinner⟩ | hinner
      · exact ⟨.line, inner, after, (CommentForm.line_append inner after).symm, hinner⟩
      · refine ⟨.lastLine, s, [], ?_, hinner, rfl⟩
        rw [CommentForm.lastLine_append, List.append_nil]
    · split at hn
      · next hb =>
        subst hb
        split at hn
        · next m hm =>
          obtain ⟨inner, after, rfl, hinner⟩ := exists_inner_of_closerFrom hm
          exact ⟨.block, inner, after, (CommentForm.block_append inner after).symm, hinner⟩
        · cases hn
      · cases hn
        exact absurd hlong (Nat.lt_irrefl 1)

/-! ## Comments that are reworded -/

/-- A source with a comment that a walk comes to, and other bytes that the comment may hold: as many,
    with as many line ends, and none that close it. -/
structure Rewording where
  before : Bytes
  form : CommentForm
  inner : Bytes
  inner' : Bytes
  after : Bytes
  holds : form.Holds inner after
  holds' : form.Holds inner' after
  length_eq : inner'.length = inner.length
  newlines_eq : newlines inner' = newlines inner
  walk : Walk (.start (before ++ form.comment inner ++ after))
    (.ofOffset (before ++ form.comment inner ++ after) before.length)

namespace Rewording

variable (w : Rewording)

def old : Bytes := w.before ++ w.form.comment w.inner ++ w.after

def new : Bytes := w.before ++ w.form.comment w.inner' ++ w.after

/-- Where the comment begins. -/
def start : Nat := w.before.length

/-- Where the comment ends. -/
def stop : Nat := (w.before ++ w.form.comment w.inner).length

/-- Lexing comes to the comment or is behind it. -/
def revision : Revision where
  old := w.old
  new := w.new
  move := id
  place p := Walk (.ofOffset w.old p) (.ofOffset w.old w.start) ∨ w.stop ≤ p
  stops := [Byte.slash]
  change := id

variable {w}

theorem stop_new : (w.before ++ w.form.comment w.inner').length = w.stop := by
  rw [stop, List.length_append, List.length_append, CommentForm.length_comment,
    CommentForm.length_comment, w.length_eq]

theorem newlines_comment : newlines (w.form.comment w.inner') = newlines (w.form.comment w.inner) := by
  simp only [CommentForm.comment, newlines_append, w.newlines_eq]

/-! ## Before the comment -/

theorem drop_old {p : Nat} (hp : p ≤ w.start) :
    w.old.drop p = w.before.drop p ++ (w.form.comment w.inner ++ w.after) := by
  rw [old, List.append_assoc, List.drop_append_of_le_length hp]

theorem drop_new {p : Nat} (hp : p ≤ w.start) :
    w.new.drop p = w.before.drop p ++ (w.form.comment w.inner' ++ w.after) := by
  rw [new, List.append_assoc, List.drop_append_of_le_length hp]

theorem take_new {p : Nat} (hp : p ≤ w.start) : w.new.take p = w.old.take p := by
  rw [old, new, List.append_assoc, List.append_assoc, List.take_append_of_le_length hp,
    List.take_append_of_le_length hp]

/-! ## Behind the comment -/

theorem take_old_add (k : Nat) :
    w.old.take (w.stop + k) = w.before ++ w.form.comment w.inner ++ w.after.take k :=
  List.take_length_add_append k

theorem take_new_add (k : Nat) :
    w.new.take (w.stop + k) = w.before ++ w.form.comment w.inner' ++ w.after.take k := by
  rw [← stop_new]
  exact List.take_length_add_append k

theorem drop_new_behind {p : Nat} (hp : w.stop ≤ p) : w.new.drop p = w.old.drop p := by
  obtain ⟨k, rfl⟩ := Nat.exists_eq_add_of_le hp
  have hold : w.old.drop (w.stop + k) = w.after.drop k := List.drop_length_add_append k
  rw [hold, ← stop_new]
  exact List.drop_length_add_append k

theorem sameLine_behind {p : Nat} (hp : w.stop ≤ p) : w.revision.SameLine p := by
  obtain ⟨k, rfl⟩ := Nat.exists_eq_add_of_le hp
  show newlines (w.new.take (w.stop + k)) = newlines (w.old.take (w.stop + k))
  simp only [take_old_add, take_new_add, newlines_append, newlines_comment]

theorem lead_behind {p : Nat} (hp : w.stop ≤ p) (hlt : p < w.old.length) :
    leadOf (w.new.take p) = leadOf (w.old.take p) := by
  have hafter : w.after ≠ [] := by
    intro hnil
    rw [old, hnil, List.append_nil, ← stop] at hlt
    omega
  obtain ⟨k, rfl⟩ := Nat.exists_eq_add_of_le hp
  rw [take_old_add, take_new_add, leadOf_append (CommentForm.leadOf_comment w.holds hafter w.before),
    leadOf_append (CommentForm.leadOf_comment w.holds' hafter w.before)]

/-! ## The revision -/

/-- The comment itself is a step of the same length in both sources. -/
theorem steps_comment {b : UInt8} {s : Bytes} (hs : w.old.drop w.start = b :: s) :
    ∃ s', w.revision.Steps w.start b s s' := by
  obtain ⟨c, hc⟩ := w.form.exists_comment_eq_cons w.inner
  obtain ⟨c', hc'⟩ := w.form.exists_comment_eq_cons w.inner'
  rw [drop_old (Nat.le_refl _), start, List.drop_length, List.nil_append, hc, List.cons_append] at hs
  cases hs
  have hlength := commentLength_comment w.holds
  have hlength' := commentLength_comment w.holds'
  rw [hc, List.cons_append] at hlength
  rw [hc', List.cons_append] at hlength'
  have hsame : (Byte.slash :: c').length = (Byte.slash :: c).length := by
    rw [← hc, ← hc', CommentForm.length_comment, CommentForm.length_comment, w.length_eq]
  refine ⟨c' ++ w.after, ?_, fun hb => absurd rfl hb, ?_, nofun⟩
  · show w.new.drop w.start = _
    rw [drop_new (Nat.le_refl _), start, List.drop_length, List.nil_append, hc', List.cons_append]
  · rw [stepLength, stepLength, if_pos rfl, if_pos rfl, hlength, hlength', hsame]
    refine .ok ⟨.inr ?_, rfl⟩
    rw [stop, List.length_append, hc, start]

/-- A step before the comment is the same in both sources: it ends before the slash of the comment. -/
theorem steps_before {p n : Nat} {b : UInt8} {s : Bytes} (hs : w.old.drop p = b :: s)
    (hn : stepLength b s = .ok n) (hwalk : Walk (.ofOffset w.old (p + n)) (.ofOffset w.old w.start)) :
    ∃ s', w.revision.Steps p b s s' := by
  have hpos := stepLength_pos hn
  have hle : p + n ≤ w.start := by simpa using hwalk.offset_le
  obtain ⟨c, hc⟩ := w.form.exists_comment_eq_cons w.inner
  obtain ⟨c', hc'⟩ := w.form.exists_comment_eq_cons w.inner'
  have hbefore : 0 < (w.before.drop p).length := by
    rw [List.length_drop, ← start]
    omega
  rw [drop_old (by omega)] at hs
  obtain ⟨u, hu, rfl⟩ := cons_of_append hs hbefore
  have hlength := congrArg List.length hu
  rw [List.length_drop, List.length_cons, ← start] at hlength
  -- cut off behind the slash, and go on with the other comment
  have hcut : stepLength b (u ++ [Byte.slash]) = .ok n := by
    rw [hc, List.cons_append, List.append_cons] at hn
    apply stepLength_of_append hn
    rw [List.length_append]
    omega
  have hn' : stepLength b (u ++ (w.form.comment w.inner' ++ w.after)) = .ok n := by
    rw [hc', List.cons_append, List.append_cons]
    apply stepLength_append hcut
    rw [List.length_append, List.length_singleton]
    omega
  refine ⟨u ++ (w.form.comment w.inner' ++ w.after), ?_, ?_, ?_, ?_⟩
  · show w.new.drop p = _
    rw [drop_new (by omega), hu, List.cons_append]
  · intro _
    rw [hc, hc', List.cons_append, List.cons_append]
    exact .stop u _ _ (List.mem_singleton_self _) (List.mem_singleton_self _)
  · rw [hn, hn']
    exact .ok ⟨.inl hwalk, rfl⟩
  · intro _ m m' hm hm'
    rw [hn] at hm
    rw [hn'] at hm'
    cases hm
    cases hm'
    show (b :: (u ++ _)).take n = (b :: (u ++ _)).take n
    rw [← List.cons_append, ← List.cons_append, List.take_append_of_le_length (by simp; omega),
      List.take_append_of_le_length (by simp; omega)]

/-- Behind the comment the sources are the same. -/
theorem steps_behind {p : Nat} {b : UInt8} {s : Bytes} (hp : w.stop ≤ p) (hs : w.old.drop p = b :: s) :
    w.revision.Steps p b s s := by
  refine ⟨?_, fun _ => .same s, ?_, ?_⟩
  · show w.new.drop p = b :: s
    rw [drop_new_behind hp, hs]
  · cases stepLength b s with
    | ok n => exact .ok ⟨.inr (Nat.le_add_right_of_le hp), rfl⟩
    | error e => exact .error ⟨rfl, rfl, sameLine_behind (Nat.le_add_right_of_le hp)⟩
  · intro _ n n' hn hn'
    rw [hn] at hn'
    cases hn'
    rfl

variable (w)

/-- **To reword a comment is harmless.** -/
theorem harmless : w.revision.Harmless where
  stops_subset := List.cons_subset.2 ⟨by decide, List.nil_subset _⟩
  place_zero := .inl w.walk
  move_zero := rfl
  move_length := by
    show w.old.length = w.new.length
    have hnew : w.new.length = w.stop + w.after.length := by
      rw [new, List.length_append, stop_new]
    rw [hnew, old, List.length_append, stop]
  move_lt := fun _ _ hlt => hlt
  move_add := fun _ _ _ => rfl
  change_eq := fun _ _ => rfl
  line := by
    rintro p (hwalk | hp)
    · show newlines (w.new.take p) = newlines (w.old.take p)
      rw [take_new (by simpa using hwalk.offset_le)]
    · exact sameLine_behind hp
  lead := by
    rintro p (hwalk | hp) hlt
    · show leadOf (w.new.take p) = leadOf (w.old.take p)
      rw [take_new (by simpa using hwalk.offset_le)]
    · exact lead_behind hp hlt
  step := by
    rintro p b s (hwalk | hp) hs
    · left
      generalize hc : Cursor.ofOffset w.old w.start = c at hwalk
      cases hwalk with
      | refl =>
        have hp : w.start = p := by simpa using congrArg Cursor.offset hc
        subst hp
        exact steps_comment hs
      | step hr hn hwalk =>
        rw [Cursor.rest_ofOffset] at hr
        cases hs.symm.trans hr
        rw [← hc, Cursor.advance_ofOffset] at hwalk
        exact steps_before hs hn hwalk
    · exact .inl ⟨s, steps_behind hp hs⟩

/-- So the sources are scanned alike. -/
theorem scan_new {opts : LexOptions} (hwords : ∀ word ∈ opts.safeKeywords, Byte.slash ∉ word) :
    scan opts w.new = scan opts w.old := by
  have havoid : ∀ word ∈ opts.safeKeywords, ∀ x ∈ w.revision.stops, x ∉ word := by
    intro word hword x hx
    rw [List.mem_singleton.1 hx]
    exact hwords word hword
  refine (w.harmless.scan_eq havoid).trans ?_
  show _ = scan opts w.revision.old
  cases scan opts w.revision.old with
  | ok found => exact congrArg Except.ok (List.map_id found)
  | error e => rfl

end Rewording

/-- **What a comment holds does not matter.**  The keywords hold no slash, and a walk from the start of
    the source leads to a comment of `n` bytes at `start`, at whatever depth.  The comment has one of the
    three forms; and whatever it is made to hold instead, if these are as many bytes with as many line
    ends and none that close it, the scan finds the same, or fails in the same way. -/
theorem scan_comment {opts : LexOptions} (hwords : ∀ word ∈ opts.safeKeywords, Byte.slash ∉ word)
    {src s : Bytes} {start n : Nat} (hwalk : Walk (.start src) (.ofOffset src start))
    (hs : src.drop start = Byte.slash :: s) (hn : commentLength (Byte.slash :: s) = .ok n)
    (hlong : 1 < n) :
    (∃ form inner, src = src.take start ++ CommentForm.comment form inner ++ src.drop (start + n) ∧
      (form.comment inner).length = n ∧ form.Holds inner (src.drop (start + n))) ∧
    ∀ form inner inner', src = src.take start ++ CommentForm.comment form inner ++ src.drop (start + n) →
      form.Holds inner (src.drop (start + n)) → form.Holds inner' (src.drop (start + n)) →
      inner'.length = inner.length → newlines inner' = newlines inner →
      scan opts (src.take start ++ form.comment inner' ++ src.drop (start + n)) = scan opts src := by
  have hlt : start < src.length := by
    have hlength := congrArg List.length hs
    rw [List.length_drop, List.length_cons] at hlength
    omega
  refine ⟨?_, ?_⟩
  · obtain ⟨form, inner, after, hcomment, rfl, hholds⟩ := exists_comment hn hlong
    have hafter : src.drop (start + (form.comment inner).length) = after := by
      rw [← List.drop_drop, hs, hcomment, List.drop_left]
    refine ⟨form, inner, ?_, rfl, ?_⟩
    · rw [hafter, List.append_assoc, ← hcomment, ← hs, List.take_append_drop]
    · rw [hafter]
      exact hholds
  · intro form inner inner' hsrc hholds hholds' hlength hnewlines
    have htake : (src.take start).length = start := List.length_take_of_le (Nat.le_of_lt hlt)
    have hscan := (Rewording.mk (src.take start) form inner inner' (src.drop (start + n)) hholds hholds'
      hlength hnewlines (by rw [← hsrc, htake]; exact hwalk)).scan_new hwords
    exact hscan.trans (congrArg (scan opts) hsrc.symm)

/-- A comment in the block of a constant, which is passed over, comes to hold a brace and a quote. -/
theorem scan_comment_block :
    let src := Bytes.ofString "static final int[] a = \x7b/* 2 */ 3\x7d; 4"
    let src' := Bytes.ofString "static final int[] a = \x7b/*\x7d\";*/ 3\x7d; 4"
    Walk (.start src) (.ofOffset src 24) ∧ commentLength (src.drop 24) = .ok 7 ∧
    scan {} src' = scan {} src := by
  intro src src'
  have hplain : Walk (.start src) (.ofOffset src 23) := by
    refine Walk.of_plain (by decide) ?_
    show ∀ b ∈ src.take 23, b ∉ Byte.marks
    decide +kernel
  have hbrace : Walk (.ofOffset src 23) (.ofOffset src 24) :=
    .single (b := Byte.openBrace) (s := src.drop 24) (by decide) rfl
  have hwalk := hplain.trans hbrace
  have hn : commentLength (src.drop 24) = .ok 7 := by decide
  have hwords : ∀ word ∈ ({} : LexOptions).safeKeywords, Byte.slash ∉ word := by decide
  have hscan := (scan_comment hwords hwalk (s := src.drop 25) (by decide) hn (by decide)).2
    .block (Bytes.ofString " 2 ") (Bytes.ofString "\x7d\";") (by decide) (by decide) (by decide) rfl rfl
  exact ⟨hwalk, hn, hscan⟩

end MagicNumbers
