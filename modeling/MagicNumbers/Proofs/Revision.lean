/-
  A text and a revision of it.

  A revision leaves a text as it is but for some bytes that lexing passes over: what a comment holds, or
  how a line ends.  Places of the text then have their counterparts in the revised one, and lexing comes
  from counterpart to counterpart.

  * `AgreeUpTo` — two texts that part at a stop; names, numbers and words before it are the same in both.
  * `Revision` — the two texts and the correspondence; `Revision.Harmless` says of a revision, one
    lexical step at a time, that it changes nothing that matters.
  * `Harmless.blockFrom`, `Harmless.token` — then blocks and tokens correspond.
  * `Harmless.skimFrom` — and the revised text fails to lex where the text does, or neither fails.
-/
import MagicNumbers.Proofs.Occurrence
import MagicNumbers.Proofs.Skim
import MagicNumbers.Proofs.Steps

namespace MagicNumbers

/-! ## Texts that part at a stop -/

/-- Two texts are the same, or they are up to a stop in each of them. -/
inductive AgreeUpTo (stops : Bytes) : Bytes → Bytes → Prop
  | same (s : Bytes) : AgreeUpTo stops s s
  | stop {x x' : UInt8} (u s s' : Bytes) (hx : x ∈ stops) (hx' : x' ∈ stops) :
      AgreeUpTo stops (u ++ x :: s) (u ++ x' :: s')

/-- What shows before the next stop is the same of both texts. -/
theorem AgreeUpTo.congr {α : Type} {stops s s' : Bytes} (h : AgreeUpTo stops s s') (f : Bytes → α)
    (hf : ∀ x ∈ stops, ∀ u more, f (u ++ x :: more) = f u) : f s' = f s := by
  cases h with
  | same => rfl
  | stop u s s' hx hx' => rw [hf _ hx, hf _ hx']

theorem AgreeUpTo.cons {stops s s' : Bytes} (h : AgreeUpTo stops s s') (b : UInt8) :
    AgreeUpTo stops (b :: s) (b :: s') := by
  cases h with
  | same => exact .same _
  | stop u s s' hx hx' => exact .stop (b :: u) s s' hx hx'

section

variable {stops s s' : Bytes} (h : AgreeUpTo stops s s') (hsub : stops ⊆ Byte.stops)
include h hsub

theorem AgreeUpTo.nameLength_eq : nameLength s' = nameLength s :=
  h.congr nameLength fun _ hx u more => nameLength_stop (hsub hx) u more

theorem AgreeUpTo.isSentinel_eq (b : UInt8) : isSentinel b s' = isSentinel b s :=
  h.congr (isSentinel b) fun _ hx u more => isSentinel_stop (hsub hx) u more b

theorem AgreeUpTo.numberLength_eq (b : UInt8) : numberLength b s' = numberLength b s :=
  h.congr (numberLength b) fun _ hx u more => numberLength_stop (hsub hx) u more b

/-- A number is the same of both texts. -/
theorem AgreeUpTo.take_numberLength (b : UInt8) :
    (b :: s').take (numberLength b s') = (b :: s).take (numberLength b s) := by
  apply h.congr fun s => (b :: s).take (numberLength b s)
  intro x hx u more
  have hle : numberLength b u ≤ (b :: u).length := numberLength_le b u
  simp only [numberLength_stop (hsub hx), ← List.cons_append]
  rw [List.take_append_of_le_length hle]

/-- A word that holds no stop stands at the head of both texts or of neither. -/
theorem AgreeUpTo.standsAt_eq {word : Bytes} (hword : ∀ x ∈ stops, x ∉ word) (n n' : Nat)
    (lead : Option UInt8) : standsAt word ⟨n', lead, s'⟩ = standsAt word ⟨n, lead, s⟩ := by
  -- the offset of a place does not matter to what stands there
  show standsAt word ⟨n, lead, s'⟩ = standsAt word ⟨n, lead, s⟩
  apply h.congr fun s => standsAt word ⟨n, lead, s⟩
  intro x hx u more
  have hname : Byte.isNameByte x = false := Byte.eq_false_of_mem_stops (by decide) (hsub hx)
  exact standsAt_stop hname (hword x hx) n n lead

end

/-! ## Revisions -/

/-- A text, what it is revised to, and how the two correspond. -/
structure Revision where
  old : Bytes
  new : Bytes
  /-- Where in the revised text the counterpart of a place is. -/
  move : Nat → Nat
  /-- The places of the text that lexing may come to. -/
  place : Nat → Prop
  /-- The bytes at which the texts may part. -/
  stops : Bytes
  /-- What becomes of the bytes of a literal. -/
  change : Bytes → Bytes

namespace Revision

variable (r : Revision)

/-- A place is on the same line as its counterpart. -/
def SameLine (p : Nat) : Prop := newlines (r.new.take (r.move p)) = newlines (r.old.take p)

/-- A stretch of `n` bytes from `q` on has a counterpart of `n'` bytes, and ends where lexing may come
    to. -/
structure Spans (q n n' : Nat) : Prop where
  place : r.place (q + n)
  move : r.move (q + n) = r.move q + n'

/-- Errors that are found from `q` on are of one construct, which opens at corresponding places. -/
structure Moved (q : Nat) (e e' : Unclosed) : Prop where
  construct : e'.construct = e.construct
  offset : r.move (q + e.offset) = r.move q + e'.offset
  line : r.SameLine (q + e.offset)

/-- What is read from `q` on succeeds in both texts with results that are alike, or fails in both with
    errors that correspond. -/
inductive Alike (q : Nat) {α : Type} (R : α → α → Prop) : Except Unclosed α → Except Unclosed α → Prop
  | ok {a a' : α} (h : R a a') : Alike q R (.ok a) (.ok a')
  | error {e e' : Unclosed} (h : r.Moved q e e') : Alike q R (.error e) (.error e')

/-- The byte `b` begins lexical steps that correspond in the text, where `s` follows, and in the revised
    one, where `s'` does.  Behind a slash the texts may part at once, else not before a stop. -/
structure Steps (p : Nat) (b : UInt8) (s s' : Bytes) : Prop where
  rest : r.new.drop (r.move p) = b :: s'
  agree : b ≠ Byte.slash → AgreeUpTo r.stops s s'
  length : r.Alike p (r.Spans p) (stepLength b s) (stepLength b s')
  quoted : Byte.isQuote b = true → ∀ n n', stepLength b s = .ok n → stepLength b s' = .ok n' →
    (b :: s').take n' = r.change ((b :: s).take n)

/-- The line feed at `p` becomes a carriage return and a line feed. -/
structure Feeds (p : Nat) : Prop where
  rest : r.new.drop (r.move p) =
    Byte.carriageReturn :: Byte.lineFeed :: r.new.drop (r.move p + 2)
  spans : r.Spans p 1 2
  mem_stops : Byte.carriageReturn ∈ r.stops ∧ Byte.lineFeed ∈ r.stops

/-- Tokens that are read at counterparts, where `b` and then `s` or `s'` stand: they are of one kind and
    end at counterparts, and if they are literals, their bytes correspond. -/
structure TokensAlike (p : Nat) (b : UInt8) (s s' : Bytes) (t t' : Token) : Prop where
  kind : t'.kind = t.kind
  spans : r.Spans p t.length t'.length
  bytes : t.IsLiteral → (b :: s').take t'.length = r.change ((b :: s).take t.length)

/-- A revision that changes nothing that matters to a scan. -/
structure Harmless : Prop where
  stops_subset : r.stops ⊆ [Byte.slash, Byte.lineFeed, Byte.carriageReturn]
  place_zero : r.place 0
  move_zero : r.move 0 = 0
  move_length : r.move r.old.length = r.new.length
  move_lt : ∀ p q, p < q → r.move p < r.move q
  /-- Only at a stop counterparts draw apart. -/
  move_add : ∀ p n, (∀ x ∈ r.stops, x ∉ (r.old.drop p).take n) → r.move (p + n) = r.move p + n
  change_eq : ∀ s, (∀ x ∈ r.stops, x ∉ s) → r.change s = s
  line : ∀ p, r.place p → r.SameLine p
  lead : ∀ p, r.place p → p < r.old.length → leadOf (r.new.take (r.move p)) = leadOf (r.old.take p)
  step : ∀ p b s, r.place p → r.old.drop p = b :: s →
    (∃ s', r.Steps p b s s') ∨ b = Byte.lineFeed ∧ r.Feeds p

end Revision

/-- What follows a step is what is left of the source behind it. -/
theorem drop_of_step {src s : Bytes} {p k : Nat} {b : UInt8} (hs : src.drop p = b :: s) (hk : 0 < k) :
    s.drop (k - 1) = src.drop (p + k) := by
  rw [← List.drop_drop, hs, List.drop_cons hk]

theorem drop_succ_of_drop {src s : Bytes} {p : Nat} {b : UInt8} (hs : src.drop p = b :: s) :
    src.drop (p + 1) = s :=
  (drop_of_step hs Nat.one_pos).symm

namespace Revision

variable {r : Revision}

/-- Tokens that are no literals only have to end at counterparts. -/
theorem TokensAlike.of_ne {p n n' : Nat} {b : UInt8} {s s' : Bytes} {kind : TokenKind}
    (hspans : r.Spans p n n') (hquoted : kind ≠ .quoted) (hnumber : kind ≠ .number) :
    r.TokensAlike p b s s' ⟨kind, n⟩ ⟨kind, n'⟩ := by
  refine ⟨rfl, hspans, ?_⟩
  rintro (hliteral | hliteral)
  · exact (hquoted hliteral).elim
  · exact (hnumber hliteral).elim

/-- An error seen from further left. -/
theorem Moved.shift {q n n' : Nat} {e e' : Unclosed} (hmove : r.move (q + n) = r.move q + n')
    (h : r.Moved (q + n) e e') : r.Moved q (e.shift n) (e'.shift n') := by
  have hadd : q + (e.shift n).offset = q + n + e.offset := by
    simp only [Unclosed.shift]
    omega
  refine ⟨h.construct, ?_, ?_⟩
  · rw [hadd, h.offset, hmove]
    simp only [Unclosed.shift]
    omega
  · rw [hadd]
    exact h.line

/-- Two stretches in a row are one. -/
theorem Spans.trans {q n n' k k' : Nat} (h : r.Spans q n n') (h' : r.Spans (q + n) k k') :
    r.Spans q (n + k) (n' + k') := by
  refine ⟨?_, ?_⟩
  · rw [← Nat.add_assoc]
    exact h'.place
  · rw [← Nat.add_assoc, h'.move, h.move, Nat.add_assoc]

namespace Harmless

/-! ## Places -/

theorem stops_subset_stops (h : r.Harmless) : r.stops ⊆ Byte.stops := fun x hx => by
  have hsub : [Byte.slash, Byte.lineFeed, Byte.carriageReturn] ⊆ Byte.stops := by decide
  exact hsub (h.stops_subset hx)

/-- A class that leaves out the bytes at which texts may part has none of them. -/
theorem notMem_stops (h : r.Harmless) {p : UInt8 → Bool} {b : UInt8} (hb : p b = true)
    (hp : [Byte.slash, Byte.lineFeed, Byte.carriageReturn].any p = false) : b ∉ r.stops :=
  fun hmem => Byte.notMem_of_class hp hb (h.stops_subset hmem)

theorem move_lt_iff (h : r.Harmless) {p q : Nat} : r.move p < r.move q ↔ p < q := by
  constructor
  · intro hlt
    rcases Nat.lt_trichotomy p q with hpq | rfl | hqp
    · exact hpq
    · exact absurd hlt (Nat.lt_irrefl _)
    · exact absurd (h.move_lt q p hqp) (Nat.lt_asymm hlt)
  · exact h.move_lt p q

theorem move_le_iff (h : r.Harmless) {p q : Nat} : r.move p ≤ r.move q ↔ p ≤ q := by
  rw [← Nat.not_lt, h.move_lt_iff, Nat.not_lt]

/-- Where the text ends the revised one does. -/
theorem drop_eq_nil (h : r.Harmless) {p : Nat} (hs : r.old.drop p = []) :
    r.new.drop (r.move p) = [] := by
  rw [List.drop_eq_nil_iff] at hs ⊢
  rw [← h.move_length]
  exact h.move_le_iff.2 hs

/-- A stretch holds as many line ends as its counterpart. -/
theorem newlines_take (h : r.Harmless) {p n n' : Nat} (hp : r.place p) (hspans : r.Spans p n n') :
    newlines ((r.new.drop (r.move p)).take n') = newlines ((r.old.drop p).take n) := by
  have hline := h.line p hp
  have hend := h.line (p + n) hspans.place
  rw [SameLine] at hline hend
  rw [hspans.move, List.take_add, List.take_add, newlines_append, newlines_append] at hend
  omega

/-- A byte that is no line feed and begins neither a comment nor a literal is a byte of both texts. -/
theorem next (h : r.Harmless) {p : Nat} {b : UInt8} {s : Bytes} (hp : r.place p)
    (hs : r.old.drop p = b :: s) (hfeed : b ≠ Byte.lineFeed) (hslash : b ≠ Byte.slash)
    (hquote : Byte.isQuote b = false) : ∃ s', r.Steps p b s s' ∧ r.Spans p 1 1 := by
  rcases h.step p b s hp hs with ⟨s', hsteps⟩ | ⟨hb, -⟩
  · have hlength := hsteps.length
    rw [stepLength_of_ne hslash hquote, stepLength_of_ne hslash hquote] at hlength
    cases hlength with
    | ok hspans => exact ⟨s', hsteps, hspans⟩
  · exact absurd hb hfeed

/-- Plain bytes have themselves for a counterpart. -/
theorem plain (h : r.Harmless) {p n : Nat} (hp : r.place p) (hn : n ≤ (r.old.drop p).length)
    (hplain : Plain ((r.old.drop p).take n)) : r.Spans p n n := by
  induction n generalizing p with
  | zero => exact ⟨hp, rfl⟩
  | succ n ih =>
    cases hs : r.old.drop p with
    | nil =>
      rw [hs] at hn
      exact absurd hn (Nat.not_succ_le_zero n)
    | cons b s =>
      rw [hs, List.take_succ_cons, plain_cons] at hplain
      rw [hs, List.length_cons] at hn
      have hmark : ∀ m ∈ Byte.marks, b ≠ m := fun m hm heq => hplain.1 (heq ▸ hm)
      have hquote : Byte.isQuote b = false := by
        rw [Byte.isQuote, Bool.or_eq_false_iff, beq_eq_false_iff_ne, beq_eq_false_iff_ne]
        exact ⟨hmark _ (by decide), hmark _ (by decide)⟩
      obtain ⟨-, -, hspans⟩ :=
        h.next hp hs (hmark _ (by decide)) (hmark _ (by decide)) hquote
      have hrest : r.old.drop (p + 1) = s := (drop_of_step hs Nat.one_pos).symm
      rw [Nat.add_comm n 1]
      refine hspans.trans (ih hspans.place ?_ ?_)
      · rw [hrest]
        exact Nat.le_of_succ_le_succ hn
      · rw [hrest]
        exact hplain.2

/-! ## Blocks -/

/-- **A block ends where its counterpart does**, or neither is closed.  `n` bytes of the block that
    begins at `q` have been passed. -/
theorem blockFrom (h : r.Harmless) {q n n' : Nat} (depth : Nat) (hq : r.place q)
    (hspans : r.Spans q n n') :
    r.Alike q (r.Spans q) (blockFrom depth n (r.old.drop (q + n)))
      (MagicNumbers.blockFrom depth n' (r.new.drop (r.move (q + n)))) := by
  generalize hs : r.old.drop (q + n) = s
  fun_induction MagicNumbers.blockFrom depth n s generalizing n' with
  | case1 depth n =>
    rw [h.drop_eq_nil hs, MagicNumbers.blockFrom]
    exact .error ⟨rfl, rfl, h.line q hq⟩
  | case2 depth n s ih =>
    obtain ⟨s', hsteps, hone⟩ := h.next hspans.place hs (by decide) (by decide) (by decide)
    have hnext := ih (hspans.trans hone) (drop_succ_of_drop hs)
    rw [← Nat.add_assoc, hone.move, drop_succ_of_drop hsteps.rest] at hnext
    rw [hsteps.rest, blockFrom_openBrace]
    exact hnext
  | case3 n s =>
    obtain ⟨s', hsteps, hone⟩ := h.next hspans.place hs (by decide) (by decide) (by decide)
    rw [hsteps.rest, blockFrom_closeBrace_zero]
    exact .ok (hspans.trans hone)
  | case4 n s _ depth ih =>
    obtain ⟨s', hsteps, hone⟩ := h.next hspans.place hs (by decide) (by decide) (by decide)
    have hnext := ih (hspans.trans hone) (drop_succ_of_drop hs)
    rw [← Nat.add_assoc, hone.move, drop_succ_of_drop hsteps.rest] at hnext
    rw [hsteps.rest, blockFrom_closeBrace_succ]
    exact hnext
  | case5 depth n b s hopen hclose k hk ih =>
    have hdrop : r.old.drop (q + (n + k)) = s.drop (k - 1) := by
      rw [drop_of_step hs (stepLength_pos hk), Nat.add_assoc]
    rcases h.step _ b s hspans.place hs with ⟨s', hsteps⟩ | ⟨rfl, hfeeds⟩
    · have hlength := hsteps.length
      rw [hk] at hlength
      rw [hsteps.rest, blockFrom_step hopen hclose]
      generalize hk' : stepLength b s' = x at hlength
      cases hlength with
      | @ok _ k' hstep =>
        have hnext := ih (hspans.trans hstep) hdrop
        rw [← Nat.add_assoc, hstep.move, ← drop_of_step hsteps.rest (stepLength_pos hk')] at hnext
        exact hnext
    · -- the carriage return is passed by a step of its own
      cases hk
      have hnext := ih (hspans.trans hfeeds.spans) hdrop
      rw [← Nat.add_assoc, hfeeds.spans.move] at hnext
      rw [hfeeds.rest, blockFrom_step (by decide) (by decide),
        stepLength_of_ne (by decide) (by decide)]
      simp only [Nat.sub_self, List.drop_zero]
      rw [blockFrom_step (by decide) (by decide), stepLength_of_ne (by decide) (by decide)]
      exact hnext
  | case6 depth n b s hopen hclose e he =>
    rcases h.step _ b s hspans.place hs with ⟨s', hsteps⟩ | ⟨rfl, -⟩
    · have hlength := hsteps.length
      rw [he] at hlength
      rw [hsteps.rest, blockFrom_step hopen hclose]
      generalize stepLength b s' = x at hlength
      cases hlength with
      | error hmoved => exact .error (hmoved.shift hspans.move)
    · cases he

/-- So with the length of a block. -/
theorem blockLength (h : r.Harmless) {p : Nat} {b : UInt8} {s s' : Bytes} (hp : r.place p)
    (hs : r.old.drop p = b :: s) (hsteps : r.Steps p b s s') (hone : r.Spans p 1 1) :
    r.Alike p (r.Spans p) (blockLength (b :: s)) (MagicNumbers.blockLength (b :: s')) := by
  have hblock := h.blockFrom 0 hp hone
  rw [hone.move, drop_succ_of_drop hs, drop_succ_of_drop hsteps.rest] at hblock
  exact hblock

/-! ## Tokens -/

/-- **The counterpart of a token is a token like it.** -/
theorem token (h : r.Harmless) {p : Nat} {b : UInt8} {s s' : Bytes} {lead : Option UInt8} {t : Token}
    (hp : r.place p) (hs : r.old.drop p = b :: s) (hsteps : r.Steps p b s s')
    (ht : Token.read lead b s = .ok t) :
    ∃ t', Token.read lead b s' = .ok t' ∧ r.TokensAlike p b s s' t t' := by
  have hlength := hsteps.length
  cases Token.reads_of_read ht with
  | @comment n hb hn =>
    rw [stepLength, stepLength, if_pos hb, if_pos hb, hn] at hlength
    generalize hn' : commentLength (b :: s') = x at hlength
    cases hlength with
    | ok hspans =>
      exact ⟨_, (Token.Reads.comment hb hn').read, TokensAlike.of_ne hspans (by decide) (by decide)⟩
  | @block n hb hn =>
    rw [stepLength_of_ne (by rw [hb]; decide) (by rw [hb]; decide),
      stepLength_of_ne (by rw [hb]; decide) (by rw [hb]; decide)] at hlength
    cases hlength with
    | ok hone =>
      have hblock := h.blockLength hp hs hsteps hone
      rw [hn] at hblock
      generalize hn' : MagicNumbers.blockLength (b :: s') = x at hblock
      cases hblock with
      | ok hspans =>
        exact ⟨_, (Token.Reads.block hb hn').read, TokensAlike.of_ne hspans (by decide) (by decide)⟩
  | semicolon hb =>
    rw [stepLength_of_ne (by rw [hb]; decide) (by rw [hb]; decide),
      stepLength_of_ne (by rw [hb]; decide) (by rw [hb]; decide)] at hlength
    cases hlength with
    | ok hspans =>
      exact ⟨_, (Token.Reads.semicolon hb).read, TokensAlike.of_ne hspans (by decide) (by decide)⟩
  | @quoted n hb hn =>
    have hslash : b ≠ Byte.slash := Byte.ne_of_class hb (by decide)
    have hstep : ∀ s, stepLength b s = quotedLength (b :: s) := fun s => by
      rw [stepLength, if_neg hslash, if_pos hb]
    rw [hstep, hstep, hn] at hlength
    generalize hn' : quotedLength (b :: s') = x at hlength
    cases hlength with
    | ok hspans =>
      refine ⟨_, (Token.Reads.quoted hb hn').read, rfl, hspans, fun _ => ?_⟩
      exact hsteps.quoted hb _ _ (by rw [hstep, hn]) (by rw [hstep, hn'])
  | name hb hname =>
    have hagree := hsteps.agree (Byte.ne_of_class hb (by decide))
    have hname' := hname
    rw [← hagree.isSentinel_eq h.stops_subset_stops] at hname'
    refine ⟨_, (Token.Reads.name hb hname').read, TokensAlike.of_ne ?_ (by decide) (by decide)⟩
    show r.Spans p (nameLength s) (nameLength s')
    rw [hagree.nameLength_eq h.stops_subset_stops]
    refine h.plain hp ?_ ?_
    · rw [hs]
      exact nameLength_le s
    · rw [hs]
      exact plain_nameLength hb s
  | number hb hname =>
    have hagree := hsteps.agree (Byte.ne_of_class hb (by decide))
    have hname' := hname
    rw [← hagree.isSentinel_eq h.stops_subset_stops] at hname'
    refine ⟨_, (Token.Reads.number hb hname').read, rfl, ?_, fun _ => ?_⟩
    · show r.Spans p (numberLength b s) (numberLength b s')
      rw [hagree.numberLength_eq h.stops_subset_stops]
      refine h.plain hp ?_ ?_
      · rw [hs]
        exact numberLength_le b s
      · rw [hs]
        exact plain_numberLength hb s
    · show (b :: s').take (numberLength b s') = r.change ((b :: s).take (numberLength b s))
      rw [hagree.take_numberLength h.stops_subset_stops, h.change_eq]
      intro x hx hmem
      exact h.notMem_stops (isLiteralByte_of_mem_number hb s x hmem) (by decide) hx
  | other hslash hbrace hsemi hquote hdigit =>
    rw [stepLength_of_ne hslash hquote, stepLength_of_ne hslash hquote] at hlength
    cases hlength with
    | ok hspans =>
      exact ⟨_, (Token.Reads.other hslash hbrace hsemi hquote hdigit).read,
        TokensAlike.of_ne hspans (by decide) (by decide)⟩

/-! ## Skimming -/

/-- A block or a lexical step ends where its counterpart does, or neither is closed. -/
theorem blockOrStep (h : r.Harmless) {p : Nat} {b : UInt8} {s s' : Bytes} (hp : r.place p)
    (hs : r.old.drop p = b :: s) (hsteps : r.Steps p b s s') :
    r.Alike p (r.Spans p)
      (if b = Byte.openBrace then MagicNumbers.blockLength (b :: s) else stepLength b s)
      (if b = Byte.openBrace then MagicNumbers.blockLength (b :: s') else stepLength b s') := by
  have hlength := hsteps.length
  by_cases hb : b = Byte.openBrace
  · rw [stepLength_of_ne (by rw [hb]; decide) (by rw [hb]; decide),
      stepLength_of_ne (by rw [hb]; decide) (by rw [hb]; decide)] at hlength
    rw [if_pos hb, if_pos hb]
    cases hlength with
    | ok hone => exact h.blockLength hp hs hsteps hone
  · rw [if_neg hb, if_neg hb]
    exact hlength

/-- **Skimming comes to the end of both texts, or fails in both where the same construct opens.** -/
theorem skimFrom (h : r.Harmless) {p : Nat} (hp : r.place p) :
    r.Alike 0 (fun _ _ => True) (skimFrom p (r.old.drop p))
      (MagicNumbers.skimFrom (r.move p) (r.new.drop (r.move p))) := by
  generalize hs : r.old.drop p = s
  fun_induction MagicNumbers.skimFrom p s with
  | case1 p =>
    rw [h.drop_eq_nil hs, MagicNumbers.skimFrom]
    exact .ok trivial
  | case2 p b s k hk ih =>
    rw [dite_eq_ite] at hk
    have hpos : 0 < k := by
      split at hk
      · exact Nat.zero_lt_of_lt (blockLength_bounds hk).1
      · exact stepLength_pos hk
    have hdrop : r.old.drop (p + k) = s.drop (k - 1) := (drop_of_step hs hpos).symm
    rcases h.step p b s hp hs with ⟨s', hsteps⟩ | ⟨rfl, hfeeds⟩
    · have hlength := h.blockOrStep hp hs hsteps
      rw [hk] at hlength
      rw [hsteps.rest, MagicNumbers.skimFrom]
      generalize hk' : (if b = Byte.openBrace then MagicNumbers.blockLength (b :: s')
        else stepLength b s') = x at hlength
      cases hlength with
      | @ok _ k' hspans =>
        have hpos' : 0 < k' := by
          have hlt := h.move_lt p (p + k) (by omega)
          have hmove := hspans.move
          omega
        have hnext := ih hspans.place hdrop
        rw [hspans.move, ← drop_of_step hsteps.rest hpos'] at hnext
        exact hnext
    · rw [if_neg (by decide), stepLength_of_ne (by decide) (by decide)] at hk
      cases hk
      have hnext := ih hfeeds.spans.place hdrop
      rw [hfeeds.spans.move] at hnext
      rw [hfeeds.rest, MagicNumbers.skimFrom, if_neg (by decide),
        stepLength_of_ne (by decide) (by decide)]
      simp only [Nat.sub_self, List.drop_zero]
      rw [MagicNumbers.skimFrom, if_neg (by decide), stepLength_of_ne (by decide) (by decide)]
      exact hnext
  | case3 p b s e he =>
    rw [dite_eq_ite] at he
    rcases h.step p b s hp hs with ⟨s', hsteps⟩ | ⟨rfl, -⟩
    · have hlength := h.blockOrStep hp hs hsteps
      rw [he] at hlength
      rw [hsteps.rest, MagicNumbers.skimFrom]
      generalize (if b = Byte.openBrace then MagicNumbers.blockLength (b :: s')
        else stepLength b s') = x at hlength
      cases hlength with
      | error hmoved =>
        have hzero : r.move (0 + p) = r.move 0 + r.move p := by
          rw [h.move_zero, Nat.zero_add, Nat.zero_add]
        rw [← Nat.zero_add p] at hmoved
        exact .error (hmoved.shift hzero)
    · rw [if_neg (by decide), stepLength_of_ne (by decide) (by decide)] at he
      cases he

/-- An error that is placed in the text has its counterpart in the revised one. -/
theorem inSource (h : r.Harmless) {e e' : Unclosed} (hmoved : r.Moved 0 e e') :
    e'.inSource r.new =
      { e.inSource r.old with offset := r.move (e.inSource r.old).offset } := by
  have hoffset := hmoved.offset
  have hline := hmoved.line
  rw [SameLine] at hline
  rw [h.move_zero, Nat.zero_add, Nat.zero_add] at hoffset
  have hmin : min e'.offset r.new.length = r.move (min e.offset r.old.length) := by
    rw [← hoffset, ← h.move_length]
    rcases Nat.le_total e.offset r.old.length with hle | hle
    · rw [Nat.min_eq_left hle, Nat.min_eq_left (h.move_le_iff.2 hle)]
    · rw [Nat.min_eq_right hle, Nat.min_eq_right (h.move_le_iff.2 hle)]
  rw [Nat.zero_add, hoffset, List.take_eq_take_min, hmin, List.take_eq_take_min (l := r.old)] at hline
  simp only [Unclosed.inSource, Malformed.ofSource, hmin, hmoved.construct, hline]

/-- So it is with skimming whole texts. -/
theorem skim (h : r.Harmless) :
    (skim r.old = .ok () ∧ MagicNumbers.skim r.new = .ok ()) ∨
    ∃ e, MagicNumbers.skim r.old = .error e ∧
      MagicNumbers.skim r.new = .error { e with offset := r.move e.offset } := by
  have hskim := h.skimFrom h.place_zero
  rw [h.move_zero, List.drop_zero, List.drop_zero] at hskim
  rw [MagicNumbers.skim, MagicNumbers.skim]
  generalize MagicNumbers.skimFrom 0 r.old = x at hskim ⊢
  generalize MagicNumbers.skimFrom 0 r.new = x' at hskim ⊢
  cases hskim with
  | ok => exact .inl ⟨rfl, rfl⟩
  | @error e e' hmoved => exact .inr ⟨_, rfl, congrArg Except.error (h.inSource hmoved)⟩

end Harmless

end Revision

end MagicNumbers
