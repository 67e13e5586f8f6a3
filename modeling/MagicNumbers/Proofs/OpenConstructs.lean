/-
  What a failed scan says of its source.

  A failure may come from a comment, from a comment in a literal, from a literal or a comment in a block
  in a block, or from a brace: the construct that it names is the innermost one, or for braces the
  outermost.  Here all of these are followed to the place that is reported.

  * `depthAt` — how many blocks are open at an offset, as a walk from the start of the source counts them.
  * `Construct.StaysOpen`, `Meets` — what it means that a construct is never closed, and that it is opened
    where a walk comes to it.
  * `stepFails_or_braceFails_of_skimFrom` — skimming fails for a lexical step, or for a brace at depth
    zero.
  * `scan_error_truthful` — so the failure of a scan is as the source has it.
-/
import MagicNumbers.Proofs.BlockGrammar
import MagicNumbers.Proofs.Failure
import MagicNumbers.Proofs.LiteralGrammar
import MagicNumbers.Proofs.Ranges

namespace MagicNumbers

/-! ## Depth -/

/-- The number of open blocks at the offset `target`, if a walk comes to it: `n` bytes have been passed,
    `depth` blocks are open, and `s` follows.  Comments and literals are passed as wholes.  A brace that
    closes nothing leaves the depth at zero. -/
def depthFrom (target depth n : Nat) (s : Bytes) : Option Nat :=
  if n = target then some depth
  else
    match s with
    | [] => none
    | b :: s =>
      if b = Byte.openBrace then depthFrom target (depth + 1) (n + 1) s
      else if b = Byte.closeBrace then depthFrom target (depth - 1) (n + 1) s
      else
        match stepLength b s with
        | .ok k => depthFrom target depth (n + k) (s.drop (k - 1))
        | .error _ => none
termination_by s.length
decreasing_by all_goals (simp only [List.length_cons, List.length_drop]; omega)

/-- The number of blocks that are open at an offset of a source. -/
def depthAt (src : Bytes) (pos : Nat) : Option Nat := depthFrom pos 0 0 src

theorem depthFrom_self (depth n : Nat) (s : Bytes) : depthFrom n depth n s = some depth := by
  rw [depthFrom.eq_def, if_pos rfl]

section

variable {target n : Nat} (hne : n ≠ target) (depth : Nat) (s : Bytes)
include hne

theorem depthFrom_openBrace :
    depthFrom target depth n (Byte.openBrace :: s) = depthFrom target (depth + 1) (n + 1) s := by
  rw [depthFrom, if_neg hne, if_pos rfl]

theorem depthFrom_closeBrace :
    depthFrom target depth n (Byte.closeBrace :: s) = depthFrom target (depth - 1) (n + 1) s := by
  rw [depthFrom, if_neg hne, if_neg (by decide), if_pos rfl]

/-- A lexical step leaves the depth as it is. -/
theorem depthFrom_step {b : UInt8} {k : Nat} (hopen : b ≠ Byte.openBrace) (hclose : b ≠ Byte.closeBrace)
    (hk : stepLength b s = .ok k) :
    depthFrom target depth n (b :: s) = depthFrom target depth (n + k) (s.drop (k - 1)) := by
  rw [depthFrom, if_neg hne, if_neg hopen, if_neg hclose, hk]

end

/-- Where the walk starts from does not matter for how deep it gets. -/
theorem depthFrom_add_offset (target depth n j : Nat) (s : Bytes) :
    depthFrom (target + j) depth (n + j) s = depthFrom target depth n s := by
  fun_induction depthFrom target depth n s with
  | case1 depth s => exact depthFrom_self depth _ s
  | case2 depth n hne => rw [depthFrom, if_neg (by omega)]
  | case3 depth n hne s ih => rw [depthFrom_openBrace (by omega), Nat.add_right_comm, ih]
  | case4 depth n hne s _ ih => rw [depthFrom_closeBrace (by omega), Nat.add_right_comm, ih]
  | case5 depth n hne b s hopen hclose k hk ih =>
    rw [depthFrom_step (by omega) depth s hopen hclose hk, Nat.add_right_comm, ih]
  | case6 depth n hne b s hopen hclose e he =>
    rw [depthFrom, if_neg (by omega), if_neg hopen, if_neg hclose, he]

/-- **A block leaves the depth as it is**: behind the braces that close it and the blocks open in it, as
    many are open as around it. -/
theorem depthFrom_of_blockFrom {depth n m : Nat} {s : Bytes} (h : blockFrom depth n s = .ok m)
    {target : Nat} (hm : m ≤ target) (outer : Nat) :
    depthFrom target (outer + depth + 1) n s = depthFrom target outer m (s.drop (m - n)) := by
  fun_induction blockFrom depth n s with
  | case1 => cases h
  | case2 depth n s ih =>
    have hlt := (blockFrom_bounds h).1
    rw [depthFrom_openBrace (by omega), show outer + depth + 1 + 1 = outer + (depth + 1) + 1 by omega,
      ih h, show m - n = m - (n + 1) + 1 by omega, List.drop_succ_cons]
  | case3 n s =>
    cases h
    rw [depthFrom_closeBrace (by omega), show n + 1 - n = 0 + 1 by omega, List.drop_succ_cons,
      List.drop_zero]
    rfl
  | case4 n s depth _ ih =>
    have hlt := (blockFrom_bounds h).1
    rw [depthFrom_closeBrace (by omega), show outer + (depth + 1) + 1 - 1 = outer + depth + 1 by omega,
      ih h, show m - n = m - (n + 1) + 1 by omega, List.drop_succ_cons]
  | case5 depth n b s hopen hclose k hk ih =>
    have hpos := stepLength_pos hk
    have hlt := (blockFrom_bounds h).1
    rw [depthFrom_step (by omega) _ _ hopen hclose hk, ih h, List.drop_drop,
      show m - n = k - 1 + (m - (n + k)) + 1 by omega, List.drop_succ_cons]
  | case6 => cases h

/-- What skimming passes leaves the depth at zero: a block, a lexical step, or a brace that closes
    nothing. -/
theorem depthFrom_of_skimmed {target n k : Nat} {b : UInt8} {s : Bytes}
    (hk : (if b = Byte.openBrace then blockLength (b :: s) else stepLength b s) = .ok k)
    (hle : n + k ≤ target) :
    depthFrom target 0 n (b :: s) = depthFrom target 0 (n + k) (s.drop (k - 1)) := by
  by_cases hopen : b = Byte.openBrace
  · subst hopen
    rw [if_pos rfl] at hk
    have hpos := (blockLength_bounds hk).1
    have hblock : blockFrom 0 (1 + n) s = .ok (k + n) := (blockFrom_add_offset 0 1 n s).2 hk
    rw [Nat.add_comm 1 n, Nat.add_comm k n] at hblock
    rw [depthFrom_openBrace (by omega), depthFrom_of_blockFrom hblock hle 0,
      show n + k - (n + 1) = k - 1 by omega]
  · rw [if_neg hopen] at hk
    have hpos := stepLength_pos hk
    by_cases hclose : b = Byte.closeBrace
    · subst hclose
      cases hk
      rw [depthFrom_closeBrace (by omega)]
      rfl
    · exact depthFrom_step (by omega) 0 s hopen hclose hk

/-! ## Where skimming fails -/

/-- A walk through a text, with `n` bytes before it and `depth` blocks open, comes to a lexical step that
    fails, and this is its failure. -/
def StepFails (depth n : Nat) (s : Bytes) (e : Unclosed) : Prop :=
  ∃ front b after u, s = front ++ b :: after ∧ stepLength b after = .error u ∧
    e = u.shift (n + front.length) ∧ (depthFrom (n + front.length) depth n s).isSome = true

/-- A step that fails here. -/
theorem StepFails.here {b : UInt8} {s : Bytes} {u : Unclosed} (h : stepLength b s = .error u)
    (depth n : Nat) : StepFails depth n (b :: s) (u.shift n) := by
  refine ⟨[], b, s, u, rfl, h, rfl, ?_⟩
  show (depthFrom n depth n (b :: s)).isSome = true
  rw [depthFrom_self]
  rfl

/-- A step that fails further on, if the walk goes on there. -/
theorem StepFails.of_drop {depth depth' n k : Nat} {s : Bytes} {e : Unclosed} (hk : k ≤ s.length)
    (hpass : ∀ target, n + k ≤ target →
      depthFrom target depth n s = depthFrom target depth' (n + k) (s.drop k))
    (h : StepFails depth' (n + k) (s.drop k) e) : StepFails depth n s e := by
  obtain ⟨front, b, after, u, hs, hu, rfl, hdepth⟩ := h
  have hlen : n + (s.take k ++ front).length = n + k + front.length := by
    rw [List.length_append, List.length_take, Nat.min_eq_left hk, Nat.add_assoc]
  refine ⟨s.take k ++ front, b, after, u, ?_, hu, ?_, ?_⟩
  · rw [List.append_assoc, ← hs, List.take_append_drop]
  · rw [hlen]
  · rw [hlen, hpass _ (Nat.le_add_right _ _)]
    exact hdepth

/-- The same failure seen from further left. -/
theorem StepFails.shift {depth m : Nat} {s : Bytes} {e : Unclosed} (h : StepFails depth m s e) (n : Nat) :
    StepFails depth (m + n) s (e.shift n) := by
  obtain ⟨front, b, after, u, hs, hu, rfl, hdepth⟩ := h
  have hlen : m + n + front.length = m + front.length + n := Nat.add_right_comm _ _ _
  refine ⟨front, b, after, u, hs, hu, ?_, ?_⟩
  · rw [Unclosed.shift_shift, hlen]
  · rw [hlen, depthFrom_add_offset]
    exact hdepth

/-- **A block fails for its brace, or for a lexical step inside it**, however deep that is. -/
theorem stepFails_of_blockFrom {depth n : Nat} {s : Bytes} {e : Unclosed}
    (h : blockFrom depth n s = .error e) (outer : Nat) :
    e = ⟨.brace, 0⟩ ∨ StepFails (outer + depth + 1) n s e := by
  fun_induction blockFrom depth n s with
  | case1 =>
    cases h
    exact .inl rfl
  | case2 depth n s ih =>
    refine (ih h).imp_right (StepFails.of_drop (k := 1) (Nat.le_add_left 1 _) ?_)
    intro target hle
    exact depthFrom_openBrace (by omega) _ s
  | case3 => cases h
  | case4 n s depth _ ih =>
    refine (ih h).imp_right (StepFails.of_drop (k := 1) (Nat.le_add_left 1 _) ?_)
    intro target hle
    exact depthFrom_closeBrace (by omega) _ s
  | case5 depth n b s hopen hclose k hk ih =>
    have hpos := stepLength_pos hk
    have hdrop : s.drop (k - 1) = (b :: s).drop k := (List.drop_cons hpos).symm
    rw [hdrop] at ih h
    refine (ih h).imp_right (StepFails.of_drop (stepLength_le hk) ?_)
    intro target hle
    rw [← hdrop]
    exact depthFrom_step (by omega) _ s hopen hclose hk
  | case6 depth n b s hopen hclose e' he =>
    cases h
    exact .inr (.here he _ n)

/-- A brace at depth zero opens a block that is not closed. -/
def BraceFails (n : Nat) (s : Bytes) (e : Unclosed) : Prop :=
  ∃ front after, s = front ++ Byte.openBrace :: after ∧
    blockLength (Byte.openBrace :: after) = .error ⟨.brace, 0⟩ ∧ e = ⟨.brace, n + front.length⟩ ∧
    depthFrom (n + front.length) 0 n s = some 0

/-- **Skimming fails for a lexical step, or for a brace at depth zero whose block is not closed.** -/
theorem stepFails_or_braceFails_of_skimFrom {n : Nat} {s : Bytes} {e : Unclosed}
    (h : skimFrom n s = .error e) : StepFails 0 n s e ∨ BraceFails n s e := by
  fun_induction skimFrom n s with
  | case1 => cases h
  | case2 n b s k hk ih =>
    rw [dite_eq_ite] at hk
    have hbounds : 0 < k ∧ k ≤ s.length + 1 := by
      split at hk
      · have hbounds := blockLength_bounds hk
        omega
      · exact ⟨stepLength_pos hk, stepLength_le hk⟩
    have hdrop : s.drop (k - 1) = (b :: s).drop k := (List.drop_cons hbounds.1).symm
    rcases ih h with hstep | ⟨front, after, hs, hafter, rfl, hdepth⟩
    · refine .inl (.of_drop hbounds.2 ?_ (hdrop ▸ hstep))
      intro target hle
      rw [← hdrop]
      exact depthFrom_of_skimmed hk hle
    · have hlen : ((b :: s).take k ++ front).length = k + front.length := by
        rw [List.length_append, List.length_take_of_le hbounds.2]
      refine .inr ⟨(b :: s).take k ++ front, after, ?_, hafter, ?_, ?_⟩
      · rw [List.append_assoc, ← hs, hdrop, List.take_append_drop]
      · rw [hlen, Nat.add_assoc]
      · rw [hlen, ← Nat.add_assoc, depthFrom_of_skimmed hk (Nat.le_add_right _ _)]
        exact hdepth
  | case3 n b s e' he =>
    cases h
    rw [dite_eq_ite] at he
    by_cases hopen : b = Byte.openBrace
    · subst hopen
      rw [if_pos rfl] at he
      rcases stepFails_of_blockFrom he 0 with rfl | hstep
      · refine .inr ⟨[], s, rfl, he, ?_, depthFrom_self 0 n _⟩
        show Unclosed.mk .brace (0 + n) = ⟨.brace, n⟩
        rw [Nat.zero_add]
      · have hinside := hstep.shift n
        rw [Nat.add_comm 1 n] at hinside
        refine .inl (.of_drop (k := 1) (Nat.le_add_left 1 _) ?_ hinside)
        intro target hle
        exact depthFrom_openBrace (by omega) 0 s
    · rw [if_neg hopen] at he
      exact .inl (.here he 0 n)

/-! ## What is never closed -/

/-- The construct that is opened at an offset of the source is never closed.  Behind the opener of a
    comment no closer begins.  A literal goes on to the end of the source, and each comment in it is
    closed.  So does a block, with each comment and each literal in it closed; and no block is open
    around it. -/
def Construct.StaysOpen (src : Bytes) (pos : Nat) : Construct → Prop
  | .blockComment => CommentLeftOpen src pos
  | .stringLiteral => LiteralLeftOpen src Byte.doubleQuote pos
  | .charLiteral => LiteralLeftOpen src Byte.singleQuote pos
  | .brace => LeftOpen src (pos + 1) ∧ depthAt src pos = some 0

/-- A walk from the start of the source comes to an offset, or to a literal that holds a comment there
    which is left open. -/
inductive Meets (src : Bytes) (pos : Nat) : Prop
  | here (h : (depthAt src pos).isSome = true) : Meets src pos
  | inside {quote : UInt8} {place : Nat} (h : (depthAt src place).isSome = true)
      (hb : src[place]? = some quote) (hquote : Byte.isQuote quote = true)
      (hholds : HoldsOpenComment src quote place pos) : Meets src pos

/-- What a failure says of a source is so. -/
structure Malformed.Truthful (src : Bytes) (e : Malformed) : Prop where
  lt_length : e.offset < src.length
  line_eq : e.line = 1 + newlines (src.take e.offset)
  opener : e.construct.opener <+: src.drop e.offset
  meets : Meets src e.offset
  stays_open : e.construct.StaysOpen src e.offset

/-- A failure is truthful if its construct is opened where it says, and never closed. -/
theorem Malformed.truthful_ofSource {src : Bytes} {construct : Construct} {pos : Nat}
    (hopener : construct.opener <+: src.drop pos) (hmeets : Meets src pos)
    (hopen : construct.StaysOpen src pos) : Truthful src (.ofSource src construct pos) := by
  have hlt : pos < src.length := by
    have hle := hopener.length_le
    have hpos : 0 < construct.opener.length := by cases construct <;> decide
    rw [List.length_drop] at hle
    omega
  have hmin : min pos src.length = pos := Nat.min_eq_left (Nat.le_of_lt hlt)
  refine ⟨?_, Nat.add_comm _ 1, ?_, ?_, ?_⟩
  · show min pos src.length < src.length
    rw [hmin]
    exact hlt
  · show construct.opener <+: src.drop (min pos src.length)
    rw [hmin]
    exact hopener
  · show Meets src (min pos src.length)
    rw [hmin]
    exact hmeets
  · show construct.StaysOpen src (min pos src.length)
    rw [hmin]
    exact hopen

/-- A comment fails for itself, if it is left open. -/
theorem commentLeftOpen_of_commentExtent {src : Bytes} {pos : Nat} {e : Malformed} {lines : Bool}
    (hb : src[pos]? = some Byte.slash) (he : commentExtent src pos lines = .error e) :
    CommentLeftOpen src pos ∧ e = .ofSource src .blockComment pos := by
  obtain ⟨u, hu, rfl⟩ := map_locate_eq_error_iff.1 he
  rw [drop_of_getElem? hb] at hu
  obtain ⟨rfl, text, htext, hcloser⟩ := commentLength_eq_error_iff.1 hu
  refine ⟨commentLeftOpen_iff.2 ⟨text, ?_, hcloser⟩, ?_⟩
  · rw [drop_of_getElem? hb, htext]
  · show Malformed.ofSource src .blockComment (0 + pos) = _
    rw [Nat.zero_add]

/-- A literal that is left open is a construct that stays open, and its quote opens it. -/
theorem LiteralLeftOpen.staysOpen {src : Bytes} {quote : UInt8} {pos : Nat}
    (h : LiteralLeftOpen src quote pos) (hq : Byte.isQuote quote = true) :
    (Construct.ofQuote quote).opener = [quote] ∧ (Construct.ofQuote quote).StaysOpen src pos := by
  rcases Byte.eq_of_isQuote hq with rfl | rfl
  · exact ⟨rfl, h⟩
  · exact ⟨rfl, h⟩

/-- **What a lexical step fails for is never closed**, whether it begins there or is a comment inside a
    literal that does. -/
theorem UnclosedAt.truthful {src : Bytes} {pos : Nat} {e : Malformed} (h : UnclosedAt src pos e)
    (hwalk : (depthAt src pos).isSome = true) : e.Truthful src := by
  rcases h with ⟨hb, he⟩ | ⟨hb, hquote, he⟩
  · obtain ⟨hopen, rfl⟩ := commentLeftOpen_of_commentExtent hb he
    exact Malformed.truthful_ofSource hopen.opener (.here hwalk) hopen
  · rcases (quotedExtent_error_iff_open hb hquote false e).1 he with ⟨place, hholds, rfl⟩ | ⟨hopen, rfl⟩
    · have hopen : CommentLeftOpen src place := hholds.2.1
      exact Malformed.truthful_ofSource hopen.opener (.inside hwalk hb hquote hholds) hopen
    · obtain ⟨hopener, hstays⟩ := hopen.staysOpen hquote
      refine Malformed.truthful_ofSource ?_ (.here hwalk) hstays
      rw [hopener, drop_of_getElem? hb]
      exact ⟨_, rfl⟩

/-- **So a lexical step that skimming comes to fails truthfully.** -/
theorem StepFails.truthful {src : Bytes} {u : Unclosed} (h : StepFails 0 0 src u) :
    (u.inSource src).Truthful src := by
  obtain ⟨front, b, after, v, hsrc, hv, rfl, hdepth⟩ := h
  rw [Nat.zero_add] at hdepth ⊢
  have hdrop : src.drop front.length = b :: after := by
    rw [hsrc, List.drop_left]
  exact UnclosedAt.truthful (unclosedAt_iff.2 ⟨b, after, v, hdrop, hv, rfl⟩) hdepth

/-- **A brace that skimming fails for is never closed**, and no block is open around it. -/
theorem BraceFails.truthful {src : Bytes} {u : Unclosed} (h : BraceFails 0 src u) :
    (u.inSource src).Truthful src := by
  obtain ⟨front, after, hsrc, hfail, rfl, hdepth⟩ := h
  rw [Nat.zero_add] at hdepth ⊢
  have hdrop : src.drop front.length = Byte.openBrace :: after := by
    rw [hsrc, List.drop_left]
  have hstop : blockStop src front.length = .error (.ofSource src .brace front.length) := by
    refine map_locate_eq_error_iff.2 ⟨⟨.brace, 0⟩, by rw [hdrop]; exact hfail, ?_⟩
    show Malformed.ofSource src .brace front.length = .ofSource src .brace (0 + front.length)
    rw [Nat.zero_add]
  have hopen := (blockStop_eq_brace_iff (getElem?_of_drop hdrop)).1 hstop
  have hmeets : Meets src front.length := .here (Option.isSome_of_eq_some hdepth)
  exact Malformed.truthful_ofSource ⟨after, hdrop.symm⟩ hmeets ⟨hopen, hdepth⟩

/-- **A failed scan tells the truth**: the construct that it names is opened at the offset, on the line,
    and is never closed in the source; a walk meets it there, and a brace is that of the outermost block
    that is open. -/
theorem scan_error_truthful {opts : LexOptions} {src : Bytes} {e : Malformed}
    (h : scan opts src = .error e) : e.Truthful src := by
  rw [scan_eq_error_iff, skim] at h
  cases hu : skimFrom 0 src with
  | ok _ =>
    rw [hu] at h
    cases h
  | error u =>
    rw [hu] at h
    cases h
    rcases stepFails_or_braceFails_of_skimFrom hu with hstep | hbrace
    · exact hstep.truthful
    · exact hbrace.truthful

/-- A comment in a literal in two blocks, and a brace behind one that closes nothing. -/
theorem scan_error_truthful_nested :
    let comment := Bytes.ofString "\n\x7bf\x7b\"a/*\"\x7d"
    let brace := Bytes.ofString "\x7d\x7b\x7d\n\x7bf\x7b'\x7d'\x7d"
    scan {} comment = .error ⟨⟨.blockComment, 6⟩, 2⟩ ∧ Meets comment 6 ∧ CommentLeftOpen comment 6 ∧
    scan {} brace = .error ⟨⟨.brace, 4⟩, 2⟩ ∧ LeftOpen brace 5 ∧ depthAt brace 4 = some 0 := by
  intro comment brace
  have hcomment : scan {} comment = .error ⟨⟨.blockComment, 6⟩, 2⟩ :=
    scan_eq_error_of_scanInto [] (by decide +kernel)
  have hbrace : scan {} brace = .error ⟨⟨.brace, 4⟩, 2⟩ :=
    scan_eq_error_of_scanInto [] (by decide +kernel)
  have htruth := scan_error_truthful hcomment
  exact ⟨hcomment, htruth.meets, htruth.stays_open, hbrace, (scan_error_truthful hbrace).stays_open⟩

end MagicNumbers
