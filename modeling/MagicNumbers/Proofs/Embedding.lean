/-
  A scan as a part of a larger one.

  Where a text lies in a larger one, a scan of the text and the scan of the larger one take the same
  steps as long as they are in it: the same tokens, the same answers about statements, the same scopes.

  * `Finding.within` — what is found in the text, seen from the larger one.
  * `ScanState.Within` — the state of the larger scan that corresponds to one of the smaller.
  * `ScanState.Within.step` — a step of the smaller scan is a step of the larger one.
  * `ScanState.Within.run` — where nothing follows the text, so is a run.
-/
import MagicNumbers.Proofs.Stack
import MagicNumbers.Proofs.Surroundings

namespace MagicNumbers

/-- A finding in the text, seen from the larger one. -/
def Finding.within (w : Surroundings) (f : Finding) : Finding :=
  ⟨f.line + w.line, f.offset + w.offset, f.bytes⟩

/-! ## Scopes -/

/-- How much further a scope goes in the larger text: the outermost goes on to the end of it. -/
def Surroundings.beyond (w : Surroundings) : List Frame → Nat
  | [] => w.after.length
  | _ :: _ => 0

/-- The scope of the larger scan that corresponds to one of the smaller, which ends `more` bytes before
    the other does. -/
structure Frame.Within (opts : LexOptions) (w : Surroundings) (more : Nat) (frame frame' : Frame) :
    Prop where
  cursor : frame'.cursor = frame.cursor.within w
  stop : frame'.stop = w.offset + frame.stop + more
  start : frame'.statement.start = frame.statement.start.within w
  knows : frame'.statement.Knows opts.safeKeywords

/-- Scopes correspond that are entered at places that do. -/
theorem Frame.within_enter {opts : LexOptions} {w : Surroundings} {more stop stop' : Nat} {c c' : Cursor}
    (hc : c' = c.within w) (hstop : stop' = w.offset + stop + more) :
    (Frame.enter opts c stop).Within opts w more (.enter opts c' stop') :=
  ⟨hc, hstop, hc, Statement.knows_fresh _ _⟩

/-- Corresponding scopes move over a token of the text together. -/
theorem Frame.Within.advance {opts : LexOptions} {w : Surroundings} {more n : Nat}
    {frame frame' : Frame} {statement statement' : Statement} (h : frame.Within opts w more frame')
    (hn : n ≤ frame.cursor.rest.length) (hstart : statement.start = frame.statement.start)
    (hstart' : statement'.start = frame'.statement.start)
    (hknows : statement'.Knows opts.safeKeywords) :
    Frame.Within opts w more { frame with cursor := frame.cursor.advance n, statement := statement }
      { frame' with cursor := frame'.cursor.advance n, statement := statement' } := by
  refine ⟨?_, h.stop, ?_, hknows⟩
  · show frame'.cursor.advance n = (frame.cursor.advance n).within w
    rw [h.cursor, Cursor.advance_within hn]
  · show statement'.start = statement.start.within w
    rw [hstart, hstart', h.start]

/-- The open scopes of both scans correspond, one by one. -/
inductive StackWithin (opts : LexOptions) (w : Surroundings) : List Frame → List Frame → Prop
  | nil : StackWithin opts w [] []
  | cons {frame frame' : Frame} {below below' : List Frame}
      (h : frame.Within opts w (w.beyond below) frame') (hbelow : StackWithin opts w below below') :
      StackWithin opts w (frame :: below) (frame' :: below')

/-- The state of the larger scan that corresponds to one of the smaller. -/
structure ScanState.Within (opts : LexOptions) (w : Surroundings) (st st' : ScanState) : Prop where
  frames : StackWithin opts w st.frames st'.frames
  line : st'.line = st.line + w.line
  found : st'.found.toList = w.found ++ st.found.toList.map (Finding.within w)

/-! ## Tokens -/

/-- The token that a scope takes is taken in the larger scan too, if more text cannot change it. -/
theorem Frame.Takes.within {opts : LexOptions} {w : Surroundings} {more : Nat} {frame frame' : Frame}
    {b : UInt8} {s : Bytes} {t : Token} (ht : frame.Takes b s t)
    (h : frame.Within opts w more frame') (hs : t.Settled (b :: s) w.after) :
    frame'.Takes b (s ++ w.after) t := by
  refine ⟨?_, ?_, ?_⟩
  · rw [h.cursor, Cursor.rest_within, ht.rest, List.cons_append]
  · have hlt := ht.lt_stop
    rw [h.cursor, h.stop, Cursor.offset_within]
    omega
  · rw [h.cursor, Cursor.lead_within]
    exact Token.read_append ht.read hs

/-- The bytes of a token are the same in both texts. -/
theorem Frame.Takes.take_within {opts : LexOptions} {w : Surroundings} {more : Nat}
    {frame frame' : Frame} {b : UInt8} {s : Bytes} {t : Token} (ht : frame.Takes b s t)
    (h : frame.Within opts w more frame') :
    frame'.cursor.rest.take t.length = frame.cursor.rest.take t.length := by
  rw [h.cursor, Cursor.rest_within, List.take_append_of_le_length ht.length_le]

/-! ## Questions -/

/-- The statement of a literal has the same answer in both scans. -/
theorem Frame.Takes.ask_literal_within {opts : LexOptions} {src : Bytes} {w : Surroundings} {more : Nat}
    {frame frame' : Frame} {b : UInt8} {s : Bytes} {t : Token} (ht : frame.Takes b s t)
    (h : frame.Within opts w more frame') (hlies : frame.Lies opts src)
    (hs : t.Settled (b :: s) w.after) (hk : t.IsLiteral) :
    (frame'.statement.ask (t.bound frame'.cursor.offset)).1 =
      (frame.statement.ask (t.bound frame.cursor.offset)).1 := by
  obtain ⟨start, pos, hat⟩ := hlies.isAt
  rw [Statement.ask_eq hat.knows, Statement.ask_eq h.knows, h.start, h.cursor, Cursor.offset_within]
  -- the statement is searched no further than to the end of the literal, which is in the text
  have hwalk : Walk frame.statement.start (frame.cursor.advance t.length) :=
    hlies.walk.trans (.of_token ht.rest ht.read hk.ne_block)
  have hleft : w.after = [] ∨ (frame.cursor.advance t.length).rest ≠ [] := by
    rcases hs with hs | ⟨-, hlt | hblock | hsemi⟩
    · exact .inl hs
    · refine .inr ?_
      rw [Cursor.rest_advance, ht.rest, Ne, List.drop_eq_nil_iff]
      omega
    · exact absurd hblock hk.ne_block
    · rcases hk with hk | hk <;> · rw [hk] at hsemi; cases hsemi
  have hbound := t.bound_le frame.cursor.offset
  rw [Token.bound_add]
  refine (hwalk.within hleft).holdsAll_within (hwalk.reach hleft) ?_ _
  rw [Cursor.offset_within, Cursor.offset_advance]
  omega

/-- The statement of a block has the same answer in both scans. -/
theorem Frame.Takes.ask_block_within {opts : LexOptions} {src : Bytes} {w : Surroundings} {more : Nat}
    {frame frame' : Frame} {b : UInt8} {s : Bytes} {t : Token} (ht : frame.Takes b s t)
    (h : frame.Within opts w more frame') (hlies : frame.Lies opts src) :
    (frame'.statement.ask (frame'.cursor.offset - 1)).1 =
      (frame.statement.ask (frame.cursor.offset - 1)).1 := by
  obtain ⟨start, pos, hat⟩ := hlies.isAt
  rw [Statement.ask_eq hat.knows, Statement.ask_eq h.knows, h.start, h.cursor, Cursor.offset_within]
  have hleft : w.after = [] ∨ frame.cursor.rest ≠ [] := by
    rw [ht.rest]
    exact .inr (List.cons_ne_nil _ _)
  exact (hlies.walk.within hleft).holdsAll_header_within (hlies.walk.reach hleft)
    Cursor.offset_within _

/-! ## Steps -/

/-- What the scope does next does not depend on what follows the text. -/
structure Frame.Settled (w : Surroundings) (frame : Frame) (below : List Frame) : Prop where
  /-- It is not closed just because the text ends, if more follows. -/
  close (h : frame.cursor.rest = [] ∨ frame.stop ≤ frame.cursor.offset) :
    w.after = [] ∨ below ≠ [] ∧ frame.stop ≤ frame.cursor.offset
  /-- Its next token stays as it is. -/
  token {b : UInt8} {s : Bytes} {t : Token} (ht : frame.Takes b s t) : t.Settled (b :: s) w.after

/-- Where nothing follows, everything is settled. -/
theorem Frame.settled_of_nil {w : Surroundings} (hw : w.after = []) (frame : Frame)
    (below : List Frame) : frame.Settled w below :=
  ⟨fun _ => .inl hw, fun _ => .inl hw⟩

/-- If nothing follows, no scope goes further in the larger text, and an inner one never does. -/
theorem Surroundings.beyond_eq_zero {w : Surroundings} {below : List Frame}
    (h : w.after = [] ∨ below ≠ []) : w.beyond below = 0 := by
  cases below with
  | nil =>
    rcases h with h | h
    · rw [beyond, h]
      rfl
    · exact absurd rfl h
  | cons => rfl

/-- A scope that is closed in the smaller scan is closed in the larger one. -/
theorem Frame.Within.end_of_settled {opts : LexOptions} {w : Surroundings} {frame frame' : Frame}
    {below : List Frame} (h : frame.Within opts w (w.beyond below) frame')
    (hs : frame.Settled w below) (hend : frame.cursor.rest = [] ∨ frame.stop ≤ frame.cursor.offset) :
    frame'.cursor.rest = [] ∨ frame'.stop ≤ frame'.cursor.offset := by
  rw [h.cursor, h.stop, Cursor.rest_within, Cursor.offset_within]
  rcases hs.close hend with hnil | ⟨hne, hle⟩
  · rw [w.beyond_eq_zero (.inl hnil), hnil, List.append_nil]
    rcases hend with hr | hle
    · exact .inl hr
    · exact .inr (by omega)
  · rw [w.beyond_eq_zero (.inr hne)]
    exact .inr (by omega)

/-- What corresponds to a stack with an innermost scope has one too. -/
theorem StackWithin.of_cons {opts : LexOptions} {w : Surroundings} {frame : Frame}
    {below frames' : List Frame} (h : StackWithin opts w (frame :: below) frames') :
    ∃ frame' below', frames' = frame' :: below' ∧ frame.Within opts w (w.beyond below) frame' ∧
      StackWithin opts w below below' := by
  cases h with
  | cons h hbelow => exact ⟨_, _, rfl, h, hbelow⟩

/-- A finding more in the smaller scan is one more in the larger. -/
theorem found_push_within {w : Surroundings} {found found' : Array Finding} {f f' : Finding}
    (h : found'.toList = w.found ++ found.toList.map (Finding.within w)) (hf : f' = f.within w) :
    (found'.push f').toList = w.found ++ (found.push f).toList.map (Finding.within w) := by
  rw [Array.toList_push, Array.toList_push, h, hf, List.map_append, List.append_assoc]
  rfl

/-- **A step of the smaller scan is a step of the larger one.** -/
theorem ScanState.Within.step {opts : LexOptions} {src : Bytes} {w : Surroundings}
    {st st' next : ScanState} {frame frame' : Frame} {below below' : List Frame}
    (h : st.Within opts w st') (hframe : frame.Within opts w (w.beyond below) frame')
    (hbelow : StackWithin opts w below below') (hlies : frame.Lies opts src)
    (hsettled : frame.Settled w below) (hs : Step opts st frame below next) :
    ∃ next', ScanState.step opts st' frame' below' = .ok next' ∧ next.Within opts w next' := by
  -- the line that is counted after a token
  have counted : ∀ {b s t}, frame.Takes b s t →
      st'.line + newlines (frame'.cursor.rest.take t.length) =
        st.line + newlines (frame.cursor.rest.take t.length) + w.line := by
    intro b s t ht
    rw [ht.take_within hframe, h.line]
    omega
  -- the place behind a token
  have behind : ∀ {b s t}, frame.Takes b s t →
      frame'.cursor.advance t.length = (frame.cursor.advance t.length).within w := by
    intro b s t ht
    rw [hframe.cursor, Cursor.advance_within ht.length_le]
  cases hs with
  | close hend =>
    have hend' := hframe.end_of_settled hsettled hend
    exact ⟨_, step_of_end hend', hbelow, h.line, h.found⟩
  | skip ht hk =>
    have ht' := ht.within hframe (hsettled.token ht)
    refine ⟨_, step_of_skipped ht'.rest ht'.lt_stop ht'.read hk, ?_, counted ht, h.found⟩
    exact .cons (hframe.advance ht.length_le rfl rfl hframe.knows) hbelow
  | semicolon ht hk =>
    have ht' := ht.within hframe (hsettled.token ht)
    refine ⟨_, step_of_semicolon ht'.rest ht'.lt_stop ht'.read hk, ?_, h.line, h.found⟩
    exact .cons (Frame.within_enter (behind ht) hframe.stop) hbelow
  | @literal b s t safe ht hk ha =>
    have hset := hsettled.token ht
    have ht' := ht.within hframe hset
    have ha' := (ht.ask_literal_within hframe hlies hset hk).trans ha
    obtain ⟨hknows, hstart⟩ := Statement.ask_knows hframe.knows (t.bound frame'.cursor.offset)
    have hstart' := hlies.start_ask (t.bound frame.cursor.offset)
    refine ⟨_, (step_of_literal ht'.rest ht'.lt_stop ht'.read hk).trans (takeLiteral_of_ok ha'), ?_,
      counted ht, ?_⟩
    · exact .cons (hframe.advance ht.length_le hstart' hstart hknows) hbelow
    · cases safe with
      | true => exact h.found
      | false =>
        refine found_push_within h.found ?_
        rw [ht.take_within hframe, h.line, hframe.cursor, Cursor.offset_within, Nat.add_comm w.offset]
        rfl
  | pass ht hk ha =>
    have ht' := ht.within hframe (hsettled.token ht)
    have ha' := (ht.ask_block_within hframe hlies).trans ha
    refine ⟨_, (step_of_block ht'.rest ht'.lt_stop ht'.read hk).trans (takeBlock_of_safe ha'), ?_, ?_,
      h.found⟩
    · exact .cons (Frame.within_enter (behind ht) hframe.stop) hbelow
    · show st'.line + _ = st.line + _ + w.line
      cases opts.legacyLineDrift with
      | true => exact h.line
      | false => exact counted ht
  | @enter b s t ht hk ha =>
    have ht' := ht.within hframe (hsettled.token ht)
    have ha' := (ht.ask_block_within hframe hlies).trans ha
    refine ⟨_, (step_of_block ht'.rest ht'.lt_stop ht'.read hk).trans (takeBlock_of_not_safe ha'), ?_,
      h.line, h.found⟩
    refine .cons (Frame.within_enter ?_ ?_) (.cons (Frame.within_enter (behind ht) hframe.stop) hbelow)
    · have hpos := (Token.read_bounds ht.read).1
      have hle := ht.length_le
      rw [hframe.cursor, Cursor.advance_within (by omega)]
    · have hpos := (Token.read_bounds ht.read).1
      show frame'.cursor.offset + t.length - 1 = w.offset + (frame.cursor.offset + t.length - 1) + 0
      rw [hframe.cursor, Cursor.offset_within]
      omega

/-! ## Runs to the end -/

/-- **Where nothing follows the text, the larger scan goes on as the smaller one does**: it ends in the
    state that corresponds, or fails at the same construct. -/
theorem ScanState.Within.run {opts : LexOptions} {src : Bytes} {w : Surroundings} {st st' : ScanState}
    (hw : w.after = []) (hst : Reachable opts src st) (h : st.Within opts w st') :
    (∀ last, st.run opts = .ok last →
      ∃ last', st'.run opts = .ok last' ∧ last.Within opts w last') ∧
    (∀ e, st.run opts = .error e → st'.run opts = .error (e.shift w.offset)) := by
  fun_induction ScanState.run opts st generalizing st' with
  | case1 st hf =>
    obtain ⟨frames', line', found'⟩ := st'
    have hframes := h.frames
    rw [hf] at hframes
    cases hframes with
    | nil =>
      constructor
      · intro last hlast
        cases hlast
        exact ⟨_, run_nil line' found', h⟩
      · intro e he
        cases he
  | case2 st frame below hf e hs =>
    obtain ⟨frames', line', found'⟩ := st'
    have hframes := h.frames
    have hlies := (hst.top hf).1
    rw [hf] at hframes
    obtain ⟨frame', below', rfl, hframe, -⟩ := hframes.of_cons
    constructor
    · intro last hlast
      cases hlast
    · intro e' he'
      cases he'
      -- only what is unclosed fails a step, and it is unclosed in the larger text
      obtain ⟨b, s, u, hr, hlt, hread, rfl⟩ := hlies.unclosed_of_step hs
      have hr' : frame'.cursor.rest = b :: s := by
        rw [hframe.cursor, Cursor.rest_within, hw, List.append_nil, hr]
      have hlt' : frame'.cursor.offset < frame'.stop := by
        rw [hframe.cursor, hframe.stop, Cursor.offset_within]
        omega
      have hread' : Token.read frame'.cursor.lead b s = .error u := by
        rw [hframe.cursor, Cursor.lead_within]
        exact hread
      rw [run_cons, step_of_error hr' hlt' hread', hframe.cursor, Cursor.offset_within,
        Unclosed.shift_shift, Nat.add_comm]
  | case3 st frame below hf next hs ih =>
    obtain ⟨frames', line', found'⟩ := st'
    have hframes := h.frames
    have hlies := (hst.top hf).1
    rw [hf] at hframes
    obtain ⟨frame', below', rfl, hframe, hbelow⟩ := hframes.of_cons
    obtain ⟨next', hs', hnext⟩ := h.step hframe hbelow hlies
      (Frame.settled_of_nil hw frame below) (step_of_eq_ok hs)
    rw [run_cons, hs']
    exact ih (hst.step hf hs) hnext

end MagicNumbers
