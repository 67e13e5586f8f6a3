/-
  The scopes that are open during a scan.

  * `Reachable` — the states that a scan of a source can come to.
  * `Step` — what a step may do, one constructor for each way; `step_of_eq_ok` says that there are no
    others.
  * `Stacked` — how the open scopes lie in each other: each ends at the brace behind which the scope
    around it goes on, and the outermost has yet to skim what skimming the source would find there.
  * `Reachable.placed` — so it is in every state that a scan can come to, and what is remembered of a
    statement is right there.
-/
import MagicNumbers.Proofs.Skim
import MagicNumbers.Proofs.Steps

namespace MagicNumbers

/-! ## What a step does -/

/-- The token that the scope takes next. -/
structure Frame.Takes (frame : Frame) (b : UInt8) (s : Bytes) (t : Token) : Prop where
  rest : frame.cursor.rest = b :: s
  lt_stop : frame.cursor.offset < frame.stop
  read : Token.read frame.cursor.lead b s = .ok t

/-- A token lies in what is left of the text. -/
theorem Frame.Takes.length_le {frame : Frame} {b : UInt8} {s : Bytes} {t : Token}
    (ht : frame.Takes b s t) : t.length ≤ frame.cursor.rest.length := by
  rw [ht.rest]
  exact (Token.read_bounds ht.read).2

/-- A token inside a block leaves the brace that closes the block behind it. -/
theorem Frame.Takes.closesAt {frame : Frame} {b : UInt8} {s : Bytes} {t : Token}
    (ht : frame.Takes b s t) (h : frame.cursor.ClosesAt frame.stop) :
    (frame.cursor.advance t.length).ClosesAt frame.stop := by
  obtain ⟨b', s', hr, hcase⟩ := h.token
  rw [ht.rest] at hr
  cases hr
  rcases hcase with ⟨heq, -⟩ | ⟨-, t', ht', hin⟩
  · exact absurd heq (Nat.ne_of_lt ht.lt_stop)
  · rw [ht.read] at ht'
    cases ht'
    exact hin

/-- The states that one step of the innermost scope `frame` may lead to. -/
inductive Step (opts : LexOptions) (st : ScanState) (frame : Frame) (below : List Frame) :
    ScanState → Prop
  /-- A scope that has come to its end is closed. -/
  | close (h : frame.cursor.rest = [] ∨ frame.stop ≤ frame.cursor.offset) :
      Step opts st frame below { st with frames := below }
  /-- A token that is neither a literal nor a boundary is passed over. -/
  | skip {b : UInt8} {s : Bytes} {t : Token} (ht : frame.Takes b s t) (hk : t.IsSkipped) :
      Step opts st frame below
        { st with
          frames := { frame with cursor := frame.cursor.advance t.length } :: below
          line := st.line + newlines (frame.cursor.rest.take t.length) }
  /-- A semicolon ends the statement. -/
  | semicolon {b : UInt8} {s : Bytes} {t : Token} (ht : frame.Takes b s t)
      (hk : t.kind = .semicolon) :
      Step opts st frame below
        { st with frames := .enter opts (frame.cursor.advance t.length) frame.stop :: below }
  /-- A literal is reported unless its statement declares a constant. -/
  | literal {b : UInt8} {s : Bytes} {t : Token} {safe : Bool} (ht : frame.Takes b s t)
      (hk : t.IsLiteral)
      (ha : (frame.statement.ask (t.bound frame.cursor.offset)).1 = .ok safe) :
      Step opts st frame below
        { frames :=
            { frame with
              cursor := frame.cursor.advance t.length
              statement := (frame.statement.ask (t.bound frame.cursor.offset)).2 } :: below
          line := st.line + newlines (frame.cursor.rest.take t.length)
          found :=
            if safe then st.found
            else st.found.push ⟨st.line, frame.cursor.offset, frame.cursor.rest.take t.length⟩ }
  /-- The block of a constant is passed over. -/
  | pass {b : UInt8} {s : Bytes} {t : Token} (ht : frame.Takes b s t) (hk : t.kind = .block)
      (ha : (frame.statement.ask (frame.cursor.offset - 1)).1 = .ok true) :
      Step opts st frame below
        { st with
          frames := .enter opts (frame.cursor.advance t.length) frame.stop :: below
          line :=
            st.line +
              if opts.legacyLineDrift then 0 else newlines (frame.cursor.rest.take t.length) }
  /-- Any other block is opened as a scope of its own. -/
  | enter {b : UInt8} {s : Bytes} {t : Token} (ht : frame.Takes b s t) (hk : t.kind = .block)
      (ha : (frame.statement.ask (frame.cursor.offset - 1)).1 = .ok false) :
      Step opts st frame below
        { st with
          frames :=
            .enter opts (frame.cursor.advance 1) (frame.cursor.offset + t.length - 1) ::
              .enter opts (frame.cursor.advance t.length) frame.stop :: below }

/-- A step does one of these things. -/
theorem step_of_eq_ok {opts : LexOptions} {st st' : ScanState} {frame : Frame} {below : List Frame}
    (h : ScanState.step opts st frame below = .ok st') : Step opts st frame below st' := by
  by_cases hend : frame.cursor.rest = [] ∨ frame.stop ≤ frame.cursor.offset
  · rw [ScanState.step_of_end hend] at h
    cases h
    exact .close hend
  obtain ⟨hne, hle⟩ := not_or.1 hend
  have hlt : frame.cursor.offset < frame.stop := Nat.lt_of_not_le hle
  obtain ⟨b, s, hr⟩ := List.exists_cons_of_ne_nil hne
  cases ht : Token.read frame.cursor.lead b s with
  | error e => rw [ScanState.step_of_error hr hlt ht] at h; cases h
  | ok t =>
    have takes : frame.Takes b s t := ⟨hr, hlt, ht⟩
    rcases t.role with hk | hk | hk | hk
    · rw [ScanState.step_of_skipped hr hlt ht hk] at h
      cases h
      exact .skip takes hk
    · rw [ScanState.step_of_semicolon hr hlt ht hk] at h
      cases h
      exact .semicolon takes hk
    · rw [ScanState.step_of_literal hr hlt ht hk] at h
      cases ha : (frame.statement.ask (t.bound frame.cursor.offset)).1 with
      | error e => rw [ScanState.takeLiteral_of_error ha] at h; cases h
      | ok safe =>
        rw [ScanState.takeLiteral_of_ok ha] at h
        cases h
        exact .literal takes hk ha
    · rw [ScanState.step_of_block hr hlt ht hk] at h
      cases ha : (frame.statement.ask (frame.cursor.offset - 1)).1 with
      | error e => rw [ScanState.takeBlock_of_error ha] at h; cases h
      | ok safe =>
        cases safe with
        | true =>
          rw [ScanState.takeBlock_of_safe ha] at h
          cases h
          exact .pass takes hk ha
        | false =>
          rw [ScanState.takeBlock_of_not_safe ha] at h
          cases h
          exact .enter takes hk ha

/-- The states that a scan of a source can come to. -/
inductive Reachable (opts : LexOptions) (src : Bytes) : ScanState → Prop
  | start : Reachable opts src (ScanState.start opts src)
  | step {st st' : ScanState} {frame : Frame} {below : List Frame} (h : Reachable opts src st)
      (hf : st.frames = frame :: below) (hs : ScanState.step opts st frame below = .ok st') :
      Reachable opts src st'

/-! ## Each scope by itself -/

/-- The scope stands at a place of the source, knows what it has to about its statement, and has come
    by a walk from where the statement starts. -/
structure Frame.Lies (opts : LexOptions) (src : Bytes) (frame : Frame) : Prop where
  isAt : ∃ start pos, frame.IsAt opts src start pos
  walk : Walk frame.statement.start frame.cursor

theorem Frame.lies_enter (opts : LexOptions) (src : Bytes) (pos stop : Nat) :
    (Frame.enter opts (.ofOffset src pos) stop).Lies opts src :=
  ⟨⟨pos, pos, Frame.isAt_enter opts src pos stop⟩, .refl _⟩

/-- Some bytes further, the scope is still at a place of the source. -/
theorem Frame.Lies.advance_eq {opts : LexOptions} {src : Bytes} {frame : Frame}
    (h : frame.Lies opts src) (n : Nat) : ∃ pos, frame.cursor.advance n = .ofOffset src pos := by
  obtain ⟨start, pos, hat⟩ := h.isAt
  exact ⟨pos + n, hat.advance n⟩

/-- What a scope is still to read is what the source holds from its offset on. -/
theorem Frame.Lies.rest_eq {opts : LexOptions} {src : Bytes} {frame : Frame}
    (h : frame.Lies opts src) : frame.cursor.rest = src.drop frame.cursor.offset := by
  obtain ⟨start, pos, hat⟩ := h.isAt
  rw [hat.rest_eq, hat.offset_eq]

theorem Frame.Lies.enter_advance {opts : LexOptions} {src : Bytes} {frame : Frame}
    (h : frame.Lies opts src) (n stop : Nat) :
    (Frame.enter opts (frame.cursor.advance n) stop).Lies opts src := by
  obtain ⟨pos, hpos⟩ := h.advance_eq n
  rw [hpos]
  exact Frame.lies_enter opts src pos stop

/-- Moving over a token that is no block leaves a scope in order, also if its statement was asked. -/
theorem Frame.Lies.advance {opts : LexOptions} {src : Bytes} {frame : Frame} {b : UInt8} {s : Bytes}
    {t : Token} (h : frame.Lies opts src) (ht : frame.Takes b s t) (hk : t.kind ≠ .block)
    {statement : Statement} (hstart : statement.start = frame.statement.start)
    (hknows : statement.Knows opts.safeKeywords) :
    Frame.Lies opts src
      { frame with cursor := frame.cursor.advance t.length, statement := statement } := by
  obtain ⟨start, pos, hat⟩ := h.isAt
  refine ⟨⟨start, pos + t.length, hat.advance t.length, hstart.trans hat.start, hknows⟩, ?_⟩
  show Walk statement.start (frame.cursor.advance t.length)
  rw [hstart]
  exact h.walk.trans (.of_token ht.rest ht.read hk)

/-- A question leaves the start of the statement where it is. -/
theorem Frame.Lies.start_ask {opts : LexOptions} {src : Bytes} {frame : Frame}
    (h : frame.Lies opts src) (bound : Nat) :
    (frame.statement.ask bound).2.start = frame.statement.start := by
  obtain ⟨start, pos, hat⟩ := h.isAt
  exact (Statement.ask_knows hat.knows bound).2

/-- **About what the scope has passed its statement can always be asked.** -/
theorem Frame.Lies.ask_ok {opts : LexOptions} {src : Bytes} {frame : Frame} {c : Cursor}
    (h : frame.Lies opts src) (hw : Walk frame.cursor c) {bound : Nat} (hb : bound ≤ c.offset) :
    ∃ safe, (frame.statement.ask bound).1 = .ok safe := by
  obtain ⟨start, pos, hat⟩ := h.isAt
  rw [Statement.ask_eq hat.knows]
  exact (h.walk.trans hw).holdsAll_ok hb _

/-! ## How the scopes lie in each other -/

/-- The open scopes, innermost first.  The outermost ends where the source does, and skimming from its
    place finds what skimming the source finds.  Any other is closed by the brace it ends at, and the
    scope around it waits behind that brace, at the start of a statement. -/
inductive Stacked (src : Bytes) : List Frame → Prop
  | closed (hskim : skimFrom 0 src = .ok ()) : Stacked src []
  | bottom {frame : Frame} (hstop : frame.stop = src.length)
      (hskim : skimFrom frame.cursor.offset frame.cursor.rest = skimFrom 0 src) : Stacked src [frame]
  | inner {frame outer : Frame} {below : List Frame} (hclose : frame.cursor.ClosesAt frame.stop)
      (hnext : outer.cursor.offset = frame.stop + 1)
      (hstart : outer.statement.start = outer.cursor) (h : Stacked src (outer :: below)) :
      Stacked src (frame :: outer :: below)

/-- A token taken leaves the scope where it is among the others. -/
theorem Stacked.advance {src : Bytes} {frame frame' : Frame} {below : List Frame} {b : UInt8}
    {s : Bytes} {t : Token} (h : Stacked src (frame :: below)) (ht : frame.Takes b s t)
    (hcursor : frame'.cursor = frame.cursor.advance t.length) (hstop : frame'.stop = frame.stop) :
    Stacked src (frame' :: below) := by
  cases h with
  | bottom hbottom hskim =>
    refine .bottom (hstop.trans hbottom) ?_
    rw [hcursor, Cursor.offset_advance, Cursor.rest_advance, ht.rest, ← skimFrom_of_token ht.read,
      ← ht.rest, hskim]
  | inner hclose hnext hstart h =>
    refine .inner ?_ (by rw [hstop]; exact hnext) hstart h
    rw [hcursor, hstop]
    exact ht.closesAt hclose

/-- **A step leaves the scopes stacked.** -/
theorem Stacked.step {opts : LexOptions} {src : Bytes} {st st' : ScanState} {frame : Frame}
    {below : List Frame} (h : Stacked src (frame :: below)) (hlies : frame.Lies opts src)
    (hs : Step opts st frame below st') : Stacked src st'.frames := by
  cases hs with
  | close hend =>
    cases h with
    | bottom hstop hskim =>
      -- the whole source has been skimmed
      have hrest : frame.cursor.rest = [] := by
        rcases hend with hend | hend
        · exact hend
        · rw [hlies.rest_eq]
          exact List.drop_eq_nil_of_le (hstop ▸ hend)
      rw [hrest, skimFrom] at hskim
      exact .closed hskim.symm
    | inner _ _ _ h => exact h
  | skip ht => exact h.advance ht rfl rfl
  | semicolon ht => exact h.advance ht rfl rfl
  | literal ht => exact h.advance ht rfl rfl
  | pass ht => exact h.advance ht rfl rfl
  | enter ht hk =>
    have hn := Token.blockLength_of_read ht.read hk
    have hpos := (Token.read_bounds ht.read).1
    refine .inner (Cursor.closesAt_of_block ht.rest hn) ?_ rfl (h.advance ht rfl rfl)
    show (frame.cursor.advance _).offset = _
    rw [Cursor.offset_advance, Frame.stop_enter]
    omega

/-- A step leaves every scope in order. -/
theorem Frame.lies_of_step {opts : LexOptions} {src : Bytes} {st st' : ScanState} {frame : Frame}
    {below : List Frame} (h : ∀ f ∈ frame :: below, f.Lies opts src)
    (hs : Step opts st frame below st') : ∀ f ∈ st'.frames, f.Lies opts src := by
  obtain ⟨hframe, hbelow⟩ := List.forall_mem_cons.1 h
  cases hs with
  | close => exact hbelow
  | skip ht hk =>
    obtain ⟨_, _, hat⟩ := hframe.isAt
    exact List.forall_mem_cons.2 ⟨hframe.advance ht hk.ne_block rfl hat.knows, hbelow⟩
  | semicolon ht => exact List.forall_mem_cons.2 ⟨hframe.enter_advance _ _, hbelow⟩
  | literal ht hk =>
    obtain ⟨_, _, hat⟩ := hframe.isAt
    obtain ⟨hknows, hstart⟩ := Statement.ask_knows hat.knows _
    exact List.forall_mem_cons.2 ⟨hframe.advance ht hk.ne_block hstart hknows, hbelow⟩
  | pass ht => exact List.forall_mem_cons.2 ⟨hframe.enter_advance _ _, hbelow⟩
  | enter ht hk =>
    exact List.forall_mem_cons.2
      ⟨hframe.enter_advance _ _, List.forall_mem_cons.2 ⟨hframe.enter_advance _ _, hbelow⟩⟩

/-! ## Every state of a scan -/

/-- **In every state that a scan comes to the scopes are in order and stacked.** -/
theorem Reachable.placed {opts : LexOptions} {src : Bytes} {st : ScanState}
    (h : Reachable opts src st) : (∀ f ∈ st.frames, f.Lies opts src) ∧ Stacked src st.frames := by
  induction h with
  | start =>
    have hstart : Cursor.ofOffset src 0 = Cursor.start src := Cursor.advance_zero _
    refine ⟨List.forall_mem_cons.2 ⟨hstart ▸ Frame.lies_enter opts src 0 src.length, ?_⟩, ?_⟩
    · exact fun _ h => absurd h List.not_mem_nil
    · exact .bottom rfl rfl
  | step _ hf hs ih =>
    obtain ⟨hlies, hstacked⟩ := ih
    rw [hf] at hlies hstacked
    have hstep := step_of_eq_ok hs
    exact ⟨Frame.lies_of_step hlies hstep, hstacked.step (hlies _ List.mem_cons_self) hstep⟩

/-- So the innermost scope is in order. -/
theorem Reachable.top {opts : LexOptions} {src : Bytes} {st : ScanState} {frame : Frame}
    {below : List Frame} (h : Reachable opts src st) (hf : st.frames = frame :: below) :
    frame.Lies opts src ∧ Stacked src (frame :: below) := by
  obtain ⟨hlies, hstacked⟩ := h.placed
  rw [hf] at hlies hstacked
  exact ⟨hlies frame List.mem_cons_self, hstacked⟩

/-- A result that is a value once its error is left out is that value. -/
theorem eq_ok_of_toOption {ε α : Type} {r : Except ε α} {a : α} (h : r.toOption = some a) :
    r = .ok a := by
  cases r with
  | error e => cases h
  | ok b => cases h; rfl

/-- Takes `n` steps, or as many as there are. -/
def ScanState.steps (opts : LexOptions) : Nat → ScanState → Except Unclosed ScanState
  | 0, st => .ok st
  | n + 1, st =>
    match st.frames with
    | [] => .ok st
    | frame :: below =>
      match step opts st frame below with
      | .ok st => steps opts n st
      | .error e => .error e

/-- What some steps lead to, the scan can come to. -/
theorem Reachable.steps {opts : LexOptions} {src : Bytes} {st st' : ScanState} {n : Nat}
    (h : Reachable opts src st) (hs : st.steps opts n = .ok st') : Reachable opts src st' := by
  induction n generalizing st with
  | zero => cases hs; exact h
  | succ n ih =>
    rw [ScanState.steps] at hs
    split at hs
    · cases hs; exact h
    · next frame below hf =>
      split at hs
      · next next hnext => exact ih (h.step hf hnext) hs
      · cases hs

/-- A run that succeeds ends in a state that the scan can come to, without an open scope. -/
theorem Reachable.run_ok {opts : LexOptions} {src : Bytes} {st last : ScanState}
    (h : Reachable opts src st) (hr : st.run opts = .ok last) :
    Reachable opts src last ∧ last.frames = [] := by
  fun_induction ScanState.run opts st with
  | case1 st hf => cases hr; exact ⟨h, hf⟩
  | case2 => cases hr
  | case3 st frame below hf st' hs ih => exact ih (h.step hf hs) hr

/-- A run fails at a step of a state that the scan can come to. -/
theorem Reachable.run_error {opts : LexOptions} {src : Bytes} {st : ScanState} {e : Unclosed}
    (h : Reachable opts src st) (hr : st.run opts = .error e) :
    ∃ st' frame below, Reachable opts src st' ∧ st'.frames = frame :: below ∧
      ScanState.step opts st' frame below = .error e := by
  fun_induction ScanState.run opts st with
  | case1 => cases hr
  | case2 st frame below hf e' hs => cases hr; exact ⟨st, frame, below, h, hf, hs⟩
  | case3 st frame below hf st' hs ih => exact ih (h.step hf hs) hr

/-- **Only what is unclosed lets a step fail**: if the next token can be read, its statement can be
    asked. -/
theorem Frame.Lies.unclosed_of_step {opts : LexOptions} {src : Bytes} {st : ScanState} {frame : Frame}
    {below : List Frame} {e : Unclosed} (h : frame.Lies opts src)
    (hs : ScanState.step opts st frame below = .error e) :
    ∃ b s e', frame.cursor.rest = b :: s ∧ frame.cursor.offset < frame.stop ∧
      Token.read frame.cursor.lead b s = .error e' ∧ e = e'.shift frame.cursor.offset := by
  by_cases hend : frame.cursor.rest = [] ∨ frame.stop ≤ frame.cursor.offset
  · rw [ScanState.step_of_end hend] at hs
    cases hs
  obtain ⟨hne, hle⟩ := not_or.1 hend
  have hlt : frame.cursor.offset < frame.stop := Nat.lt_of_not_le hle
  obtain ⟨b, s, hr⟩ := List.exists_cons_of_ne_nil hne
  cases ht : Token.read frame.cursor.lead b s with
  | error e' =>
    rw [ScanState.step_of_error hr hlt ht] at hs
    cases hs
    exact ⟨b, s, e', hr, hlt, ht, rfl⟩
  | ok t =>
    exfalso
    rcases t.role with hk | hk | hk | hk
    · rw [ScanState.step_of_skipped hr hlt ht hk] at hs
      cases hs
    · rw [ScanState.step_of_semicolon hr hlt ht hk] at hs
      cases hs
    · have hle : t.bound frame.cursor.offset ≤ (frame.cursor.advance t.length).offset := by
        rw [Cursor.offset_advance]
        exact t.bound_le _
      obtain ⟨safe, ha⟩ := h.ask_ok (.of_token hr ht hk.ne_block) hle
      rw [ScanState.step_of_literal hr hlt ht hk, ScanState.takeLiteral_of_ok ha] at hs
      cases hs
    · obtain ⟨safe, ha⟩ := h.ask_ok (.refl _) (Nat.sub_le frame.cursor.offset 1)
      rw [ScanState.step_of_block hr hlt ht hk] at hs
      cases safe with
      | true => rw [ScanState.takeBlock_of_safe ha] at hs; cases hs
      | false => rw [ScanState.takeBlock_of_not_safe ha] at hs; cases hs

/-- **What is unclosed is met by the outermost scope, and by skimming the source.** -/
theorem Stacked.unclosed {src : Bytes} {frame : Frame} {below : List Frame} {b : UInt8} {s : Bytes}
    {e : Unclosed} (h : Stacked src (frame :: below)) (hr : frame.cursor.rest = b :: s)
    (hlt : frame.cursor.offset < frame.stop) (ht : Token.read frame.cursor.lead b s = .error e) :
    below = [] ∧ skimFrom 0 src = .error (e.shift frame.cursor.offset) := by
  cases h with
  | bottom _ hskim => exact ⟨rfl, by rw [← hskim, hr, skimFrom_of_error ht]⟩
  | inner hclose =>
    obtain ⟨b', s', hr', hcase⟩ := hclose.token
    rw [hr] at hr'
    cases hr'
    rcases hcase with ⟨heq, -⟩ | ⟨-, t', ht', -⟩
    · exact absurd heq (Nat.ne_of_lt hlt)
    · rw [ht] at ht'
      cases ht'

end MagicNumbers
