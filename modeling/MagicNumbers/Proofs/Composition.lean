/-
  Scanning one source behind another.

  Where a scan of a source ends at the start of a statement, nothing that it has read depends on what
  follows, and what follows is scanned as if it stood alone.

  * `Reachable.starts` — a statement starts where the source does or behind a break.
  * `Reachable.within_append` — until its end the scan of a source is the scan of any longer one, unless
    its last token could go on.
  * `scan_append` — so the findings of the longer source are those of both parts, the later ones moved,
    and it fails where the second part does.
-/
import MagicNumbers.Proofs.Embedding
import MagicNumbers.Proofs.Failure

namespace MagicNumbers

/-! ## Where statements start -/

/-- The statement of the scope starts where the source does or behind a break. -/
def Frame.Starts (src : Bytes) (frame : Frame) : Prop :=
  frame.statement.start.offset = 0 ∨ EndsInBreak (src.take frame.statement.start.offset)

/-- A scope that is entered behind a break starts a statement. -/
theorem Frame.starts_enter {opts : LexOptions} {src : Bytes} {frame : Frame} {n : Nat}
    (hlies : frame.Lies opts src) (hbreak : EndsInBreak (frame.cursor.rest.take n)) (stop : Nat) :
    (Frame.enter opts (frame.cursor.advance n) stop).Starts src := by
  refine .inr ?_
  rw [Frame.start_enter, Cursor.offset_advance, List.take_add, ← hlies.rest_eq]
  exact hbreak.append _

/-- Behind a semicolon or a block a statement starts. -/
theorem Frame.Takes.starts {opts : LexOptions} {src : Bytes} {frame : Frame} {b : UInt8} {s : Bytes}
    {t : Token} (ht : frame.Takes b s t) (hlies : frame.Lies opts src)
    (hk : t.kind = .block ∨ t.kind = .semicolon) (stop : Nat) :
    (Frame.enter opts (frame.cursor.advance t.length) stop).Starts src := by
  refine Frame.starts_enter hlies ?_ stop
  rw [ht.rest]
  exact Token.endsInBreak_of_read ht.read hk

/-- **In every state of a scan, statements start where the source does or behind a break.** -/
theorem Reachable.starts {opts : LexOptions} {src : Bytes} {st : ScanState}
    (h : Reachable opts src st) : ∀ f ∈ st.frames, f.Starts src := by
  induction h with
  | start => exact List.forall_mem_cons.2 ⟨.inl rfl, fun _ h => absurd h List.not_mem_nil⟩
  | @step st next frame below hst hf hs ih =>
    have hframe := (hst.top hf).1
    rw [hf] at ih
    obtain ⟨hstarts, hbelow⟩ := List.forall_mem_cons.1 ih
    cases step_of_eq_ok hs with
    | close => exact hbelow
    | skip => exact List.forall_mem_cons.2 ⟨hstarts, hbelow⟩
    | semicolon ht hk => exact List.forall_mem_cons.2 ⟨ht.starts hframe (.inr hk) _, hbelow⟩
    | literal ht hk =>
      refine List.forall_mem_cons.2 ⟨?_, hbelow⟩
      rw [Frame.Starts, hframe.start_ask]
      exact hstarts
    | pass ht hk => exact List.forall_mem_cons.2 ⟨ht.starts hframe (.inl hk) _, hbelow⟩
    | enter ht hk =>
      refine List.forall_mem_cons.2
        ⟨?_, List.forall_mem_cons.2 ⟨ht.starts hframe (.inl hk) _, hbelow⟩⟩
      refine Frame.starts_enter hframe ?_ _
      rw [ht.rest, (Token.kind_eq_block_iff ht.read).1 hk]
      exact ⟨[], Byte.openBrace, by decide, rfl⟩

/-! ## A source that goes on -/

/-- A scope takes one token at a time. -/
theorem Frame.Takes.settled {w : Surroundings} {frame : Frame} {below : List Frame} {b : UInt8}
    {s : Bytes} {t : Token} (ht : frame.Takes b s t) (hs : t.Settled (b :: s) w.after) :
    frame.Settled w below := by
  constructor
  · rintro (hnil | hle)
    · rw [ht.rest] at hnil
      cases hnil
    · exact absurd ht.lt_stop (Nat.not_lt.2 hle)
  · intro b' s' t' ht'
    have hr := ht'.rest
    rw [ht.rest] at hr
    cases hr
    have hread := ht'.read
    rw [ht.read] at hread
    cases hread
    exact hs

/-- What a scope with a token before it is still to read ends as the source does. -/
theorem Frame.Takes.endsInBreak {opts : LexOptions} {src : Bytes} {frame : Frame} {b : UInt8} {s : Bytes}
    {t : Token} (ht : frame.Takes b s t) (hlies : frame.Lies opts src)
    (hsrc : src = [] ∨ EndsInBreak src) : EndsInBreak (b :: s) := by
  have hdrop : src.drop frame.cursor.offset = b :: s := hlies.rest_eq.symm.trans ht.rest
  rcases hsrc with rfl | hbreak
  · rw [List.drop_nil] at hdrop
    cases hdrop
  · rw [← hdrop]
    refine hbreak.drop ?_
    have hlen := congrArg List.length hdrop
    rw [List.length_drop, List.length_cons] at hlen
    omega

/-- The scan is over: its last scope is closed, or has come to the end of the source inside a
    statement. -/
inductive Over (src : Bytes) : List Frame → Prop
  | closed : Over src []
  | inside {frame : Frame} (hrest : frame.cursor.rest = [])
      (hstart : frame.statement.start.offset < src.length) : Over src [frame]

/-- What a scope inside a block does next does not depend on what follows the source. -/
theorem Frame.Lies.settled_inner {opts : LexOptions} {src : Bytes} {w : Surroundings} {frame outer : Frame}
    {below : List Frame} (hlies : frame.Lies opts src) (hsrc : src = [] ∨ EndsInBreak src)
    (hclose : frame.cursor.ClosesAt frame.stop) : frame.Settled w (outer :: below) := by
  constructor
  · intro hend
    exact .inr ⟨List.cons_ne_nil _ _, Nat.le_of_eq (hclose.rest_of_end hend).1.symm⟩
  · intro b s t ht
    refine .inr ⟨ht.endsInBreak hlies hsrc, .inl ?_⟩
    -- the brace that closes the block comes behind the token
    obtain ⟨b', s', hrest, -⟩ := (ht.closesAt hclose).token
    have hlen := congrArg List.length hrest
    simp only [Cursor.rest_advance, ht.rest, List.length_drop, List.length_cons] at hlen ⊢
    omega

/-- What a scope does next does not depend on what follows the source, or the source is then over and
    the scope is inside a statement. -/
theorem Frame.Lies.settled_or_over {opts : LexOptions} {src : Bytes} {w : Surroundings}
    {st next : ScanState} {frame : Frame} {below : List Frame} (hlies : frame.Lies opts src)
    (hstacked : Stacked src (frame :: below)) (hsrc : src = [] ∨ EndsInBreak src)
    (hs : Step opts st frame below next) : frame.Settled w below ∨ Over src next.frames := by
  cases hstacked with
  | inner hclose => exact .inl (hlies.settled_inner hsrc hclose)
  | bottom =>
    -- a token that comes to the end of the source may go on, if it ends no statement
    have token : ∀ {b s t}, frame.Takes b s t → ∀ {frame' : Frame},
        frame'.cursor = frame.cursor.advance t.length →
        frame'.statement.start = frame.statement.start →
        frame.Settled w [] ∨ Over src [frame'] := by
      intro b s t ht frame' hcursor hstart
      rcases Nat.lt_or_ge t.length (b :: s).length with hlt | hge
      · exact .inl (ht.settled (.inr ⟨ht.endsInBreak hlies hsrc, .inl hlt⟩))
      · refine .inr (.inside ?_ ?_)
        · rw [hcursor, Cursor.rest_advance, ht.rest]
          exact List.drop_eq_nil_of_le hge
        · have hle := hlies.walk.offset_le
          have hlen := congrArg List.length (hlies.rest_eq.symm.trans ht.rest)
          rw [List.length_drop, List.length_cons] at hlen
          rw [hstart]
          omega
    -- what ends a statement is read for good
    have ends : ∀ {b s t}, frame.Takes b s t → t.kind = .block ∨ t.kind = .semicolon →
        frame.Settled w [] := fun ht hk =>
      ht.settled (.inr ⟨ht.endsInBreak hlies hsrc, .inr hk⟩)
    cases hs with
    | close => exact .inr .closed
    | skip ht => exact token ht rfl rfl
    | semicolon ht hk => exact .inl (ends ht (.inr hk))
    | literal ht => exact token ht rfl (hlies.start_ask _)
    | pass ht hk => exact .inl (ends ht (.inl hk))
    | enter ht hk => exact .inl (ends ht (.inl hk))

/-- What follows a source. -/
def Surroundings.followedBy (more : Bytes) : Surroundings := ⟨0, 0, [], more⟩

/-- A scan that has just begun is that of the longer source. -/
theorem ScanState.start_within_append (opts : LexOptions) (src more : Bytes) :
    (ScanState.start opts src).Within opts (.followedBy more) (ScanState.start opts (src ++ more)) := by
  refine ⟨.cons (Frame.within_enter rfl ?_) .nil, rfl, rfl⟩
  show (src ++ more).length = 0 + src.length + more.length
  rw [List.length_append, Nat.zero_add]

/-- **A scan of a source goes as the scan of any longer one does**, until it is over inside a
    statement or closed. -/
theorem Reachable.within_append {opts : LexOptions} {src : Bytes} {st : ScanState}
    (h : Reachable opts src st) (hsrc : src = [] ∨ EndsInBreak src) (more : Bytes) :
    (∃ st', Reachable opts (src ++ more) st' ∧ st.Within opts (.followedBy more) st') ∨
      Over src st.frames := by
  induction h with
  | start => exact .inl ⟨_, .start, ScanState.start_within_append opts src more⟩
  | @step st next frame below hst hf hs ih =>
    obtain ⟨hframe, hstacked⟩ := hst.top hf
    rw [hf] at ih
    have hstep := step_of_eq_ok hs
    rcases ih with ⟨st', hst', hw⟩ | hover
    · rcases hframe.settled_or_over (w := .followedBy more) hstacked hsrc hstep with hset | hover
      · have hframes := hw.frames
        rw [hf] at hframes
        obtain ⟨frame', below', hf', hframe', hbelow⟩ := hframes.of_cons
        obtain ⟨next', hs', hnext⟩ := hw.step hframe' hbelow hframe hset hstep
        exact .inl ⟨next', hst'.step hf' hs', hnext⟩
      · exact .inr hover
    · -- there is nothing left to read, so the scope has been closed
      cases hover with
      | inside hrest =>
        cases hstep with
        | close => exact .inr .closed
        | skip ht | semicolon ht | literal ht | pass ht | enter ht =>
          rw [ht.rest] at hrest
          cases hrest

/-! ## Both parts -/

/-- The run that a state comes from ends as the run from there does. -/
theorem Reachable.run_eq {opts : LexOptions} {src : Bytes} {st : ScanState}
    (h : Reachable opts src st) : (ScanState.start opts src).run opts = st.run opts := by
  induction h with
  | start => rfl
  | @step st next frame below _ hf hs ih =>
    obtain ⟨frames, line, found⟩ := st
    cases hf
    rw [ih, ScanState.run_cons, hs]

/-- Where only the outermost scope is open and nothing is left to read, the run is over. -/
theorem Reachable.run_of_rest_nil {opts : LexOptions} {src : Bytes} {st : ScanState} {frame : Frame}
    (h : Reachable opts src st) (hf : st.frames = [frame]) (hrest : frame.cursor.rest = []) :
    (ScanState.start opts src).run opts = .ok ⟨[], st.line, st.found⟩ := by
  obtain ⟨frames, line, found⟩ := st
  cases hf
  rw [h.run_eq, ScanState.run_cons, ScanState.step_of_end (.inl hrest)]
  exact ScanState.run_nil line found

/-- A source at whose end a statement starts is empty or ends in a break. -/
theorem Reachable.endsInBreak {opts : LexOptions} {src : Bytes} {st : ScanState} {frame : Frame}
    (h : Reachable opts src st) (hf : frame ∈ st.frames)
    (hstart : frame.statement.start.offset = src.length) : src = [] ∨ EndsInBreak src := by
  have hstarts := h.starts frame hf
  rw [Frame.Starts, hstart, List.take_length] at hstarts
  exact hstarts.imp_left List.length_eq_zero_iff.1

/-- Lines are counted from one. -/
theorem Reachable.line_pos {opts : LexOptions} {src : Bytes} {st : ScanState}
    (h : Reachable opts src st) : 0 < st.line := by
  induction h with
  | start => exact Nat.one_pos
  | step _ _ hs ih =>
    cases step_of_eq_ok hs with
    | close | semicolon | enter => exact ih
    | skip | literal | pass => exact Nat.lt_of_lt_of_le ih (Nat.le_add_right _ _)

/-- Behind a break no name is under way. -/
theorem EndsInBreak.leadOf_eq {s : Bytes} (h : EndsInBreak s) : leadOf s = none := by
  obtain ⟨u, x, hx, rfl⟩ := h
  have hname : Byte.isNameByte x = false :=
    Byte.eq_false_of_mem_stops (by decide) (Byte.mem_stops_of_mem_breaks hx)
  rw [leadOf_concat, nextLead, if_neg (by simp [hname])]

/-- What is unclosed in the second part is unclosed in the whole. -/
theorem Unclosed.inSource_append (a b : Bytes) (e : Unclosed) :
    (e.shift a.length).inSource (a ++ b) =
      ⟨⟨e.construct, (e.inSource b).offset + a.length⟩, (e.inSource b).line + newlines a⟩ := by
  have hmin : min (e.offset + a.length) (a ++ b).length = a.length + min e.offset b.length := by
    rw [List.length_append]
    omega
  have hline : newlines ((a ++ b).take (a.length + min e.offset b.length)) =
      newlines a + newlines (b.take (min e.offset b.length)) := by
    rw [List.take_length_add_append, newlines_append]
  simp only [Unclosed.inSource, Malformed.ofSource, Unclosed.shift, hmin, hline]
  simp only [Malformed.mk.injEq, Unclosed.mk.injEq, true_and]
  omega

/-- The scan of a source ends in `last`; and when its outermost scope has come to the end of the
    source, there a statement starts. -/
structure EndsAtStatement (opts : LexOptions) (src : Bytes) (last : ScanState) : Prop where
  run : (ScanState.start opts src).run opts = .ok last
  boundary : ∃ st frame, Reachable opts src st ∧ st.frames = [frame] ∧ frame.cursor.rest = [] ∧
    frame.statement.start.offset = src.length

/-- If the statement of a scope starts at the end of the source, the scope has come there too. -/
theorem Frame.Lies.cursor_eq_of_end {opts : LexOptions} {src : Bytes} {frame : Frame}
    (h : frame.Lies opts src) (hstart : frame.statement.start.offset = src.length) :
    frame.statement.start = .ofOffset src src.length ∧ frame.cursor = .ofOffset src src.length := by
  obtain ⟨start, pos, hat⟩ := h.isAt
  have hoffset : start = src.length := by
    rw [hat.start, Cursor.offset_ofOffset] at hstart
    exact hstart
  have hstart' : frame.statement.start = .ofOffset src src.length := by rw [hat.start, hoffset]
  -- nothing is left for the walk from the start of the statement
  have hrest : frame.statement.start.rest = [] := by
    rw [hstart', Cursor.rest_ofOffset]
    exact List.drop_length
  exact ⟨hstart', (h.walk.eq_of_rest_nil hrest).trans hstart'⟩

/-- The start of the second source is the end of the first, where a statement starts. -/
theorem ScanState.start_within_behind {opts : LexOptions} {a b : Bytes} {st st' : ScanState}
    {frame : Frame} (hst : Reachable opts a st) (hf : st.frames = [frame])
    (hstart : frame.statement.start.offset = a.length) (ha : a = [] ∨ EndsInBreak a)
    (hw : st.Within opts (.followedBy b) st') :
    (ScanState.start opts b).Within opts ⟨a.length, st.line - 1, st.found.toList, []⟩ st' := by
  obtain ⟨hlies, hstacked⟩ := hst.placed
  have hframes := hw.frames
  rw [hf] at hlies hstacked hframes
  obtain ⟨frame', below', hf', hframe', hbelow'⟩ := hframes.of_cons
  obtain ⟨hstatement, hcursor⟩ := (hlies frame List.mem_cons_self).cursor_eq_of_end hstart
  have hlead : leadOf a = none := by
    rcases ha with rfl | hbreak
    · rfl
    · exact hbreak.leadOf_eq
  -- seen from either source, the place between them is the same
  have hseam : (Cursor.ofOffset a a.length).within (.followedBy b) =
      (Cursor.start b).within ⟨a.length, st.line - 1, st.found.toList, []⟩ := by
    rw [Cursor.ofOffset_eq, List.take_length, List.drop_length, hlead, Cursor.within, Cursor.within]
    simp [Surroundings.followedBy, Cursor.start]
  refine ⟨?_, ?_, ?_⟩
  · rw [hf']
    cases hbelow'
    refine .cons ⟨?_, ?_, ?_, hframe'.knows⟩ .nil
    · rw [hframe'.cursor, hcursor, hseam]
      rfl
    · cases hstacked with
      | bottom hstop =>
        rw [hframe'.stop, hstop]
        simp [Surroundings.followedBy, Surroundings.beyond]
    · rw [hframe'.start, hstatement, hseam]
      rfl
  · have hpos := hst.line_pos
    rw [hw.line]
    show st.line + 0 = 1 + (st.line - 1)
    omega
  · have hfound : Finding.within (.followedBy b) = id := by
      funext f
      simp [Finding.within, Surroundings.followedBy]
    rw [hw.found, hfound, List.map_id]
    exact (List.append_nil _).symm

/-- **The second of two sources is scanned behind the first as it is scanned alone.**  If a scan of `a`
    ends at the start of a statement, the findings in `a ++ b` are those in `a` and behind them those in
    `b`, each as many bytes further as `a` is long and as many lines as were counted in it; and if `b`
    cannot be scanned, `a ++ b` cannot for the same reason. -/
theorem scan_append {opts : LexOptions} {a b : Bytes} {last : ScanState}
    (h : EndsAtStatement opts a last) :
    scan opts a = .ok last.found.toList ∧
    (∀ found, scan opts b = .ok found →
      scan opts (a ++ b) =
        .ok (last.found.toList ++
          found.map fun f => ⟨f.line + (last.line - 1), f.offset + a.length, f.bytes⟩)) ∧
    (∀ e, scan opts b = .error e →
      scan opts (a ++ b) =
        .error ⟨⟨e.construct, e.offset + a.length⟩, e.line + newlines a⟩) := by
  obtain ⟨st, frame, hst, hf, hrest, hstart⟩ := h.boundary
  have ha : a = [] ∨ EndsInBreak a :=
    hst.endsInBreak (by rw [hf]; exact List.mem_cons_self) hstart
  have hlast : last = ⟨[], st.line, st.found⟩ := by
    have hrun := h.run
    rw [hst.run_of_rest_nil hf hrest] at hrun
    cases hrun
    rfl
  have hst' : ∃ st', Reachable opts (a ++ b) st' ∧ st.Within opts (.followedBy b) st' := by
    rcases hst.within_append ha b with hst' | hover
    · exact hst'
    · rw [hf] at hover
      cases hover with
      | inside _ hlt => exact absurd hstart (Nat.ne_of_lt hlt)
  obtain ⟨st', hst', hw⟩ := hst'
  -- from here on the scan of both sources is that of the second
  have hbehind := ScanState.start_within_behind hst hf hstart ha hw
  obtain ⟨hok, herror⟩ := ScanState.Within.run rfl .start hbehind
  refine ⟨?_, ?_, ?_⟩
  · rw [scan, h.run]
  · intro found hfound
    obtain ⟨lastB, hrun, rfl⟩ := run_of_scan_ok hfound
    obtain ⟨last', hlast', hwithin⟩ := hok lastB hrun
    rw [scan, hst'.run_eq, hlast']
    simp only [hwithin.found, hlast]
    rfl
  · intro e he
    obtain ⟨u, hrun, rfl⟩ := run_of_scan_error he
    rw [scan, hst'.run_eq, herror u hrun]
    exact congrArg Except.error (Unclosed.inSource_append a b u)

/-- A block behind a statement is scanned as it is alone, though its brace is then not the first byte;
    left open, it is what fails the whole. -/
theorem scan_append_block :
    let a := Bytes.ofString "\n\x7b2\x7d;"
    EndsAtStatement {} a ⟨[], 2, #[⟨2, 2, Bytes.ofString "2"⟩]⟩ ∧
    scan {} (a ++ Bytes.ofString "\x7b\n4\x7d") =
      .ok [⟨2, 2, Bytes.ofString "2"⟩, ⟨3, 7, Bytes.ofString "4"⟩] ∧
    scan {} (a ++ Bytes.ofString "\x7b\n4") = .error ⟨⟨.brace, 5⟩, 2⟩ := by
  intro a
  have hsteps : (ScanState.start {} a).steps {} 5 =
      .ok ⟨[.enter {} ⟨5, none, []⟩ 5], 2, #[⟨2, 2, Bytes.ofString "2"⟩]⟩ :=
    eq_ok_of_toOption (by decide +kernel)
  have hrun : (ScanState.start {} a).run {} = .ok ⟨[], 2, #[⟨2, 2, Bytes.ofString "2"⟩]⟩ :=
    eq_ok_of_toOption (by decide +kernel)
  have h : EndsAtStatement {} a ⟨[], 2, #[⟨2, 2, Bytes.ofString "2"⟩]⟩ :=
    ⟨hrun, _, _, Reachable.start.steps hsteps, rfl, rfl, rfl⟩
  have hblock : scan {} (Bytes.ofString "\x7b\n4\x7d") = .ok [⟨2, 2, Bytes.ofString "4"⟩] :=
    eq_ok_of_toOption (by decide +kernel)
  have hopen : scan {} (Bytes.ofString "\x7b\n4") = .error ⟨⟨.brace, 0⟩, 1⟩ :=
    scan_eq_error_of_scanInto [] (by decide +kernel)
  exact ⟨h, (scan_append h).2.1 _ hblock, (scan_append h).2.2 _ hopen⟩

end MagicNumbers
