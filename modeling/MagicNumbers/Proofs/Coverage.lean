/-
  What a scan looks at, and how often.

  A scope that opens a block moves behind it at once and leaves what the block holds to a new scope, so
  the place of no single scope tells how far a scan has come.  The work left in all of them does: a step
  for each byte, and one to close each scope.  Opening a block uses up the brace that opens it, and the
  brace that closes it pays for closing the new scope.

  * `ScanState.visits` — a record of a run: for each step its scope, what it does, and to which bytes.
  * `work_step` — a step leaves less work, so there is at most one step more than there are bytes.
  * `Traverses` — which visits take a scope from a place to its end, told by the source alone.
  * `CloseAll.of_step`, `traverses_of_scan` — the visits of a scan that succeeds are those.
  * `scan_visits_once` — so every scan ends in time, and one that succeeds looks at each byte once.
-/
import MagicNumbers.Proofs.Nesting

namespace MagicNumbers

/-! ## Visits -/

/-- What a step does. -/
inductive Act where
  /-- It takes a token.  A block that is taken is passed over as a whole. -/
  | take (kind : TokenKind)
  /-- It opens a scope at the brace of a block. -/
  | enter
  /-- It closes a scope, at the brace it ends at unless it is the outermost. -/
  | leave
  /-- It meets something that is not closed. -/
  | fail
  deriving DecidableEq, Repr

/-- A step seen from the source: the scope whose step it is, which is known by the offset it ends at,
    what the step does, and the bytes it does that to. -/
structure Visit where
  scope : Nat
  act : Act
  start : Nat
  length : Nat
  deriving DecidableEq, Repr

/-- The offset behind the bytes of a visit. -/
def Visit.stop (v : Visit) : Nat := v.start + v.length

/-- The byte at `pos` is one of those that the visit is about. -/
def Visit.LooksAt (v : Visit) (pos : Nat) : Prop := v.start ≤ pos ∧ pos < v.stop

/-- The visit that closes a scope.  It takes the brace with it, and the outermost scope has none. -/
def Frame.leaving (frame : Frame) (below : List Frame) : Visit :=
  ⟨frame.stop, .leave, frame.cursor.offset, if below.isEmpty then 0 else 1⟩

/-- The visit that the next step of the innermost scope `frame` is. -/
def Frame.visit (frame : Frame) (below : List Frame) : Visit :=
  let c := frame.cursor
  match c.rest with
  | [] => frame.leaving below
  | b :: s =>
    if frame.stop ≤ c.offset then frame.leaving below
    else
      match Token.read c.lead b s with
      | .error _ => ⟨frame.stop, .fail, c.offset, 0⟩
      | .ok ⟨.block, n⟩ =>
        match (frame.statement.ask (c.offset - 1)).1 with
        | .ok false => ⟨frame.stop, .enter, c.offset, 1⟩
        | _ => ⟨frame.stop, .take .block, c.offset, n⟩
      | .ok ⟨kind, n⟩ => ⟨frame.stop, .take kind, c.offset, n⟩

/-- The visits of a run, one for each of its steps.  A step that fails is the last. -/
def ScanState.visits (opts : LexOptions) (st : ScanState) : List Visit :=
  match _hf : st.frames with
  | [] => []
  | frame :: below =>
    match _hs : step opts st frame below with
    | .error _ => [frame.visit below]
    | .ok st => frame.visit below :: visits opts st
termination_by weight st.frames
decreasing_by
  rw [_hf]
  exact weight_step _hs

section

variable {frame : Frame} {below : List Frame} {b : UInt8} {s : Bytes} {t : Token}

theorem Frame.visit_of_end (h : frame.cursor.rest = [] ∨ frame.stop ≤ frame.cursor.offset) :
    frame.visit below = frame.leaving below := by
  rw [Frame.visit]
  split
  · rfl
  · next hr =>
    rcases h with h | h
    · rw [hr] at h; cases h
    · exact if_pos h

/-- A token that is no block is taken. -/
theorem Frame.Takes.visit_eq (ht : frame.Takes b s t) (hk : t.kind ≠ .block) :
    frame.visit below = ⟨frame.stop, .take t.kind, frame.cursor.offset, t.length⟩ := by
  obtain ⟨kind, n⟩ := t
  cases kind with
  | block => exact absurd rfl hk
  | _ => simp only [Frame.visit, ht.rest, if_neg (Nat.not_le.2 ht.lt_stop), ht.read]

/-- The block of a constant is taken as a whole. -/
theorem Frame.Takes.visit_of_safe (ht : frame.Takes b s t) (hk : t.kind = .block)
    (ha : (frame.statement.ask (frame.cursor.offset - 1)).1 = .ok true) :
    frame.visit below = ⟨frame.stop, .take .block, frame.cursor.offset, t.length⟩ := by
  obtain ⟨kind, n⟩ := t
  cases hk
  simp only [Frame.visit, ht.rest, if_neg (Nat.not_le.2 ht.lt_stop), ht.read, ha]

/-- Of any other block the brace is taken. -/
theorem Frame.Takes.visit_of_not_safe (ht : frame.Takes b s t) (hk : t.kind = .block)
    (ha : (frame.statement.ask (frame.cursor.offset - 1)).1 = .ok false) :
    frame.visit below = ⟨frame.stop, .enter, frame.cursor.offset, 1⟩ := by
  obtain ⟨kind, n⟩ := t
  cases hk
  simp only [Frame.visit, ht.rest, if_neg (Nat.not_le.2 ht.lt_stop), ht.read, ha]

end

/-! ## How many steps there are -/

/-- The work left in some scopes: a step for each byte, and one to close the scope. -/
def work : List Frame → Nat
  | [] => 0
  | frame :: below => frame.stop - frame.cursor.offset + 1 + work below

/-- **A step leaves less work.** -/
theorem work_step {opts : LexOptions} {src : Bytes} {st st' : ScanState} {frame : Frame}
    {below : List Frame} (hlies : frame.Lies opts src) (h : Stacked src (frame :: below))
    (hs : Step opts st frame below st') : work st'.frames < work (frame :: below) := by
  cases hs with
  | close =>
    show work below < _
    rw [work]
    omega
  | skip ht | semicolon ht | literal ht | pass ht =>
    have hpos := (Token.read_bounds ht.read).1
    have hle := ht.offset_le hlies h
    simp only [work, Frame.cursor_enter, Frame.stop_enter, Cursor.offset_advance]
    omega
  | enter ht hk =>
    -- the bytes of the block but its braces, and those behind it
    have hpos := (blockLength_bounds (Token.blockLength_of_read ht.read hk)).1
    have hle := ht.offset_le hlies h
    simp only [work, Frame.cursor_enter, Frame.stop_enter, Cursor.offset_advance]
    omega

/-- No run has more steps than there is work. -/
theorem Reachable.length_visits_le {opts : LexOptions} {src : Bytes} {st : ScanState}
    (h : Reachable opts src st) : (st.visits opts).length ≤ work st.frames := by
  fun_induction ScanState.visits opts st with
  | case1 => exact Nat.zero_le _
  | case2 st frame below hf =>
    rw [hf, work, List.length_singleton]
    omega
  | case3 st frame below hf st' hs ih =>
    obtain ⟨hlies, hstacked⟩ := h.top hf
    have hless := work_step hlies hstacked (step_of_eq_ok hs)
    have hrest := ih (h.step hf hs)
    rw [hf, List.length_cons]
    omega

/-- When all its steps are taken, a run is over. -/
theorem ScanState.steps_eq_run {opts : LexOptions} {st : ScanState} {n : Nat}
    (h : (st.visits opts).length ≤ n) : st.steps opts n = st.run opts := by
  fun_induction ScanState.visits opts st generalizing n with
  | case1 st hf =>
    obtain ⟨frames, line, found⟩ := st
    cases hf
    rw [ScanState.run_nil]
    cases n <;> rfl
  | case2 st frame below hf e hs =>
    obtain ⟨n, rfl⟩ := Nat.exists_eq_add_of_le' h
    rw [ScanState.run_of_frames hf, hs, List.length_singleton, ScanState.steps]
    simp only [hf, hs]
  | case3 st frame below hf st' hs ih =>
    rw [List.length_cons] at h
    obtain ⟨n, rfl⟩ : ∃ m, n = m + 1 := ⟨n - 1, by omega⟩
    rw [ScanState.run_of_frames hf, hs, ScanState.steps]
    simp only [hf, hs]
    exact ih (Nat.le_of_succ_le_succ h)

/-! ## Bytes end to end -/

/-- The first visit starts at the one offset, each other where the one before it stops, and the last
    stops at the other offset. -/
inductive EndToEnd : Nat → List Visit → Nat → Prop
  | nil (pos : Nat) : EndToEnd pos [] pos
  | cons {v : Visit} {visits : List Visit} {stop : Nat} (h : EndToEnd v.stop visits stop) :
      EndToEnd v.start (v :: visits) stop

theorem EndToEnd.append {start mid stop : Nat} {us vs : List Visit} (hu : EndToEnd start us mid)
    (hv : EndToEnd mid vs stop) : EndToEnd start (us ++ vs) stop := by
  induction hu with
  | nil => exact hv
  | cons _ ih => exact .cons (ih hv)

/-- No visit starts before the first. -/
theorem EndToEnd.start_le {start stop : Nat} {visits : List Visit} (h : EndToEnd start visits stop) :
    ∀ v ∈ visits, start ≤ v.start := by
  induction h with
  | nil => exact List.forall_mem_nil _
  | @cons v _ _ _ ih =>
    refine List.forall_mem_cons.2 ⟨Nat.le_refl _, fun u hu => ?_⟩
    exact Nat.le_trans (Nat.le_add_right v.start v.length) (ih u hu)

/-- **Of visits that lie end to end just one looks at each byte.** -/
theorem EndToEnd.existsUnique {start stop : Nat} {visits : List Visit}
    (h : EndToEnd start visits stop) {pos : Nat} (hstart : start ≤ pos) (hstop : pos < stop) :
    ∃! i : Nat, ∃ v, visits[i]? = some v ∧ v.LooksAt pos := by
  induction h with
  | nil => omega
  | @cons v visits stop h ih =>
    by_cases hv : pos < v.stop
    · refine ⟨0, ⟨v, rfl, hstart, hv⟩, ?_⟩
      rintro (_ | i) ⟨u, hu, hle, -⟩
      · rfl
      · -- a later visit starts where this one stops, or further on
        have hge := h.start_le u (List.mem_of_getElem? hu)
        omega
    · obtain ⟨i, ⟨u, hu, hlooks⟩, hunique⟩ := ih (Nat.le_of_not_lt hv) hstop
      refine ⟨i + 1, ⟨u, hu, hlooks⟩, ?_⟩
      rintro (_ | j) ⟨w, hw, hlooks'⟩
      · cases hw
        exact absurd hlooks'.2 hv
      · rw [hunique j ⟨w, hw, hlooks'⟩]

/-! ## The visits of a scope -/

/-- The visits that take the scope with the end `stop` from `pos` to its end, where `statement` is the
    start of the statement that `pos` belongs to.  They are told by the source alone: which tokens it
    holds, where its blocks end, and whether the header of a block declares a constant. -/
inductive Traverses (opts : LexOptions) (src : Bytes) : Nat → Nat → Nat → List Visit → Prop
  | done {stop statement : Nat} : Traverses opts src stop statement stop []
  /-- A comment, a literal, a number, the rest of a name, or a byte by itself. -/
  | token {stop statement pos : Nat} {b : UInt8} {s : Bytes} {t : Token} {visits : List Visit}
      (hs : src.drop pos = b :: s) (ht : Token.read (leadOf (src.take pos)) b s = .ok t)
      (hk : t.IsSkipped ∨ t.IsLiteral)
      (h : Traverses opts src stop statement (pos + t.length) visits) :
      Traverses opts src stop statement pos (⟨stop, .take t.kind, pos, t.length⟩ :: visits)
  /-- A semicolon, behind which the next statement starts. -/
  | semicolon {stop statement pos : Nat} {visits : List Visit}
      (hb : src[pos]? = some Byte.semicolon) (h : Traverses opts src stop (pos + 1) (pos + 1) visits) :
      Traverses opts src stop statement pos (⟨stop, .take .semicolon, pos, 1⟩ :: visits)
  /-- The block of a constant, as a whole. -/
  | pass {stop statement pos n : Nat} {visits : List Visit}
      (hopen : src[pos]? = some Byte.openBrace) (hclose : blockStop src pos = .ok (pos + n))
      (hsafe : rangeHoldsAll src statement (pos - 1) opts.safeKeywords = .ok true)
      (h : Traverses opts src stop (pos + n) (pos + n) visits) :
      Traverses opts src stop statement pos (⟨stop, .take .block, pos, n⟩ :: visits)
  /-- The brace of any other block, the visits of the scope inside, and the brace that closes it. -/
  | enter {stop statement pos last : Nat} {inner visits : List Visit}
      (hopen : src[pos]? = some Byte.openBrace) (hclose : blockStop src pos = .ok (last + 1))
      (hbrace : src[last]? = some Byte.closeBrace)
      (hsafe : rangeHoldsAll src statement (pos - 1) opts.safeKeywords = .ok false)
      (hinner : Traverses opts src last (pos + 1) (pos + 1) inner)
      (h : Traverses opts src stop (last + 1) (last + 1) visits) :
      Traverses opts src stop statement pos
        (⟨stop, .enter, pos, 1⟩ :: inner ++ ⟨last, .leave, last, 1⟩ :: visits)

/-- **The visits of a scope lie end to end.** -/
theorem Traverses.endToEnd {opts : LexOptions} {src : Bytes} {stop statement pos : Nat}
    {visits : List Visit} (h : Traverses opts src stop statement pos visits) :
    EndToEnd pos visits stop := by
  induction h with
  | done => exact .nil _
  | token _ _ _ _ ih => exact .cons (v := ⟨_, _, _, _⟩) ih
  | semicolon _ _ ih => exact .cons (v := ⟨_, _, _, _⟩) ih
  | pass _ _ _ _ ih => exact .cons (v := ⟨_, _, _, _⟩) ih
  | enter _ _ _ _ _ _ ihinner ih =>
    exact .append (.cons (v := ⟨_, _, _, _⟩) ihinner) (.cons (v := ⟨_, _, _, _⟩) ih)

/-- No visit of a scope is about nothing. -/
theorem Traverses.length_pos {opts : LexOptions} {src : Bytes} {stop statement pos : Nat}
    {visits : List Visit} (h : Traverses opts src stop statement pos visits) :
    ∀ v ∈ visits, 0 < v.length := by
  induction h with
  | done => exact List.forall_mem_nil _
  | token _ ht _ _ ih => exact List.forall_mem_cons.2 ⟨(Token.read_bounds ht).1, ih⟩
  | semicolon _ _ ih => exact List.forall_mem_cons.2 ⟨Nat.one_pos, ih⟩
  | @pass _ _ pos n _ hopen hclose _ _ ih =>
    obtain ⟨m, hm, heq⟩ := map_locate_eq_ok_iff.1 hclose
    rw [drop_of_getElem? hopen] at hm
    have hbounds := (blockLength_bounds hm).1
    have hpos : 0 < n := by omega
    exact List.forall_mem_cons.2 ⟨hpos, ih⟩
  | enter _ _ _ _ _ _ ihinner ih =>
    exact List.forall_mem_append.2
      ⟨List.forall_mem_cons.2 ⟨Nat.one_pos, ihinner⟩, List.forall_mem_cons.2 ⟨Nat.one_pos, ih⟩⟩

/-! ## The visits of a run -/

/-- The visits that take each of some scopes to its end and close it, the innermost first. -/
inductive CloseAll (opts : LexOptions) (src : Bytes) : List Frame → List Visit → Prop
  | nil : CloseAll opts src [] []
  | cons {frame : Frame} {below : List Frame} {inner outer : List Visit}
      (hinner : Traverses opts src frame.stop frame.statement.start.offset frame.cursor.offset inner)
      (h : CloseAll opts src below outer) :
      CloseAll opts src (frame :: below)
        (inner ++ ⟨frame.stop, .leave, frame.stop, if below.isEmpty then 0 else 1⟩ :: outer)

/-- The header of a block is asked for as it stands in the source. -/
theorem Frame.Lies.rangeHoldsAll_eq {opts : LexOptions} {src : Bytes} {frame : Frame} {safe : Bool}
    (h : frame.Lies opts src) {bound : Nat} (ha : (frame.statement.ask bound).1 = .ok safe) :
    rangeHoldsAll src frame.statement.start.offset bound opts.safeKeywords = .ok safe := by
  obtain ⟨start, pos, hat⟩ := h.isAt
  rw [hat.start, Cursor.offset_ofOffset, ← hat.locate_ask, ha, locate_ok]

/-- A token of the scope is one of the source. -/
theorem Frame.Lies.read_eq {opts : LexOptions} {src : Bytes} {frame : Frame} {b : UInt8} {s : Bytes}
    {t : Token} (h : frame.Lies opts src) (ht : frame.Takes b s t) :
    src.drop frame.cursor.offset = b :: s ∧
      Token.read (leadOf (src.take frame.cursor.offset)) b s = .ok t := by
  obtain ⟨start, pos, hat⟩ := h.isAt
  rw [hat.offset_eq, ← hat.rest_eq, ← hat.lead_eq]
  exact ⟨ht.rest, ht.read⟩

/-- **A step is the first of the visits that close all scopes.** -/
theorem CloseAll.of_step {opts : LexOptions} {src : Bytes} {st st' : ScanState} {frame : Frame}
    {below : List Frame} {visits : List Visit} (hlies : frame.Lies opts src)
    (hstacked : Stacked src (frame :: below)) (hle : frame.cursor.offset ≤ frame.stop)
    (hs : Step opts st frame below st') (h : CloseAll opts src st'.frames visits) :
    CloseAll opts src (frame :: below) (frame.visit below :: visits) := by
  cases hs with
  | close hend =>
    have heq := hstacked.offset_eq_of_end hlies hle hend
    have hdone : Traverses opts src frame.stop frame.statement.start.offset frame.cursor.offset [] :=
      heq ▸ .done
    rw [Frame.visit_of_end hend, Frame.leaving, heq]
    exact CloseAll.cons hdone h
  | @skip b s t ht hk =>
    obtain ⟨hdrop, hread⟩ := hlies.read_eq ht
    rw [ht.visit_eq hk.ne_block]
    cases h with
    | cons hinner h =>
      rw [Cursor.offset_advance] at hinner
      exact CloseAll.cons (.token hdrop hread (.inl hk) hinner) h
  | @semicolon b s t ht hk =>
    obtain ⟨hdrop, hread⟩ := hlies.read_eq ht
    rw [ht.visit_eq (by rw [hk]; nofun)]
    cases Token.reads_of_read hread with
    | semicolon hb =>
      cases h with
      | cons hinner h =>
        rw [Frame.start_enter, Frame.cursor_enter, Cursor.offset_advance] at hinner
        exact CloseAll.cons (.semicolon (hb ▸ getElem?_of_drop hdrop) hinner) h
    | _ => cases hk
  | @literal b s t safe ht hk ha =>
    obtain ⟨hdrop, hread⟩ := hlies.read_eq ht
    rw [ht.visit_eq hk.ne_block]
    cases h with
    | cons hinner h =>
      rw [hlies.start_ask, Cursor.offset_advance] at hinner
      exact CloseAll.cons (.token hdrop hread (.inr hk) hinner) h
  | @pass b s t ht hk ha =>
    obtain ⟨hopen, hclose⟩ := ht.blockStop hlies hk
    rw [ht.visit_of_safe hk ha]
    cases h with
    | cons hinner h =>
      rw [Frame.start_enter, Frame.cursor_enter, Cursor.offset_advance] at hinner
      exact CloseAll.cons (.pass hopen hclose (hlies.rangeHoldsAll_eq ha) hinner) h
  | @enter b s t ht hk ha =>
    -- the scope inside and the brace it ends at come before what is left of this one
    obtain ⟨hopen, hclose⟩ := ht.blockStop hlies hk
    have hpos := (Token.read_bounds ht.read).1
    have hlast : frame.cursor.offset + t.length = frame.cursor.offset + t.length - 1 + 1 := by omega
    have hbrace := (ht.inside_enter hlies hk).closeBrace
    rw [ht.visit_of_not_safe hk ha]
    cases h with
    | cons hinner h =>
      cases h with
      | cons houter h =>
        rw [Frame.stop_enter, Frame.start_enter, Frame.cursor_enter, Cursor.offset_advance]
          at hinner houter
        rw [hlast] at hclose houter
        have hall : CloseAll opts src (frame :: below) _ :=
          .cons (.enter hopen hclose hbrace (hlies.rangeHoldsAll_eq ha) hinner houter) h
        rwa [List.append_assoc, List.cons_append, List.cons_append] at hall

/-- **The visits of a run that succeeds close all its scopes.** -/
theorem Reachable.closeAll_of_run {opts : LexOptions} {src : Bytes} {st last : ScanState}
    (h : Reachable opts src st) (hr : st.run opts = .ok last) :
    CloseAll opts src st.frames (st.visits opts) := by
  fun_induction ScanState.visits opts st with
  | case1 st hf =>
    rw [hf]
    exact .nil
  | case2 st frame below hf e hs =>
    rw [ScanState.run_of_frames hf, hs] at hr
    cases hr
  | case3 st frame below hf st' hs ih =>
    obtain ⟨hlies, hstacked⟩ := h.top hf
    have hle : frame.cursor.offset ≤ frame.stop := by
      apply h.placed.2.offset_le h.offset_le_length
      rw [hf]
      exact List.mem_cons_self
    rw [ScanState.run_of_frames hf, hs] at hr
    rw [hf]
    exact .of_step hlies hstacked hle (step_of_eq_ok hs) (ih (h.step hf hs) hr)

/-- So a scan that succeeds visits what its source holds, and then closes the outermost scope. -/
theorem traverses_of_scan {opts : LexOptions} {src : Bytes} {found : List Finding}
    (h : scan opts src = .ok found) :
    ∃ seen, (ScanState.start opts src).visits opts = seen ++ [⟨src.length, .leave, src.length, 0⟩] ∧
      Traverses opts src src.length 0 0 seen := by
  obtain ⟨last, hrun, -⟩ := run_of_scan_ok h
  have hall := Reachable.start.closeAll_of_run hrun
  generalize (ScanState.start opts src).visits opts = visits at hall
  cases hall with
  | @cons _ _ seen _ htraverses hnil =>
    cases hnil
    exact ⟨seen, rfl, htraverses⟩

/-! ## Every scan -/

/-- **Every scan ends, and one that succeeds looks at each byte once.**  Whatever the source and the
    options, the run is over after at most one step more than there are bytes, where steps that close a
    scope or fail count too.  If it succeeds, its last step closes the outermost scope and is about no
    byte.  The visits before it are those that the source calls for: a token or a byte by itself, a
    constant's block as a whole, and for any other block the brace that opens it, the visits of the
    scope inside, and the brace that closes it.  They lie end to end from the start of the source to its
    end, so each byte is looked at by just one step, and in one scope. -/
theorem scan_visits_once (opts : LexOptions) (src : Bytes) :
    let visits := (ScanState.start opts src).visits opts
    visits.length ≤ src.length + 1 ∧
    (ScanState.start opts src).steps opts (src.length + 1) = (ScanState.start opts src).run opts ∧
    ∀ found, scan opts src = .ok found →
      ∃ seen, visits = seen ++ [⟨src.length, .leave, src.length, 0⟩] ∧
        Traverses opts src src.length 0 0 seen ∧ (∀ v ∈ seen, 0 < v.length) ∧
        EndToEnd 0 visits src.length ∧
        ∀ pos < src.length, ∃! i : Nat, ∃ v, visits[i]? = some v ∧ v.LooksAt pos := by
  intro visits
  have hlength : visits.length ≤ src.length + 1 := Reachable.start.length_visits_le
  refine ⟨hlength, ScanState.steps_eq_run hlength, fun found h => ?_⟩
  obtain ⟨seen, hvisits, htraverses⟩ := traverses_of_scan h
  have hends : EndToEnd 0 visits src.length := by
    rw [show visits = _ from hvisits]
    exact htraverses.endToEnd.append (.cons (v := ⟨_, _, _, _⟩) (.nil src.length))
  refine ⟨seen, hvisits, htraverses, htraverses.length_pos, hends, fun pos hpos => ?_⟩
  exact hends.existsUnique (Nat.zero_le pos) hpos

/-- A block with a comment and another block in it, and a constant's block behind it; the comment and
    the literal inside hold braces of their own. -/
theorem scan_visits_once_nested :
    let opts : LexOptions := ⟨[Bytes.ofString "a"], false⟩
    let src := Bytes.ofString "\x7b/*\x7d*/\x7b\"\x7d\"\x7d\x7da b\x7b9\x7d"
    let visits : List Visit :=
      [⟨18, .enter, 0, 1⟩, ⟨11, .take .comment, 1, 5⟩, ⟨11, .enter, 6, 1⟩, ⟨10, .take .quoted, 7, 3⟩,
        ⟨10, .leave, 10, 1⟩, ⟨11, .leave, 11, 1⟩, ⟨18, .take .other, 12, 1⟩,
        ⟨18, .take .other, 13, 1⟩, ⟨18, .take .other, 14, 1⟩, ⟨18, .take .block, 15, 3⟩,
        ⟨18, .leave, 18, 0⟩]
    scan opts src = .ok [⟨1, 7, Bytes.ofString "\"\x7d\""⟩] ∧
    (ScanState.start opts src).visits opts = visits ∧ visits.length ≤ src.length + 1 ∧
    EndToEnd 0 visits src.length ∧
    ∀ pos < src.length, ∃! i : Nat, ∃ v, visits[i]? = some v ∧ v.LooksAt pos := by
  intro opts src visits
  have h : scan opts src = .ok [⟨1, 7, Bytes.ofString "\"\x7d\""⟩] :=
    eq_ok_of_toOption (by decide +kernel)
  have hvisits : (ScanState.start opts src).visits opts = visits := by decide +kernel
  obtain ⟨hlength, -, hscan⟩ := scan_visits_once opts src
  obtain ⟨seen, -, -, -, hends, honce⟩ := hscan _ h
  rw [hvisits] at hlength hends honce
  exact ⟨h, hvisits, hlength, hends, honce⟩

end MagicNumbers
