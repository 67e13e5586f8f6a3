/-
  Where the open scopes lie in the source.

  A scope reads the whole source and does not look where it ends.  That it ends there all the same is
  what is shown here: a token that begins in a scope ends in it.

  * `Frame.Inside` — a scope ends at the brace that closes its block, and the scope around it goes on
    right behind that brace, at the start of a statement.
  * `Stacked.offset_le`, `Frame.Takes.offset_le` — no scope goes past its end, and no token does.
  * `frames_nested` — so it is in every state of a scan: each scope lies inside the next, the outermost
    ends with the source, and each is closed exactly where it ends.
-/
import Mathlib.Data.List.Chain
import MagicNumbers.Proofs.Recursion
import MagicNumbers.Proofs.Stack

namespace MagicNumbers

/-! ## Braces in the source -/

/-- What a text begins with from a place on stands at that place. -/
theorem getElem?_of_drop {src s : Bytes} {b : UInt8} {pos : Nat} (h : src.drop pos = b :: s) :
    src[pos]? = some b := by
  rw [← List.head?_drop, h]
  rfl

/-- What stands at a place is what the text begins with from there on. -/
theorem drop_of_getElem? {src : Bytes} {b : UInt8} {pos : Nat} (h : src[pos]? = some b) :
    src.drop pos = b :: src.drop (pos + 1) := by
  obtain ⟨hlt, rfl⟩ := List.getElem?_eq_some_iff.1 h
  exact List.drop_eq_getElem_cons hlt

/-- What closes a block is a brace. -/
theorem Cursor.ClosesAt.closeBrace {c : Cursor} {stop : Nat} (h : c.ClosesAt stop) :
    c.rest[stop - c.offset]? = some Byte.closeBrace := by
  have hle := h.offset_le
  have hbounds := (blockFrom_bounds h).2
  obtain ⟨u, hu⟩ := take_of_blockFrom h
  have hlen := congrArg List.length hu
  rw [List.length_take, List.length_append, List.length_singleton] at hlen
  have hat : (c.rest.take (stop + 1 - c.offset))[stop - c.offset]? = some Byte.closeBrace := by
    rw [hu, List.getElem?_append_right (by omega), show stop - c.offset - u.length = 0 by omega]
    rfl
  rw [List.getElem?_take_of_lt (by omega)] at hat
  exact hat

/-- The scope stands at a place of the source, so what closes its block is a brace of the source. -/
theorem Frame.Lies.closeBrace {opts : LexOptions} {src : Bytes} {frame : Frame} {stop : Nat}
    (h : frame.Lies opts src) (hclose : frame.cursor.ClosesAt stop) :
    src[stop]? = some Byte.closeBrace := by
  have hle := hclose.offset_le
  have hbrace := hclose.closeBrace
  rw [h.rest_eq, List.getElem?_drop, show frame.cursor.offset + (stop - frame.cursor.offset) = stop by
    omega] at hbrace
  exact hbrace

/-! ## One scope inside another -/

/-- How a scope lies in the one around it. -/
structure Frame.Inside (src : Bytes) (inner outer : Frame) : Prop where
  /-- The scope around it goes on right behind the place where it ends. -/
  next : inner.stop + 1 = outer.cursor.offset
  /-- There a statement starts. -/
  starts : outer.statement.start.offset = outer.cursor.offset
  /-- It ends at a brace. -/
  closeBrace : src[inner.stop]? = some Byte.closeBrace
  /-- This brace matches one that the scope lies behind. -/
  matched : ∃ brace, brace < inner.statement.start.offset ∧ src[brace]? = some Byte.openBrace ∧
    blockStop src brace = .ok (inner.stop + 1)

/-- A scope that has moved on lies where it lay. -/
theorem Frame.Inside.advance {src : Bytes} {inner inner' outer : Frame} (h : inner.Inside src outer)
    (hstop : inner'.stop = inner.stop)
    (hstart : inner.statement.start.offset ≤ inner'.statement.start.offset) :
    inner'.Inside src outer := by
  obtain ⟨brace, hlt, hopen, hmatch⟩ := h.matched
  refine ⟨?_, h.starts, ?_, brace, ?_, hopen, ?_⟩
  · rw [hstop]
    exact h.next
  · rw [hstop]
    exact h.closeBrace
  · exact Nat.lt_of_lt_of_le hlt hstart
  · rw [hstop]
    exact hmatch

/-- The end of a block is where the brace that opens it says. -/
theorem Frame.Takes.blockStop {opts : LexOptions} {src : Bytes} {frame : Frame} {b : UInt8}
    {s : Bytes} {t : Token} (ht : frame.Takes b s t) (hlies : frame.Lies opts src)
    (hk : t.kind = .block) :
    src[frame.cursor.offset]? = some Byte.openBrace ∧
      blockStop src frame.cursor.offset = .ok (frame.cursor.offset + t.length) := by
  have hdrop : src.drop frame.cursor.offset = b :: s := hlies.rest_eq.symm.trans ht.rest
  have hbrace := (Token.kind_eq_block_iff ht.read).1 hk
  constructor
  · rw [← hbrace]
    exact getElem?_of_drop hdrop
  · exact blockStop_of_ok hdrop (Token.blockLength_of_read ht.read hk)

/-- A scope that is entered at a block lies in the one that waits behind the block. -/
theorem Frame.Takes.inside_enter {opts : LexOptions} {src : Bytes} {frame : Frame} {b : UInt8}
    {s : Bytes} {t : Token} (ht : frame.Takes b s t) (hlies : frame.Lies opts src)
    (hk : t.kind = .block) :
    (Frame.enter opts (frame.cursor.advance 1) (frame.cursor.offset + t.length - 1)).Inside src
      (.enter opts (frame.cursor.advance t.length) frame.stop) := by
  have hpos := (Token.read_bounds ht.read).1
  have hclose := Cursor.closesAt_of_block ht.rest (Token.blockLength_of_read ht.read hk)
  obtain ⟨hopen, hmatch⟩ := ht.blockStop hlies hk
  constructor
  · rw [Frame.stop_enter, Frame.cursor_enter, Cursor.offset_advance]
    omega
  · rfl
  · exact (hlies.enter_advance 1 (frame.cursor.offset + t.length - 1)).closeBrace hclose
  · refine ⟨frame.cursor.offset, ?_, hopen, ?_⟩
    · rw [Frame.start_enter, Cursor.offset_advance]
      omega
    · rw [hmatch, Frame.stop_enter]
      exact congrArg Except.ok (by omega)

/-- **A step leaves each scope inside the next.** -/
theorem isChain_inside_of_step {opts : LexOptions} {src : Bytes} {st st' : ScanState} {frame : Frame}
    {below : List Frame} (h : (frame :: below).IsChain (Frame.Inside src))
    (hlies : frame.Lies opts src) (hs : Step opts st frame below st') :
    st'.frames.IsChain (Frame.Inside src) := by
  -- a statement that starts later does not matter
  have later : ∀ n stop, stop = frame.stop →
      (Frame.enter opts (frame.cursor.advance n) stop :: below).IsChain (Frame.Inside src) := by
    rintro n stop rfl
    apply List.IsChain.imp_head _ h
    intro outer hin
    have hle := hlies.walk.offset_le
    refine Frame.Inside.advance hin rfl ?_
    rw [Frame.start_enter, Cursor.offset_advance]
    omega
  cases hs with
  | close => exact h.tail
  | skip ht hk =>
    apply List.IsChain.imp_head _ h
    intro outer hin
    exact hin.advance rfl (Nat.le_refl _)
  | semicolon ht hk => exact later _ _ rfl
  | literal ht hk =>
    apply List.IsChain.imp_head _ h
    intro outer hin
    exact hin.advance rfl (Nat.le_of_eq (congrArg Cursor.offset (hlies.start_ask _).symm))
  | pass ht hk => exact later _ _ rfl
  | enter ht hk => exact .cons_cons (ht.inside_enter hlies hk) (later _ _ rfl)

/-- In every state of a scan each scope lies inside the next. -/
theorem Reachable.isChain_inside {opts : LexOptions} {src : Bytes} {st : ScanState}
    (h : Reachable opts src st) : st.frames.IsChain (Frame.Inside src) := by
  induction h with
  | start => exact .singleton _
  | step hst hf hs ih =>
    rw [hf] at ih
    exact isChain_inside_of_step ih (hst.top hf).1 (step_of_eq_ok hs)

/-! ## No scope goes past its end -/

/-- A token ends in the source. -/
theorem Frame.Takes.offset_le_length {opts : LexOptions} {src : Bytes} {frame : Frame} {b : UInt8}
    {s : Bytes} {t : Token} (ht : frame.Takes b s t) (hlies : frame.Lies opts src) :
    frame.cursor.offset + t.length ≤ src.length := by
  have hpos := (Token.read_bounds ht.read).1
  have hle := ht.length_le
  rw [hlies.rest_eq, List.length_drop] at hle
  omega

/-- In every state of a scan all scopes stand in the source. -/
theorem Reachable.offset_le_length {opts : LexOptions} {src : Bytes} {st : ScanState}
    (h : Reachable opts src st) : ∀ f ∈ st.frames, f.cursor.offset ≤ src.length := by
  induction h with
  | start => exact List.forall_mem_cons.2 ⟨Nat.zero_le _, fun _ h => absurd h List.not_mem_nil⟩
  | @step st st' frame below hst hf hs ih =>
    have hframe := (hst.top hf).1
    rw [hf] at ih
    obtain ⟨hle, hbelow⟩ := List.forall_mem_cons.1 ih
    -- behind a token, or behind its first byte
    have behind : ∀ {b s t n}, frame.Takes b s t → n ≤ t.length →
        (frame.cursor.advance n).offset ≤ src.length := by
      intro b s t n ht hn
      have hend := ht.offset_le_length hframe
      rw [Cursor.offset_advance]
      omega
    cases step_of_eq_ok hs with
    | close => exact hbelow
    | skip ht | semicolon ht | literal ht | pass ht =>
      exact List.forall_mem_cons.2 ⟨behind ht (Nat.le_refl _), hbelow⟩
    | enter ht =>
      have hpos := (Token.read_bounds ht.read).1
      exact List.forall_mem_cons.2
        ⟨behind ht hpos, List.forall_mem_cons.2 ⟨behind ht (Nat.le_refl _), hbelow⟩⟩

/-- The outermost scope ends where the source does. -/
theorem Stacked.getLast?_stop {src : Bytes} {frames : List Frame} (h : Stacked src frames) :
    ∀ f ∈ frames.getLast?, f.stop = src.length := by
  induction h with
  | closed =>
    rintro f ⟨⟩
  | bottom hstop =>
    rintro f ⟨⟩
    exact hstop
  | inner _ _ _ _ ih => exact ih

/-- **No scope has gone past its end.** -/
theorem Stacked.offset_le {src : Bytes} {frames : List Frame} (h : Stacked src frames)
    (hsrc : ∀ f ∈ frames, f.cursor.offset ≤ src.length) : ∀ f ∈ frames, f.cursor.offset ≤ f.stop := by
  induction h with
  | closed => exact fun _ h => absurd h List.not_mem_nil
  | bottom hstop =>
    intro f hf
    have hle := hsrc f hf
    rw [List.mem_singleton.1 hf] at hle ⊢
    rwa [hstop]
  | inner hclose _ _ _ ih =>
    obtain ⟨-, hbelow⟩ := List.forall_mem_cons.1 hsrc
    exact List.forall_mem_cons.2 ⟨hclose.offset_le, ih hbelow⟩

/-- **A token ends in the scope that it begins in.** -/
theorem Frame.Takes.offset_le {opts : LexOptions} {src : Bytes} {frame : Frame} {below : List Frame}
    {b : UInt8} {s : Bytes} {t : Token} (ht : frame.Takes b s t) (hlies : frame.Lies opts src)
    (h : Stacked src (frame :: below)) : frame.cursor.offset + t.length ≤ frame.stop := by
  cases h with
  | bottom hstop =>
    rw [hstop]
    exact ht.offset_le_length hlies
  | inner hclose =>
    have hle := (ht.closesAt hclose).offset_le
    rwa [Cursor.offset_advance] at hle

/-- A scope that is closed has come exactly to its end. -/
theorem Stacked.offset_eq_of_end {opts : LexOptions} {src : Bytes} {frame : Frame} {below : List Frame}
    (h : Stacked src (frame :: below)) (hlies : frame.Lies opts src)
    (hle : frame.cursor.offset ≤ frame.stop)
    (hend : frame.cursor.rest = [] ∨ frame.stop ≤ frame.cursor.offset) :
    frame.cursor.offset = frame.stop := by
  cases h with
  | inner hclose => exact (hclose.rest_of_end hend).1
  | bottom hstop =>
    apply Nat.le_antisymm hle
    rcases hend with hnil | hge
    · rw [hstop, ← List.drop_eq_nil_iff, ← hlies.rest_eq]
      exact hnil
    · exact hge

/-! ## Every state of a scan -/

/-- **In every state of a scan the open scopes lie in each other as the braces of the source do.**
    Each scope stands between the start of its statement and its end; the outermost ends where the
    source does, and any other at the brace that closes its block, behind which the scope around it
    goes on with a new statement.  No token goes past the end of its scope, and so a scope is closed
    exactly where it ends. -/
theorem frames_nested {opts : LexOptions} {src : Bytes} {st : ScanState}
    (h : Reachable opts src st) :
    (∀ f ∈ st.frames, f.statement.start.offset ≤ f.cursor.offset ∧ f.cursor.offset ≤ f.stop) ∧
    (∀ f ∈ st.frames.getLast?, f.stop = src.length) ∧
    st.frames.IsChain (Frame.Inside src) ∧
    (∀ frame below b s t, st.frames = frame :: below → frame.Takes b s t →
      frame.cursor.offset + t.length ≤ frame.stop) ∧
    (∀ frame below st', st.frames = frame :: below → ScanState.step opts st frame below = .ok st' →
      st'.frames = below → frame.cursor.offset = frame.stop) := by
  obtain ⟨hlies, hstacked⟩ := h.placed
  have hle := hstacked.offset_le h.offset_le_length
  refine ⟨?_, hstacked.getLast?_stop, h.isChain_inside, ?_, ?_⟩
  · intro f hf
    exact ⟨(hlies f hf).walk.offset_le, hle f hf⟩
  · intro frame below b s t hf ht
    rw [hf] at hlies hstacked
    exact ht.offset_le (hlies frame List.mem_cons_self) hstacked
  · intro frame below st' hf hs hbelow
    rw [hf] at hlies hstacked hle
    cases step_of_eq_ok hs with
    | close hend =>
      exact hstacked.offset_eq_of_end (hlies frame List.mem_cons_self) (hle frame List.mem_cons_self)
        hend
    | skip | semicolon | literal | pass => exact absurd hbelow (List.cons_ne_self _ _)
    | enter =>
      have hlen := congrArg List.length hbelow
      rw [List.length_cons, List.length_cons] at hlen
      omega

/-- A block inside a block, behind a literal with a brace in it. -/
theorem frames_nested_block :
    let src := Bytes.ofString "\x7b\"\x7d\";\x7b5;6\x7d\x7d"
    let inner : Frame := .enter {} ⟨6, none, Bytes.ofString "5;6\x7d\x7d"⟩ 9
    let outer : Frame := .enter {} ⟨10, none, Bytes.ofString "\x7d"⟩ 10
    let outermost : Frame := .enter {} ⟨11, none, []⟩ 11
    let st : ScanState := ⟨[inner, outer, outermost], 1, #[⟨1, 1, Bytes.ofString "\"\x7d\""⟩]⟩
    Reachable {} src st ∧
    (∀ f ∈ st.frames, f.statement.start.offset ≤ f.cursor.offset ∧ f.cursor.offset ≤ f.stop) ∧
    outermost.stop = src.length ∧ inner.Inside src outer ∧ outer.Inside src outermost := by
  intro src inner outer outermost st
  have hsteps : (ScanState.start {} src).steps {} 4 = .ok st :=
    eq_ok_of_toOption (by decide +kernel)
  have h : Reachable {} src st := Reachable.start.steps hsteps
  obtain ⟨hbounds, hlast, hchain, -⟩ := frames_nested h
  rw [List.isChain_cons_cons, List.isChain_cons_cons] at hchain
  exact ⟨h, hbounds, hlast outermost rfl, hchain.1, hchain.2.1⟩

end MagicNumbers
