/-
  The old count of lines.

  A scan can leave the line ends of a constant's block out of its count.  Nothing else depends on the
  count, so two scans of one source that count differently stay at the same place with the same scopes
  open; only their counts drift apart, by the line ends of the blocks passed over so far.

  * `ScanState.passes` — the blocks that a run passes over, in their order; `mem_passes_start_iff` says
    that they are those that the scan comes to in a statement that declares a constant.
  * `ScanState.Drifted` — the relation of the two scans, with the blocks passed over so far.
  * `ScanState.Drifted.step`, `.run` — a step keeps it, and so does a run.
  * `scan_drift` — the lines of a scan with the old count, from those of a scan without.
-/
import Mathlib.Algebra.GroupWithZero.Nat
import Mathlib.Data.List.Forall2
import MagicNumbers.Proofs.Failure
import MagicNumbers.Proofs.Lines
import MagicNumbers.Proofs.Order
import MagicNumbers.Proofs.Recursion

namespace MagicNumbers

/-! ## Blocks passed over -/

/-- A stretch of a source, from `start` up to `stop`. -/
structure Stretch where
  start : Nat
  stop : Nat
  deriving DecidableEq, Repr

/-- The number of line ends in some stretches of a source. -/
def linesIn (src : Bytes) (stretches : List Stretch) : Nat :=
  (stretches.map fun x => newlines (slice src x.start x.stop)).sum

theorem linesIn_concat (src : Bytes) (stretches : List Stretch) (x : Stretch) :
    linesIn src (stretches ++ [x]) = linesIn src stretches + newlines (slice src x.start x.stop) := by
  simp [linesIn]

/-- The scan of a source passes over the block from `start` up to `stop`: it comes to the block in a
    statement that declares a constant. -/
inductive PassesOver (opts : LexOptions) (src : Bytes) : Nat → Nat → Prop
  | intro {st : ScanState} {frame : Frame} {below : List Frame} {b : UInt8} {s : Bytes} {t : Token}
      (h : Reachable opts src st) (hf : st.frames = frame :: below) (ht : frame.Takes b s t)
      (hk : t.kind = .block)
      (ha : (frame.statement.ask (frame.cursor.offset - 1)).1 = .ok true) :
      PassesOver opts src frame.cursor.offset (frame.cursor.offset + t.length)

/-- The block that the scope passes over next, if it does. -/
def Frame.passed (frame : Frame) : List Stretch :=
  match frame.cursor.rest with
  | [] => []
  | b :: s =>
    if frame.stop ≤ frame.cursor.offset then []
    else
      match Token.read frame.cursor.lead b s with
      | .ok ⟨.block, n⟩ =>
        match (frame.statement.ask (frame.cursor.offset - 1)).1 with
        | .ok true => [⟨frame.cursor.offset, frame.cursor.offset + n⟩]
        | _ => []
      | _ => []

section

variable {frame : Frame} {b : UInt8} {s : Bytes} {t : Token}

theorem Frame.passed_of_end (h : frame.cursor.rest = [] ∨ frame.stop ≤ frame.cursor.offset) :
    frame.passed = [] := by
  rw [Frame.passed]
  split
  · rfl
  · next hr =>
    rcases h with h | h
    · rw [hr] at h
      cases h
    · exact if_pos h

theorem Frame.passed_of_ne_block (ht : frame.Takes b s t) (hk : t.kind ≠ .block) :
    frame.passed = [] := by
  obtain ⟨kind, n⟩ := t
  rw [Frame.passed, ht.rest]
  simp only [if_neg (Nat.not_le.2 ht.lt_stop), ht.read]
  cases kind with
  | block => exact absurd rfl hk
  | comment | quoted | number | name | semicolon | other => rfl

theorem Frame.passed_of_block {safe : Bool} (ht : frame.Takes b s t) (hk : t.kind = .block)
    (ha : (frame.statement.ask (frame.cursor.offset - 1)).1 = .ok safe) :
    frame.passed =
      if safe then [⟨frame.cursor.offset, frame.cursor.offset + t.length⟩] else [] := by
  obtain ⟨kind, n⟩ := t
  cases hk
  rw [Frame.passed, ht.rest]
  simp only [if_neg (Nat.not_le.2 ht.lt_stop), ht.read, ha]
  cases safe with
  | true => rfl
  | false => rfl

end

/-- **A step passes over nothing, or over the block at the place of the innermost scope**, which then
    goes on right behind it. -/
theorem Step.passed_eq {opts : LexOptions} {st st' : ScanState} {frame : Frame} {below : List Frame}
    (hs : Step opts st frame below st') :
    frame.passed = [] ∨
    ∃ b s t, frame.passed = [⟨frame.cursor.offset, frame.cursor.offset + t.length⟩] ∧
      frame.Takes b s t ∧ t.kind = .block ∧
      (frame.statement.ask (frame.cursor.offset - 1)).1 = .ok true ∧
      ∀ top ∈ st'.frames.head?, top.cursor.offset = frame.cursor.offset + t.length := by
  cases hs with
  | close hend => exact .inl (Frame.passed_of_end hend)
  | skip ht hk => exact .inl (Frame.passed_of_ne_block ht hk.ne_block)
  | semicolon ht hk => exact .inl (Frame.passed_of_ne_block ht (by rw [hk]; decide))
  | literal ht hk => exact .inl (Frame.passed_of_ne_block ht hk.ne_block)
  | enter ht hk ha => exact .inl (Frame.passed_of_block ht hk ha)
  | @pass b s t ht hk ha =>
    refine .inr ⟨b, s, t, Frame.passed_of_block ht hk ha, ht, hk, ha, ?_⟩
    rintro top ⟨⟩
    exact Cursor.offset_advance _ _

/-! ## The blocks of a run -/

/-- The blocks that a run passes over, in their order. -/
def ScanState.passes (opts : LexOptions) (st : ScanState) : List Stretch :=
  match _hf : st.frames with
  | [] => []
  | frame :: below =>
    match _hs : step opts st frame below with
    | .error _ => []
    | .ok st => frame.passed ++ passes opts st
termination_by weight st.frames
decreasing_by
  rw [_hf]
  exact weight_step _hs

theorem ScanState.passes_of_nil {opts : LexOptions} {st : ScanState} (hf : st.frames = []) :
    st.passes opts = [] := by
  rw [passes]
  split
  · rfl
  · next hf' =>
    rw [hf] at hf'
    cases hf'

theorem ScanState.passes_of_step {opts : LexOptions} {st st' : ScanState} {frame : Frame}
    {below : List Frame} (hf : st.frames = frame :: below) (hs : step opts st frame below = .ok st') :
    st.passes opts = frame.passed ++ st'.passes opts := by
  rw [passes]
  split
  · next hf' =>
    rw [hf] at hf'
    cases hf'
  · next hf' =>
    rw [hf] at hf'
    cases hf'
    split
    · next hs' =>
      rw [hs] at hs'
      cases hs'
    · next hs' =>
      rw [hs] at hs'
      cases hs'
      rfl

/-- What a run passes over, the scan passes over. -/
theorem Reachable.passesOver_of_mem {opts : LexOptions} {src : Bytes} {st : ScanState}
    (h : Reachable opts src st) : ∀ x ∈ st.passes opts, PassesOver opts src x.start x.stop := by
  fun_induction ScanState.passes opts st with
  | case1 => exact List.forall_mem_nil _
  | case2 => exact List.forall_mem_nil _
  | case3 st frame below hf st' hs ih =>
    refine List.forall_mem_append.2 ⟨?_, ih (h.step hf hs)⟩
    rcases (step_of_eq_ok hs).passed_eq with hnil | ⟨b, s, t, hone, ht, hk, ha, -⟩
    · rw [hnil]
      exact List.forall_mem_nil _
    · rw [hone]
      exact List.forall_mem_singleton.2 (.intro h hf ht hk ha)

/-- What a run from a later state passes over, the run from the start does. -/
theorem Reachable.passes_suffix {opts : LexOptions} {src : Bytes} {st : ScanState}
    (h : Reachable opts src st) : st.passes opts <:+ (ScanState.start opts src).passes opts := by
  induction h with
  | start => exact List.suffix_rfl
  | step _ hf hs ih =>
    rw [ScanState.passes_of_step hf hs] at ih
    exact (List.suffix_append _ _).trans ih

/-- **The blocks of a run from the start are those that the scan passes over.** -/
theorem mem_passes_start_iff {opts : LexOptions} {src : Bytes} {start stop : Nat} :
    ⟨start, stop⟩ ∈ (ScanState.start opts src).passes opts ↔ PassesOver opts src start stop := by
  constructor
  · exact Reachable.start.passesOver_of_mem _
  · rintro ⟨h, hf, ht, hk, ha⟩
    apply h.passes_suffix.subset
    rw [ScanState.passes_of_step hf
      ((ScanState.step_of_block ht.rest ht.lt_stop ht.read hk).trans (ScanState.takeBlock_of_safe ha)),
      Frame.passed_of_block ht hk ha]
    exact List.mem_append_left _ (List.mem_singleton_self _)

/-- What is yet to be passed over lies no further left than the innermost scope, block behind block. -/
theorem Reachable.passes_apart {opts : LexOptions} {src : Bytes} {st : ScanState} {pos : Nat}
    (h : Reachable opts src st) (hpos : ∀ top ∈ st.frames.head?, pos ≤ top.cursor.offset) :
    (∀ x ∈ st.passes opts, pos ≤ x.start) ∧
    (st.passes opts).Pairwise fun x y => x.stop ≤ y.start := by
  fun_induction ScanState.passes opts st generalizing pos with
  | case1 => exact ⟨List.forall_mem_nil _, .nil⟩
  | case2 => exact ⟨List.forall_mem_nil _, .nil⟩
  | case3 st frame below hf st' hs ih =>
    have hstep := step_of_eq_ok hs
    rw [hf] at hpos
    have hle : pos ≤ frame.cursor.offset := hpos frame rfl
    rcases hstep.passed_eq with hnil | ⟨b, s, t, hone, -, -, -, hnext⟩
    · rw [hnil, List.nil_append]
      apply ih (h.step hf hs)
      intro top htop
      exact Nat.le_trans hle (hstep.offset_le (h.top hf).2 top htop)
    · have hbehind : ∀ top ∈ st'.frames.head?, frame.cursor.offset + t.length ≤ top.cursor.offset :=
        fun top htop => Nat.le_of_eq (hnext top htop).symm
      obtain ⟨hlater, hapart⟩ := ih (h.step hf hs) hbehind
      rw [hone, List.singleton_append]
      refine ⟨List.forall_mem_cons.2 ⟨hle, ?_⟩, List.pairwise_cons.2 ⟨hlater, hapart⟩⟩
      intro x hx
      have := hlater x hx
      omega

/-! ## Two counts of one scan -/

/-- Of some stretches, those that end before a place or at it. -/
def endingBy (pos : Nat) (stretches : List Stretch) : List Stretch :=
  stretches.filter fun x => x.stop ≤ pos

/-- The finding `g` is `f` on a line from which the line ends of the blocks before it are left out. -/
structure Finding.Drifted (src : Bytes) (blocks : List Stretch) (f g : Finding) : Prop where
  offset : g.offset = f.offset
  bytes : g.bytes = f.bytes
  line : g.line + linesIn src (endingBy f.offset blocks) = f.line

/-- A block that ends behind a finding does not matter to it. -/
theorem Finding.Drifted.concat {src : Bytes} {blocks : List Stretch} {f g : Finding} {x : Stretch}
    (h : f.Drifted src blocks g) (hx : f.offset < x.stop) : f.Drifted src (blocks ++ [x]) g := by
  refine ⟨h.offset, h.bytes, ?_⟩
  have hout : endingBy f.offset [x] = [] := by
    rw [endingBy, List.filter_cons_of_neg (by simpa using hx), List.filter_nil]
  rw [endingBy, List.filter_append, ← endingBy, ← endingBy, hout, List.append_nil]
  exact h.line

/-- Two scans that have come to the same place, having passed over some blocks: `st` has counted all line
    ends, and `old` those outside the blocks. -/
structure ScanState.Drifted (src : Bytes) (blocks : List Stretch) (st old : ScanState) : Prop where
  frames : old.frames = st.frames
  line : old.line + linesIn src blocks = st.line
  found : List.Forall₂ (Finding.Drifted src blocks) st.found.toList old.found.toList
  behind : ∀ x ∈ blocks, ∀ top ∈ st.frames.head?, x.stop ≤ top.cursor.offset

/-- **A step keeps two counts apart by the line ends of the blocks passed over.** -/
theorem ScanState.Drifted.step {words : List Bytes} {src : Bytes} {blocks : List Stretch}
    {st st' old : ScanState} {frame : Frame} {below : List Frame} (h : st.Drifted src blocks old)
    (hst : Reachable ⟨words, false⟩ src st) (hf : st.frames = frame :: below)
    (hs : Step ⟨words, false⟩ st frame below st') :
    ∃ old', ScanState.step ⟨words, true⟩ old frame below = .ok old' ∧
      st'.Drifted src (blocks ++ frame.passed) old' := by
  obtain ⟨hlies, hstacked⟩ := hst.top hf
  -- the blocks passed over before the step are behind the innermost scope after it
  have behind : ∀ x ∈ blocks, ∀ top ∈ st'.frames.head?, x.stop ≤ top.cursor.offset := by
    intro x hx top htop
    exact Nat.le_trans (h.behind x hx frame (by rw [hf]; rfl)) (hs.offset_le hstacked top htop)
  have hline := h.line
  cases hs with
  | close hend =>
    refine ⟨_, step_of_end hend, ?_⟩
    rw [Frame.passed_of_end hend, List.append_nil]
    exact ⟨rfl, hline, h.found, behind⟩
  | @skip b s t ht hk =>
    refine ⟨_, step_of_skipped ht.rest ht.lt_stop ht.read hk, ?_⟩
    rw [Frame.passed_of_ne_block ht hk.ne_block, List.append_nil]
    refine ⟨rfl, ?_, h.found, behind⟩
    show old.line + newlines (frame.cursor.rest.take t.length) + linesIn src blocks =
      st.line + newlines (frame.cursor.rest.take t.length)
    omega
  | semicolon ht hk =>
    refine ⟨_, step_of_semicolon ht.rest ht.lt_stop ht.read hk, ?_⟩
    rw [Frame.passed_of_ne_block ht (by rw [hk]; decide), List.append_nil]
    exact ⟨rfl, hline, h.found, behind⟩
  | @literal b s t safe ht hk ha =>
    refine ⟨_, (step_of_literal ht.rest ht.lt_stop ht.read hk).trans (takeLiteral_of_ok ha), ?_⟩
    rw [Frame.passed_of_ne_block ht hk.ne_block, List.append_nil]
    refine ⟨rfl, ?_, ?_, behind⟩
    · show old.line + newlines (frame.cursor.rest.take t.length) + linesIn src blocks =
        st.line + newlines (frame.cursor.rest.take t.length)
      omega
    · cases safe with
      | true => exact h.found
      | false =>
        -- all blocks passed over so far end before the literal
        have hall : endingBy frame.cursor.offset blocks = blocks := by
          rw [endingBy, List.filter_eq_self]
          intro x hx
          exact decide_eq_true (h.behind x hx frame (by rw [hf]; rfl))
        simp only [Bool.false_eq_true, if_false, Array.toList_push]
        refine List.rel_append h.found (.cons ⟨rfl, rfl, ?_⟩ .nil)
        show old.line + linesIn src (endingBy frame.cursor.offset blocks) = st.line
        rw [hall]
        exact hline
  | @pass b s t ht hk ha =>
    refine ⟨_, (step_of_block ht.rest ht.lt_stop ht.read hk).trans (takeBlock_of_safe ha), ?_⟩
    rw [Frame.passed_of_block ht hk ha, if_pos rfl]
    refine ⟨rfl, ?_, ?_, ?_⟩
    · rw [linesIn_concat, slice_add, ← hlies.rest_eq]
      show old.line + 0 + (linesIn src blocks + newlines (frame.cursor.rest.take t.length)) =
        st.line + newlines (frame.cursor.rest.take t.length)
      omega
    · -- what was found before lies before the block
      have hbefore : ∀ f ∈ st.found.toList, f.offset < frame.cursor.offset + t.length := by
        intro f hmem
        have hlt := (hst.ordered.stands f hmem).lt_stop
        have hstop := (hst.ordered.passed f hmem).2 frame (by rw [hf]; rfl)
        omega
      apply ((List.forall₂_and_left _ _).2 ⟨hbefore, h.found⟩).imp
      rintro f g ⟨hlt, hfg⟩
      exact hfg.concat hlt
    · refine List.forall_mem_append.2 ⟨behind, List.forall_mem_singleton.2 ?_⟩
      rintro top ⟨⟩
      exact Nat.le_of_eq (Cursor.offset_advance _ _).symm
  | enter ht hk ha =>
    refine ⟨_, (step_of_block ht.rest ht.lt_stop ht.read hk).trans (takeBlock_of_not_safe ha), ?_⟩
    rw [Frame.passed_of_block ht hk ha, if_neg (by decide), List.append_nil]
    exact ⟨rfl, hline, h.found, behind⟩

/-- **A run keeps two counts apart by the line ends of the blocks passed over**, and both runs pass over
    the same. -/
theorem ScanState.Drifted.run {words : List Bytes} {src : Bytes} {blocks : List Stretch}
    {st last old : ScanState} (h : st.Drifted src blocks old) (hst : Reachable ⟨words, false⟩ src st)
    (hr : st.run ⟨words, false⟩ = .ok last) :
    ∃ old', old.run ⟨words, true⟩ = .ok old' ∧
      old.passes ⟨words, true⟩ = st.passes ⟨words, false⟩ ∧
      last.Drifted src (blocks ++ st.passes ⟨words, false⟩) old' := by
  fun_induction ScanState.run ⟨words, false⟩ st generalizing blocks old with
  | case1 st hf =>
    cases hr
    obtain ⟨frames, line, found⟩ := old
    obtain rfl : frames = [] := h.frames.trans hf
    rw [passes_of_nil hf, passes_of_nil rfl, List.append_nil]
    exact ⟨_, run_nil line found, rfl, h⟩
  | case2 => cases hr
  | case3 st frame below hf st' hs ih =>
    obtain ⟨next, hnext, hdrift⟩ := h.step hst hf (step_of_eq_ok hs)
    obtain ⟨old', hrun, hpasses, hlast⟩ := ih hdrift (hst.step hf hs) hr
    obtain ⟨frames, line, found⟩ := old
    obtain rfl : frames = frame :: below := h.frames.trans hf
    refine ⟨old', ?_, ?_, ?_⟩
    · rw [run_cons, hnext]
      exact hrun
    · rw [passes_of_step rfl hnext, passes_of_step hf hs, hpasses]
    · rw [passes_of_step hf hs, ← List.append_assoc]
      exact hlast

/-- **The old count is the true one without the line ends of the blocks passed over.**  The two scans of
    a source fail together, in the same way.  Otherwise they find the same literals in the same order;
    the line of each comes out low by the line ends in the blocks of constants that end before it, at
    whatever depth they lie.  These blocks are apart, so no line end is left out twice; and the lines
    never exceed the true ones and do not fall. -/
theorem scan_drift (words : List Bytes) (src : Bytes) :
    (∀ e, scan ⟨words, true⟩ src = .error e ↔ scan ⟨words, false⟩ src = .error e) ∧
    ∀ found, scan ⟨words, false⟩ src = .ok found →
      ∃ old blocks, scan ⟨words, true⟩ src = .ok old ∧
        (∀ drift start stop,
          ⟨start, stop⟩ ∈ blocks ↔ PassesOver ⟨words, drift⟩ src start stop) ∧
        blocks.Pairwise (fun x y => x.stop ≤ y.start) ∧
        List.Forall₂ (fun f g => f.Drifted src blocks g ∧ g.text = f.text ∧
          g.line ≤ 1 + newlines (src.take g.offset)) found old ∧
        old.Pairwise fun g g' => g.line ≤ g'.line := by
  constructor
  · intro e
    rw [scan_eq_error_iff, scan_eq_error_iff]
  intro found h
  obtain ⟨last, hrun, rfl⟩ := run_of_scan_ok h
  have hstart : (ScanState.start ⟨words, false⟩ src).Drifted src []
      (ScanState.start ⟨words, true⟩ src) := by
    refine ⟨rfl, rfl, .nil, ?_⟩
    intro x hx
    cases hx
  obtain ⟨old, hold, hpasses, hdrift⟩ := hstart.run .start hrun
  rw [List.nil_append] at hdrift
  have hlast := (Reachable.start.run_ok hrun).1
  refine ⟨old.found.toList, (ScanState.start ⟨words, false⟩ src).passes ⟨words, false⟩,
    by rw [scan, hold], ?_, (Reachable.start.passes_apart fun _ _ => Nat.zero_le _).2, ?_, ?_⟩
  · intro drift start stop
    cases drift with
    | false => exact mem_passes_start_iff
    | true =>
      rw [← hpasses]
      exact mem_passes_start_iff
  · have htrue : ∀ f ∈ last.found.toList, f.line = lineAt src f.offset := fun f hf =>
      (hlast.numbered rfl).found f (Array.mem_toList_iff.1 hf)
    apply ((List.forall₂_and_left _ _).2 ⟨htrue, hdrift.found⟩).imp
    rintro f g ⟨hline, hfg⟩
    refine ⟨hfg, by rw [Finding.text, Finding.text, hfg.bytes], ?_⟩
    show g.line ≤ lineAt src g.offset
    rw [hfg.offset, ← hline, ← hfg.line]
    exact Nat.le_add_right _ _
  · exact (Reachable.start.run_ok hold).1.ordered.ordered.imp And.left

/-- A block of a constant inside a block that is scanned, with a block in it, and one behind it. -/
theorem scan_drift_nested :
    let words := ({} : LexOptions).safeKeywords
    let src := Bytes.ofString
      "m\x7bstatic final a=\x7b\n\x7b\n\x7d\x7d\n5\x7dfinal static b=\x7b\n\x7d;\n6"
    let found : List Finding := [⟨4, 24, Bytes.ofString "5"⟩, ⟨6, 46, Bytes.ofString "6"⟩]
    let old : List Finding := [⟨2, 24, Bytes.ofString "5"⟩, ⟨3, 46, Bytes.ofString "6"⟩]
    scan ⟨words, false⟩ src = .ok found ∧ scan ⟨words, true⟩ src = .ok old ∧
    ∃ blocks, (∀ start stop,
        ⟨start, stop⟩ ∈ blocks ↔ PassesOver ⟨words, false⟩ src start stop) ∧
      blocks.Pairwise (fun x y => x.stop ≤ y.start) ∧
      List.Forall₂ (Finding.Drifted src blocks) found old := by
  intro words src found old
  have h : scan ⟨words, false⟩ src = .ok found := eq_ok_of_toOption (by decide +kernel)
  have hold : scan ⟨words, true⟩ src = .ok old := eq_ok_of_toOption (by decide +kernel)
  obtain ⟨old', blocks, hold', hblocks, hapart, hlines, -⟩ := (scan_drift words src).2 found h
  rw [hold] at hold'
  cases hold'
  exact ⟨h, hold, blocks, hblocks false, hapart, hlines.imp fun _ _ hfg => hfg.1⟩

end MagicNumbers
