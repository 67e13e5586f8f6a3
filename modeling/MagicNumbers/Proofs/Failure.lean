/-
  Which sources cannot be scanned.

  A scan fails at what is unclosed and nowhere else: the failure of a source is that of skimming it, for
  any keywords and either way of counting lines.  Neither the scopes inside blocks nor the questions
  about statements can fail by themselves, since all that they read has been read before.
-/
import MagicNumbers.Proofs.Stack

namespace MagicNumbers

/-- A run comes to its end where skimming does, and fails as skimming does. -/
theorem map_run_start (opts : LexOptions) (src : Bytes) :
    ((ScanState.start opts src).run opts).map (fun _ => ()) = skimFrom 0 src := by
  cases hrun : (ScanState.start opts src).run opts with
  | error e =>
    obtain ⟨st, frame, below, hst, hf, hs⟩ := Reachable.start.run_error hrun
    obtain ⟨hlies, hstacked⟩ := hst.top hf
    obtain ⟨b, s, e', hr, hlt, ht, rfl⟩ := hlies.unclosed_of_step hs
    exact (hstacked.unclosed hr hlt ht).2.symm
  | ok last =>
    obtain ⟨hlast, hnil⟩ := Reachable.start.run_ok hrun
    have hstacked := hlast.placed.2
    rw [hnil] at hstacked
    cases hstacked with
    | closed hskim => exact hskim.symm

/-- Whether a source can be scanned, skimming tells. -/
theorem map_scan (opts : LexOptions) (src : Bytes) :
    (scan opts src).map (fun _ => ()) = skim src := by
  rw [skim, ← map_run_start opts, scan]
  cases (ScanState.start opts src).run opts with
  | error e => rfl
  | ok last => rfl

theorem scan_eq_error_iff (opts : LexOptions) (src : Bytes) (e : Malformed) :
    scan opts src = .error e ↔ skim src = .error e := by
  rw [← map_scan opts]
  cases scan opts src with
  | error e' => simp [Except.map]
  | ok found => simp [Except.map]

/-- A source that can be scanned can be with any options. -/
theorem scan_ok_of_ok {opts : LexOptions} {src : Bytes} {found : List Finding}
    (h : scan opts src = .ok found) (opts' : LexOptions) : ∃ found', scan opts' src = .ok found' := by
  cases h' : scan opts' src with
  | ok found' => exact ⟨found', rfl⟩
  | error e =>
    rw [scan_eq_error_iff, ← scan_eq_error_iff opts, h] at h'
    cases h'

/-- The error that a list of findings is given with is that of the scan. -/
theorem scan_eq_error_of_scanInto {opts : LexOptions} {src : Bytes} {e : Malformed}
    (found : List Finding) (h : (scanInto opts src found).1 = some e) : scan opts src = .error e := by
  rw [scanInto] at h
  split at h
  · cases h
  · next e' he =>
    cases h
    exact he

/-- A step of a scope that lies inside a block does not fail. -/
theorem Reachable.step_inner {opts : LexOptions} {src : Bytes} {st : ScanState}
    {frame outer : Frame} {below : List Frame} (h : Reachable opts src st)
    (hf : st.frames = frame :: outer :: below) :
    ∃ st', ScanState.step opts st frame (outer :: below) = .ok st' := by
  obtain ⟨hlies, hstacked⟩ := h.top hf
  cases hs : ScanState.step opts st frame (outer :: below) with
  | ok st' => exact ⟨st', rfl⟩
  | error e =>
    obtain ⟨b, s, e', hr, hlt, ht, -⟩ := hlies.unclosed_of_step hs
    cases (hstacked.unclosed hr hlt ht).1

/-- Where the next token can be read, the step does not fail: its statement can be asked. -/
theorem Reachable.step_takes {opts : LexOptions} {src : Bytes} {st : ScanState} {frame : Frame}
    {below : List Frame} {b : UInt8} {s : Bytes} {t : Token} (h : Reachable opts src st)
    (hf : st.frames = frame :: below) (htakes : frame.Takes b s t) :
    ∃ st', ScanState.step opts st frame below = .ok st' := by
  cases hs : ScanState.step opts st frame below with
  | ok st' => exact ⟨st', rfl⟩
  | error e =>
    obtain ⟨b', s', e', hr, -, ht, -⟩ := (h.top hf).1.unclosed_of_step hs
    rw [htakes.rest] at hr
    cases hr
    rw [htakes.read] at ht
    cases ht

/-- **Lexing alone decides what cannot be scanned.**  A scan fails just where skimming the source does,
    with the same construct at the same place; so it does for all options alike, and leaves the list it
    was given as it was.  No step fails in a scope inside a block, and none whose token can be read: so
    no question about a statement fails. -/
theorem scan_error_iff_skim (opts : LexOptions) (src : Bytes) :
    (∀ e, scan opts src = .error e ↔ skim src = .error e) ∧
    (∀ opts' e, scan opts src = .error e ↔ scan opts' src = .error e) ∧
    (∀ e found, scan opts src = .error e → scanInto opts src found = (some e, found)) ∧
    (∀ st frame outer below, Reachable opts src st → st.frames = frame :: outer :: below →
      ∃ st', ScanState.step opts st frame (outer :: below) = .ok st') ∧
    (∀ st frame below b s t, Reachable opts src st → st.frames = frame :: below →
      frame.Takes b s t → ∃ st', ScanState.step opts st frame below = .ok st') := by
  refine ⟨scan_eq_error_iff opts src, ?_, ?_, ?_, ?_⟩
  · intro opts' e
    rw [scan_eq_error_iff opts, scan_eq_error_iff opts']
  · intro e found he
    rw [scanInto, he]
  · intro st frame outer below h hf
    exact h.step_inner hf
  · intro st frame below b s t h hf ht
    exact h.step_takes hf ht

/-- A literal that is left open in a block is what fails the source, and nothing is found. -/
theorem scan_error_open_literal :
    skim (Bytes.ofString "f(3); \x7b\"a") = .error ⟨⟨.stringLiteral, 7⟩, 1⟩ ∧
    scan {} (Bytes.ofString "f(3); \x7b\"a") = .error ⟨⟨.stringLiteral, 7⟩, 1⟩ ∧
    scanInto {} (Bytes.ofString "f(3); \x7b\"a") [] = (some ⟨⟨.stringLiteral, 7⟩, 1⟩, []) := by
  have hscan : scan {} (Bytes.ofString "f(3); \x7b\"a") = .error ⟨⟨.stringLiteral, 7⟩, 1⟩ :=
    scan_eq_error_of_scanInto [] (by decide +kernel)
  have h := scan_error_iff_skim {} (Bytes.ofString "f(3); \x7b\"a")
  exact ⟨(h.1 _).1 hscan, hscan, h.2.2.1 _ [] hscan⟩

end MagicNumbers
