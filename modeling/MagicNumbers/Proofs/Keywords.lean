/-
  How the keywords matter.

  With more keywords less is taken for a constant, and so more is found.  Two scans of one source with
  different keywords part where one of them passes over a block that the other scans; behind the block
  they are at the same place again, at the start of a statement.

  * `holdsAll_eq_true_iff` — a statement is safe if every keyword stands in it, in whatever order.
  * `Covers` — some keywords leave safe whatever others do.
  * `scanRange_sublist` — then all that is found with the one is found with the others.
  * `found_sublist` — with more keywords, or with none, a scan finds what it found and maybe more.
-/
import Mathlib.Data.List.Basic
import MagicNumbers.Proofs.Failure
import MagicNumbers.Proofs.Lines
import MagicNumbers.Proofs.Recursion

namespace MagicNumbers

/-! ## Sets of keywords -/

/-- All words are found if each of them is. -/
theorem allFound_eq_true_iff {words : List Bytes} {bound : Nat} {c : Cursor} :
    allFound bound c words = .ok true ↔ ∀ word ∈ words, search word bound c = .ok .found := by
  induction words with
  | nil => exact ⟨fun _ => List.forall_mem_nil _, fun _ => rfl⟩
  | cons word words ih =>
    rw [List.forall_mem_cons, allFound]
    cases search word bound c with
    | error e => simp
    | ok r =>
      cases r with
      | found => simp [ih]
      | paused => simp

/-- **A statement is safe if there are keywords and it holds each of them.** -/
theorem holdsAll_eq_true_iff {words : List Bytes} {bound : Nat} {c : Cursor} :
    holdsAll words bound c = .ok true ↔
      words ≠ [] ∧ ∀ word ∈ words, search word bound c = .ok .found := by
  cases words with
  | nil => simp [holdsAll]
  | cons word words => simp [holdsAll, allFound_eq_true_iff]

/-- Whatever is safe for the keywords `words'` is safe for `words`. -/
def Covers (words words' : List Bytes) : Prop :=
  ∀ bound c, holdsAll words' bound c = .ok true → holdsAll words bound c = .ok true

/-- Fewer keywords, if there are any, leave more safe; and without keywords nothing is. -/
theorem covers_of_subset {words words' : List Bytes} (h : words' ≠ [] → words ≠ [] ∧ words ⊆ words') :
    Covers words words' := by
  intro bound c hsafe
  obtain ⟨hne', hall⟩ := holdsAll_eq_true_iff.1 hsafe
  obtain ⟨hne, hsub⟩ := h hne'
  exact holdsAll_eq_true_iff.2 ⟨hne, fun word hword => hall word (hsub hword)⟩

/-- Keywords that are the same but for their order leave the same safe. -/
theorem covers_of_same {words words' : List Bytes} (h : words ⊆ words') (h' : words' ⊆ words) :
    Covers words words' := by
  apply covers_of_subset
  intro hne
  refine ⟨?_, h⟩
  rintro rfl
  exact hne (List.subset_nil.1 h')

/-- An answer for a range of the source is an answer for the place it starts at. -/
theorem rangeHoldsAll_eq_ok_iff {src : Bytes} {start stop : Nat} {words : List Bytes} {safe : Bool} :
    rangeHoldsAll src start stop words = .ok safe ↔
      holdsAll words stop (.ofOffset src start) = .ok safe := by
  rw [rangeHoldsAll]
  cases holdsAll words stop (.ofOffset src start) with
  | error e => simp
  | ok safe' => simp

/-- So it is with the answers about a range. -/
theorem Covers.range {words words' : List Bytes} (h : Covers words words') {src : Bytes}
    {start stop : Nat} {safe : Bool} (hsafe' : rangeHoldsAll src start stop words' = .ok true)
    (hsafe : rangeHoldsAll src start stop words = .ok safe) : safe = true := by
  rw [rangeHoldsAll_eq_ok_iff] at hsafe hsafe'
  rw [h _ _ hsafe'] at hsafe
  cases hsafe
  rfl

/-! ## Two scans of one source -/

/-- Where a finding is and what it is, without its line. -/
def Finding.place (f : Finding) : Nat × Bytes := (f.offset, f.bytes)

/-- A literal that the one reports is reported by the other. -/
theorem reported_sublist {safe safe' : Bool} (h : safe' = true → safe = true) (src : Bytes)
    (line line' pos stop : Nat) :
    ((reported safe src line pos stop).map Finding.place).Sublist
      ((reported safe' src line' pos stop).map Finding.place) := by
  cases safe with
  | true => exact List.nil_sublist _
  | false =>
    cases safe' with
    | true => cases h rfl
    | false => exact .refl _

/-- **What is found with keywords that leave more safe is found with those that leave less safe.**  The
    lines may be counted differently. -/
theorem scanRange_sublist {opts opts' : LexOptions} {src : Bytes}
    {stop start pos line line' last last' : Nat} {found found' : List Finding}
    (hcovers : Covers opts.safeKeywords opts'.safeKeywords)
    (h : scanRange opts src stop start pos line = .ok (last, found))
    (h' : scanRange opts' src stop start pos line' = .ok (last', found')) :
    (found.map Finding.place).Sublist (found'.map Finding.place) := by
  induction hn : src.length - pos using Nat.strongRecOn
    generalizing stop start pos line line' last last' found found' with
  | _ n ih =>
  subst hn
  rcases scanRange_ok h with ⟨-, -, rfl⟩ | ⟨b, s, t, hs, hlt, ht, h⟩
  · exact List.nil_sublist _
  rw [scanRange_of_token hs hlt ht] at h'
  have hlen := congrArg List.length hs
  rw [List.length_drop, List.length_cons] at hlen
  have hpos := (Token.read_bounds ht).1
  rcases t.role with hk | hk | hk | hk
  · rw [scanToken_of_skipped hk] at h h'
    exact ih _ (by omega) h h' rfl
  · rw [scanToken_of_semicolon hk] at h h'
    exact ih _ (by omega) h h' rfl
  · obtain ⟨safe, rest, hsafe, hrest, rfl⟩ := scanToken_literal_ok hk h
    obtain ⟨safe', rest', hsafe', hrest', rfl⟩ := scanToken_literal_ok hk h'
    rw [List.map_append, List.map_append]
    apply List.Sublist.append
    · apply reported_sublist
      rintro rfl
      exact hcovers.range hsafe' hsafe
    · exact ih _ (by omega) hrest hrest' rfl
  · rcases scanToken_block_ok hk h with ⟨-, hrest⟩ | ⟨hsafe, _, _, _, hinner, hrest, rfl⟩
    · rcases scanToken_block_ok hk h' with ⟨-, hrest'⟩ | ⟨-, _, _, _, -, hrest', rfl⟩
      · exact ih _ (by omega) hrest hrest' rfl
      · -- the block is scanned by the other alone
        rw [List.map_append]
        exact (ih _ (by omega) hrest hrest' rfl).trans (List.sublist_append_right _ _)
    · rcases scanToken_block_ok hk h' with ⟨hsafe', -⟩ | ⟨-, _, _, _, hinner', hrest', rfl⟩
      · cases hcovers.range hsafe' hsafe
      · rw [List.map_append, List.map_append]
        apply List.Sublist.append
        · exact ih _ (by omega) hinner hinner' rfl
        · exact ih _ (by omega) hrest hrest' rfl

/-- So it is with whole scans. -/
theorem scan_sublist {opts opts' : LexOptions} {src : Bytes} {found found' : List Finding}
    (hcovers : Covers opts.safeKeywords opts'.safeKeywords) (h : scan opts src = .ok found)
    (h' : scan opts' src = .ok found') :
    (found.map Finding.place).Sublist (found'.map Finding.place) := by
  rw [scan_eq_scanRange] at h h'
  cases hr : scanRange opts src src.length 0 0 1 with
  | error e => rw [hr] at h; cases h
  | ok r =>
    cases hr' : scanRange opts' src src.length 0 0 1 with
    | error e => rw [hr'] at h'; cases h'
    | ok r' =>
      rw [hr] at h
      rw [hr'] at h'
      cases h
      cases h'
      exact scanRange_sublist hcovers hr hr'

/-! ## The lines -/

/-- If all line ends are counted, a finding is told by its place: its line is that of the place. -/
theorem map_place_lineAt {opts : LexOptions} {src : Bytes} {found : List Finding}
    (h : scan opts src = .ok found) (hdrift : opts.legacyLineDrift = false) :
    (found.map Finding.place).map (fun p => ⟨lineAt src p.1, p.1, p.2⟩) = found := by
  obtain ⟨last, hrun, rfl⟩ := run_of_scan_ok h
  have hnumbered := (Reachable.start.run_ok hrun).1.numbered hdrift
  have hline : ∀ f ∈ last.found.toList,
      (⟨lineAt src f.place.1, f.place.1, f.place.2⟩ : Finding) = f := by
    intro f hf
    rw [Finding.place, ← hnumbered.found f (Array.mem_toList_iff.1 hf)]
  rw [List.map_map]
  exact (List.map_congr_left hline).trans (List.map_id _)

/-- Then also the lines agree. -/
theorem sublist_of_covers {words words' : List Bytes} {src : Bytes} {found found' : List Finding}
    (hcovers : Covers words words') (h : scan ⟨words, false⟩ src = .ok found)
    (h' : scan ⟨words', false⟩ src = .ok found') : found.Sublist found' := by
  rw [← map_place_lineAt h rfl, ← map_place_lineAt h' rfl]
  exact (scan_sublist hcovers h h').map _

/-- **With more keywords more is found.**  If all line ends are counted, the findings depend on the
    keywords as a set.  If that set grows, what was found is found again, in the same order and on the
    same lines; and without keywords everything is found that is found with any. -/
theorem found_sublist {src : Bytes} {words : List Bytes} {found : List Finding}
    (h : scan ⟨words, false⟩ src = .ok found) (words' : List Bytes) :
    ∃ found' all, scan ⟨words', false⟩ src = .ok found' ∧ scan ⟨[], false⟩ src = .ok all ∧
      (words ≠ [] → words ⊆ words' → found.Sublist found') ∧
      (words ⊆ words' → words' ⊆ words → found' = found) ∧ found.Sublist all := by
  obtain ⟨found', h'⟩ := scan_ok_of_ok h ⟨words', false⟩
  obtain ⟨all, hall⟩ := scan_ok_of_ok h ⟨[], false⟩
  refine ⟨found', all, h', hall, ?_, ?_, ?_⟩
  · intro hne hsub
    exact sublist_of_covers (covers_of_subset fun _ => ⟨hne, hsub⟩) h h'
  · intro hsub hsub'
    apply List.Sublist.antisymm
    · exact sublist_of_covers (covers_of_same hsub' hsub) h' h
    · exact sublist_of_covers (covers_of_same hsub hsub') h h'
  · exact sublist_of_covers (covers_of_subset fun hne => absurd rfl hne) h hall

/-- A block that is passed over for one keyword and scanned for two. -/
theorem found_sublist_block :
    let src := Bytes.ofString "final int[] a = \x7b2,\n3\x7d; 4"
    let final := Bytes.ofString "final"
    let static := Bytes.ofString "static"
    let found : List Finding := [⟨2, 24, Bytes.ofString "4"⟩]
    let found' : List Finding :=
      [⟨1, 17, Bytes.ofString "2"⟩, ⟨2, 20, Bytes.ofString "3"⟩, ⟨2, 24, Bytes.ofString "4"⟩]
    scan ⟨[final], false⟩ src = .ok found ∧ scan ⟨[static, final], false⟩ src = .ok found' ∧
    [final] ⊆ [static, final] ∧ found.Sublist found' := by
  intro src final static found found'
  have h : scan ⟨[final], false⟩ src = .ok found := eq_ok_of_toOption (by decide +kernel)
  have h' : scan ⟨[static, final], false⟩ src = .ok found' := eq_ok_of_toOption (by decide +kernel)
  have hwords : [final] ⊆ [static, final] := List.subset_cons_self _ _
  obtain ⟨found'', all, h'', -, hsub, -⟩ := found_sublist h [static, final]
  rw [h'] at h''
  cases h''
  exact ⟨h, h', hwords, hsub (by decide) hwords⟩

end MagicNumbers
