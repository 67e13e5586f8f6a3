/-
  A text as a part of a larger one.

  Some bytes precede the text, others follow it.  A place in the text is then a place in the larger one,
  and what leads a name there is taken to be the same.

  * `Cursor.within` — the place in the larger text.
  * `Walk.within` — a walk in the text is one in the larger text, if it ends before the text does or
    nothing follows.
  * `Walk.search_within`, `Walk.holdsAll_within` — looking for keywords gives the same answers in both
    texts, up to where a walk in the larger one has come without leaving the text.
-/
import MagicNumbers.Proofs.Restriction
import MagicNumbers.Scan.Finding

namespace MagicNumbers

/-- What surrounds a text in a larger one. -/
structure Surroundings where
  /-- How many bytes precede the text. -/
  offset : Nat
  /-- How many line ends are counted before it. -/
  line : Nat
  /-- What was found before it. -/
  found : List Finding
  /-- The bytes that follow the text. -/
  after : Bytes

/-! ## Places -/

namespace Cursor

variable {w : Surroundings} {c : Cursor}

/-- The place in the larger text. -/
def within (w : Surroundings) (c : Cursor) : Cursor := ⟨w.offset + c.offset, c.lead, c.rest ++ w.after⟩

@[simp] theorem offset_within : (c.within w).offset = w.offset + c.offset := rfl

@[simp] theorem lead_within : (c.within w).lead = c.lead := rfl

@[simp] theorem rest_within : (c.within w).rest = c.rest ++ w.after := rfl

/-- A move that does not lead out of the text is the same move in the larger one. -/
theorem advance_within {n : Nat} (hn : n ≤ c.rest.length) :
    (c.within w).advance n = (c.advance n).within w := by
  rw [advance_eq, advance_eq, within, within]
  simp only [List.take_append_of_le_length hn, List.drop_append_of_le_length hn, Nat.add_assoc]

end Cursor

/-! ## Walks -/

/-- A walk stays in one text. -/
theorem Walk.end_eq {c c' : Cursor} (h : Walk c c') :
    c'.offset + c'.rest.length = c.offset + c.rest.length := by
  induction h with
  | refl => rfl
  | step hr hn _ ih =>
    have hle := stepLength_le hn
    rw [Cursor.offset_advance, Cursor.rest_advance, hr, List.length_drop, List.length_cons] at ih
    rw [hr, List.length_cons]
    omega

/-- At the end of a text no walk goes on. -/
theorem Walk.eq_of_rest_nil {c c' : Cursor} (h : Walk c c') (hr : c.rest = []) : c' = c := by
  cases h with
  | refl => rfl
  | step hr' =>
    rw [hr] at hr'
    cases hr'

/-- **A walk in the text is one in the larger text**, if it ends before the text does or nothing
    follows. -/
theorem Walk.within {w : Surroundings} {c c' : Cursor} (h : Walk c c')
    (hw : w.after = [] ∨ c'.rest ≠ []) : Walk (c.within w) (c'.within w) := by
  induction h with
  | refl c => exact .refl _
  | @step c c' b s n hr hn h ih =>
    have hle := stepLength_le hn
    have hrest : (c.within w).rest = b :: (s ++ w.after) := by
      rw [Cursor.rest_within, hr, List.cons_append]
    have hstep : stepLength b (s ++ w.after) = .ok n := by
      rcases hw with hnil | hne
      · rw [hnil, List.append_nil]
        exact hn
      · -- the step ends before the walk does, and so before the text
        have hend := h.end_eq
        have hoff := h.offset_le
        have hpos := List.length_pos_iff.2 hne
        rw [Cursor.offset_advance, Cursor.rest_advance, hr, List.length_drop, List.length_cons] at hend
        rw [Cursor.offset_advance] at hoff
        exact stepLength_append hn (by omega) w.after
    refine .step hrest hstep ?_
    rw [Cursor.advance_within (by rw [hr]; exact hle)]
    exact ih hw

/-! ## Keywords -/

/-- The place `c'` of the larger text is no further than the end of the text that `c` is in; and if it
    is that end, no name goes on there. -/
structure Surroundings.Reach (w : Surroundings) (c c' : Cursor) : Prop where
  offset_le : c'.offset ≤ w.offset + c.offset + c.rest.length
  ends : w.after.head?.any Byte.isNameByte = false ∨
    c'.offset < w.offset + c.offset + c.rest.length

/-- How far a walk in the text reaches in the larger one. -/
theorem Walk.reach {w : Surroundings} {c c' : Cursor} (h : Walk c c')
    (hw : w.after = [] ∨ c'.rest ≠ []) : w.Reach c (c'.within w) := by
  have hend := h.end_eq
  constructor
  · rw [Cursor.offset_within]
    omega
  · rcases hw with hnil | hne
    · rw [hnil]
      exact .inl rfl
    · have hpos := List.length_pos_iff.2 hne
      rw [Cursor.offset_within]
      exact .inr (by omega)

/-- Behind a move in the text it reaches no further. -/
theorem Surroundings.Reach.advance {w : Surroundings} {c c' : Cursor} {n : Nat} (h : w.Reach c c')
    (hn : n ≤ c.rest.length) : w.Reach (c.advance n) c' := by
  have heq : w.offset + (c.advance n).offset + (c.advance n).rest.length =
      w.offset + c.offset + c.rest.length := by
    rw [Cursor.offset_advance, Cursor.rest_advance, List.length_drop]
    omega
  constructor
  · rw [heq]
    exact h.offset_le
  · rw [heq]
    exact h.ends

/-- A word that fits in the text stands in the larger one just if it does in the text: the byte behind
    it is the same, or no name goes on there. -/
theorem standsAt_within {w : Surroundings} {word : Bytes} {c : Cursor}
    (hword : word.length ≤ c.rest.length)
    (hend : w.after.head?.any Byte.isNameByte = false ∨ word.length < c.rest.length) :
    standsAt word (c.within w) = standsAt word c := by
  have hhead : ((c.rest ++ w.after).drop word.length).head?.any Byte.isNameByte =
      (c.rest.drop word.length).head?.any Byte.isNameByte := by
    rw [List.drop_append_of_le_length hword]
    cases hdrop : c.rest.drop word.length with
    | cons a u => rfl
    | nil =>
      rcases hend with hname | hlt
      · exact hname
      · rw [List.drop_eq_nil_iff] at hdrop
        omega
  have hprefix : word.isPrefixOf (c.rest ++ w.after) = word.isPrefixOf c.rest := by
    rw [Bool.eq_iff_iff, List.isPrefixOf_iff_prefix, List.isPrefixOf_iff_prefix]
    constructor
    · intro hpre
      exact List.prefix_of_prefix_length_le hpre (List.prefix_append _ _) hword
    · intro hpre
      exact hpre.trans (List.prefix_append _ _)
  simp only [standsAt, Cursor.lead_within, Cursor.rest_within, hhead, hprefix]

/-- A step of a search that both texts take finds the same in both, if the search from there does. -/
theorem searchFrom_within_of_step {w : Surroundings} {c : Cursor} {b : UInt8} {s word : Bytes}
    {bound n : Nat} (hr : c.rest = b :: s) (hn : stepLength b s = .ok n)
    (hn' : stepLength b (s ++ w.after) = .ok n)
    (hfits : c.offset + word.length ≤ bound → word.length ≤ c.rest.length ∧
      (w.after.head?.any Byte.isNameByte = false ∨ word.length < c.rest.length))
    (hnext : (searchFrom word (w.offset + bound) ((c.within w).advance n)).map Search.isFound =
      (searchFrom word bound (c.advance n)).map Search.isFound) :
    (searchFrom word (w.offset + bound) (c.within w)).map Search.isFound =
      (searchFrom word bound c).map Search.isFound := by
  have hr' : (c.within w).rest = b :: (s ++ w.after) := by
    rw [Cursor.rest_within, hr, List.cons_append]
  rw [searchFrom_of_cons hr', searchFrom_of_cons hr, Cursor.offset_within]
  by_cases hle : c.offset + word.length ≤ bound
  · obtain ⟨hword, hend⟩ := hfits hle
    have hfit : c.offset + word.length ≤ bound ∧ fits word (b :: s) = true := by
      rw [fits_iff, ← hr]
      exact ⟨hle, hword⟩
    have hfit' : w.offset + c.offset + word.length ≤ w.offset + bound ∧
        fits word (b :: (s ++ w.after)) = true := by
      rw [fits_iff, ← List.cons_append, ← hr, List.length_append]
      omega
    rw [if_pos hfit', if_pos hfit]
    by_cases hbs : b = Byte.slash ∨ Byte.isQuote b = true
    · rw [if_pos hbs, if_pos hbs, hn, hn']
      exact hnext
    · have hone : stepLength b s = .ok 1 :=
        stepLength_of_ne (fun h => hbs (.inl h)) (Bool.eq_false_iff.2 fun h => hbs (.inr h))
      rw [hn] at hone
      cases hone
      rw [if_neg hbs, if_neg hbs, standsAt_within hword hend]
      split
      · rfl
      · exact hnext
  · rw [if_neg (by omega), if_neg (by omega)]
    rfl

/-- **A search finds in the larger text what it finds in the text**, up to where a walk in the larger
    one has come. -/
theorem Walk.search_within {w : Surroundings} {c c' : Cursor} (h : Walk (c.within w) c')
    (hw : w.Reach c c') {bound : Nat} (hb : w.offset + bound ≤ c'.offset) (word : Bytes) :
    (search word (w.offset + bound) (c.within w)).map Search.isFound =
      (search word bound c).map Search.isFound := by
  by_cases hne : word = []
  · rw [hne]
    rfl
  rw [search_of_ne_nil hne, search_of_ne_nil hne]
  generalize hc : c.within w = c₀ at h ⊢
  induction h generalizing c with
  | refl =>
    subst hc
    have hb' : bound ≤ c.offset := by
      rw [Cursor.offset_within] at hb
      omega
    rw [← search_of_ne_nil hne, ← search_of_ne_nil hne, search_of_le_offset hb, search_of_le_offset hb']
    rfl
  | @step c₀ c' b l n hr hn h ih =>
    subst hc
    have hpos := stepLength_pos hn
    have hend := hw.offset_le
    have hoff := h.offset_le
    rw [Cursor.offset_advance, Cursor.offset_within] at hoff
    rw [Cursor.rest_within] at hr
    obtain ⟨s, hs, rfl⟩ := cons_of_append hr (by omega)
    -- the step is one of the text, and what fits before the bound lies in the text
    have hle : n ≤ c.rest.length := by omega
    have hstep : stepLength b s = .ok n := by
      refine stepLength_of_append hn ?_
      rw [hs, List.length_cons] at hle
      exact hle
    have hnext := ih (hw.advance hle) hb (Cursor.advance_within hle).symm
    refine searchFrom_within_of_step hs hstep hn ?_ hnext
    intro hfit
    refine ⟨by omega, hw.ends.imp_right ?_⟩
    intro hlt
    omega

/-- Searches that find the same words answer alike. -/
theorem allFound_congr {bound bound' : Nat} {c c' : Cursor}
    (h : ∀ word, (search word bound' c').map Search.isFound = (search word bound c).map Search.isFound)
    (words : List Bytes) : allFound bound' c' words = allFound bound c words := by
  induction words with
  | nil => rfl
  | cons word words ih =>
    have hword := h word
    rw [allFound, allFound]
    cases hr : search word bound c with
    | error e =>
      rw [hr] at hword
      cases hr' : search word bound' c' with
      | error e' => rw [hr'] at hword; cases hword; rfl
      | ok r' => rw [hr'] at hword; cases hword
    | ok r =>
      rw [hr] at hword
      cases hr' : search word bound' c' with
      | error e' => rw [hr'] at hword; cases hword
      | ok r' =>
        rw [hr'] at hword
        cases r <;> cases r' <;> first | exact ih | rfl | cases hword

/-- **The keyword question has the same answer in the larger text.** -/
theorem Walk.holdsAll_within {w : Surroundings} {c c' : Cursor} (h : Walk (c.within w) c')
    (hw : w.Reach c c') {bound : Nat} (hb : w.offset + bound ≤ c'.offset) (words : List Bytes) :
    holdsAll words (w.offset + bound) (c.within w) = holdsAll words bound c := by
  rw [holdsAll, holdsAll, allFound_congr (h.search_within hw hb)]

/-- So it has for the header of a block, which ends a byte before the brace: also where the brace is
    the first byte of the text, and there is no such byte in it. -/
theorem Walk.holdsAll_header_within {w : Surroundings} {c c' : Cursor} {pos : Nat}
    (h : Walk (c.within w) c') (hw : w.Reach c c') (hpos : c'.offset = w.offset + pos)
    (words : List Bytes) :
    holdsAll words (w.offset + pos - 1) (c.within w) = holdsAll words (pos - 1) c := by
  have hle := h.offset_le
  rw [Cursor.offset_within] at hle
  rcases Nat.eq_zero_or_pos pos with hzero | hlt
  · -- both headers are empty
    have hb : w.offset + pos - 1 ≤ (c.within w).offset := by
      rw [Cursor.offset_within]
      omega
    rw [holdsAll_of_le_offset hb, holdsAll_of_le_offset (by omega)]
  · rw [show w.offset + pos - 1 = w.offset + (pos - 1) by omega]
    exact h.holdsAll_within hw (by omega) words

end MagicNumbers
