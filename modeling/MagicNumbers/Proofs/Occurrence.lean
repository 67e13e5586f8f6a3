/-
  Where a keyword stands.

  A search ends at the first place where its word stands, so whether it succeeds depends on the places
  that a walk comes to, and not on how far the search goes on where the word does not stand.

  * `Occurs` — a word stands at a place, and ends before a bound.
  * `search_eq_found_iff` — a search finds its word just if a walk leads to such a place.
  * `search_eq_error_iff` — it fails just if a walk leads to something unclosed before that.
  * `standsAt_stop` — whether a word stands at a place shows before the next byte that neither it nor a
    name can hold.
-/
import MagicNumbers.Proofs.Surroundings

namespace MagicNumbers

/-- A word stands at a place if no name is under way there, the word begins what is left of the text, and
    no name goes on behind it. -/
theorem standsAt_iff {word : Bytes} {c : Cursor} :
    standsAt word c = true ↔
      c.lead = none ∧ (c.rest.drop word.length).head?.any Byte.isNameByte = false ∧
        word <+: c.rest := by
  rw [standsAt, Bool.and_eq_true, Bool.and_eq_true, Option.isNone_iff_eq_none, Bool.not_eq_true',
    List.isPrefixOf_iff_prefix, and_assoc]

/-- The word stands at the place and ends no later than `bound`; and the place is not the head of a
    comment or a literal, which a walk passes as a whole. -/
structure Occurs (word : Bytes) (bound : Nat) (c : Cursor) : Prop where
  le_bound : c.offset + word.length ≤ bound
  head : ∀ b ∈ c.rest.head?, b ≠ Byte.slash ∧ Byte.isQuote b = false
  stands : standsAt word c = true

theorem Occurs.length_le {word : Bytes} {bound : Nat} {c : Cursor} (h : Occurs word bound c) :
    word.length ≤ c.rest.length :=
  (standsAt_iff.1 h.stands).2.2.length_le

/-- Where a word stands that is not empty, its first byte does. -/
theorem Occurs.exists_head {word : Bytes} {bound : Nat} {c : Cursor} (hw : word ≠ [])
    (h : Occurs word bound c) : ∃ x ∈ word, c.rest.head? = some x := by
  obtain ⟨x, word, rfl⟩ := List.exists_cons_of_ne_nil hw
  obtain ⟨-, -, more, hrest⟩ := standsAt_iff.1 h.stands
  exact ⟨x, List.mem_cons_self, by rw [← hrest]; rfl⟩

/-! ## Steps of a search -/

/-- Where neither a comment nor a literal may begin, a search goes on by one byte. -/
theorem stepLength_of_single {b : UInt8} {s : Bytes}
    (h : ¬(b = Byte.slash ∨ Byte.isQuote b = true)) : stepLength b s = .ok 1 :=
  stepLength_of_ne (fun hb => h (.inl hb)) (Bool.eq_false_iff.2 fun hb => h (.inr hb))

/-- Where a word fits further on, it fits here. -/
theorem Walk.fits {word : Bytes} {bound n : Nat} {c c' : Cursor} {b : UInt8} {s : Bytes}
    (hwalk : Walk (c.advance n) c') (hr : c.rest = b :: s) (hn : stepLength b s = .ok n)
    (hbound : c'.offset + word.length ≤ bound) (hlength : word.length ≤ c'.rest.length) :
    c.offset + word.length ≤ bound ∧ MagicNumbers.fits word (b :: s) = true := by
  have hle := hwalk.offset_le
  have hend := hwalk.end_eq
  have hn' := stepLength_le hn
  rw [Cursor.offset_advance] at hle
  rw [Cursor.offset_advance, Cursor.rest_advance, hr, List.length_drop, List.length_cons] at hend
  rw [fits_iff, List.length_cons]
  omega

/-- Where a step can be made, a walk stays or makes it. -/
theorem Walk.eq_or_step {c d : Cursor} {b : UInt8} {s : Bytes} {n : Nat} (h : Walk c d)
    (hr : c.rest = b :: s) (hn : stepLength b s = .ok n) : d = c ∨ Walk (c.advance n) d := by
  cases h with
  | refl => exact .inl rfl
  | step hr' hn' h =>
    rw [hr] at hr'
    cases hr'
    rw [hn] at hn'
    cases hn'
    exact .inr h

/-! ## What a search finds -/

/-- Where a search has found its word, a walk leads. -/
theorem exists_occurs_of_searchFrom {word : Bytes} {bound : Nat} {c : Cursor}
    (h : searchFrom word bound c = .ok .found) : ∃ c', Walk c c' ∧ Occurs word bound c' := by
  fun_induction searchFrom word bound c with
  | case1 => cases h
  | case2 c b s hr _ _ k hk ih =>
    obtain ⟨c', hwalk, hoccurs⟩ := ih h
    exact ⟨c', .step hr hk hwalk, hoccurs⟩
  | case3 => cases h
  | case4 c b s hr hfit hbs hst =>
    refine ⟨c, .refl c, hfit.1, ?_, hst⟩
    rw [hr]
    rintro b' ⟨⟩
    exact ⟨fun hb => hbs (.inl hb), Bool.eq_false_iff.2 fun hb => hbs (.inr hb)⟩
  | case5 c b s hr _ hbs _ ih =>
    obtain ⟨c', hwalk, hoccurs⟩ := ih h
    exact ⟨c', .step hr (stepLength_of_single hbs) hwalk, hoccurs⟩
  | case6 => cases h

/-- A search comes to every place that a walk comes to and where the word still fits, unless it has
    found the word before. -/
theorem searchFrom_of_occurs {word : Bytes} {bound : Nat} {c c' : Cursor} (hw : word ≠ [])
    (hwalk : Walk c c') (h : Occurs word bound c') : searchFrom word bound c = .ok .found := by
  induction hwalk with
  | refl c =>
    cases hr : c.rest with
    | nil =>
      have hle := h.length_le
      rw [hr] at hle
      exact absurd (List.length_eq_zero_iff.1 (Nat.le_zero.1 hle)) hw
    | cons b s =>
      have hfit : c.offset + word.length ≤ bound ∧ fits word (b :: s) = true := by
        rw [fits_iff, ← hr]
        exact ⟨h.le_bound, h.length_le⟩
      obtain ⟨hslash, hquote⟩ := h.head b (by rw [hr]; rfl)
      rw [searchFrom_of_cons hr, if_pos hfit, if_neg (by simp [hslash, hquote]), if_pos h.stands]
  | @step c c' b s n hr hn hwalk ih =>
    rw [searchFrom_of_cons hr, if_pos (hwalk.fits hr hn h.le_bound h.length_le)]
    split
    · rw [hn]
      exact ih h
    · next hbs =>
      split
      · rfl
      · rw [stepLength_of_single hbs] at hn
        cases hn
        exact ih h

/-- **A search finds its word just if a walk leads to where the word stands before the bound.** -/
theorem search_eq_found_iff {word : Bytes} {bound : Nat} {c : Cursor} (hw : word ≠ []) :
    search word bound c = .ok .found ↔ ∃ c', Walk c c' ∧ Occurs word bound c' := by
  rw [search_of_ne_nil hw]
  constructor
  · exact exists_occurs_of_searchFrom
  · rintro ⟨c', hwalk, hoccurs⟩
    exact searchFrom_of_occurs hw hwalk hoccurs

/-! ## Where a search fails -/

/-- What begins at the place is not closed, and the word would fit there before `bound`. -/
structure CutsOff (word : Bytes) (bound : Nat) (e : Unclosed) (c : Cursor) : Prop where
  le_bound : c.offset + word.length ≤ bound
  length_le : word.length ≤ c.rest.length
  unclosed : ∃ b s u, c.rest = b :: s ∧ stepLength b s = .error u ∧ e = u.shift c.offset

/-- Where a search has failed, a walk leads, and the word stands nowhere before. -/
theorem exists_cutsOff_of_searchFrom {word : Bytes} {bound : Nat} {c : Cursor} {e : Unclosed}
    (h : searchFrom word bound c = .error e) :
    ∃ c', Walk c c' ∧ CutsOff word bound e c' ∧
      ∀ d, Walk c d → d.offset < c'.offset → ¬Occurs word bound d := by
  fun_induction searchFrom word bound c with
  | case1 => cases h
  | case2 c b s hr hfit hbs k hk ih =>
    obtain ⟨c', hwalk, hcut, hnone⟩ := ih h
    refine ⟨c', .step hr hk hwalk, hcut, ?_⟩
    intro d hd hlt hoccurs
    rcases hd.eq_or_step hr hk with rfl | hd
    · -- a word does not stand at the head of a comment or a literal
      obtain ⟨hslash, hquote⟩ := hoccurs.head b (by rw [hr]; rfl)
      rcases hbs with hb | hb
      · exact hslash hb
      · rw [hquote] at hb
        cases hb
    · exact hnone d hd hlt hoccurs
  | case3 c b s hr hfit hbs u hu =>
    cases h
    refine ⟨c, .refl c, ⟨hfit.1, ?_, b, s, u, hr, hu, rfl⟩, ?_⟩
    · rw [hr]
      exact (fits_iff _ _).1 hfit.2
    · intro d hd hlt
      exact absurd hd.offset_le (Nat.not_le.2 hlt)
  | case4 => cases h
  | case5 c b s hr hfit hbs hst ih =>
    obtain ⟨c', hwalk, hcut, hnone⟩ := ih h
    have hone := stepLength_of_single (s := s) hbs
    refine ⟨c', .step hr hone hwalk, hcut, ?_⟩
    intro d hd hlt hoccurs
    rcases hd.eq_or_step hr hone with rfl | hd
    · exact hst hoccurs.stands
    · exact hnone d hd hlt hoccurs
  | case6 => cases h

/-- A search comes to every place where it may fail, unless the word stands before it. -/
theorem searchFrom_of_cutsOff {word : Bytes} {bound : Nat} {c c' : Cursor} {e : Unclosed}
    (hwalk : Walk c c') (h : CutsOff word bound e c')
    (hnone : ∀ d, Walk c d → d.offset < c'.offset → ¬Occurs word bound d) :
    searchFrom word bound c = .error e := by
  induction hwalk with
  | refl c =>
    obtain ⟨b, s, u, hr, hu, rfl⟩ := h.unclosed
    have hfit : c.offset + word.length ≤ bound ∧ fits word (b :: s) = true := by
      rw [fits_iff, ← hr]
      exact ⟨h.le_bound, h.length_le⟩
    have hbs : b = Byte.slash ∨ Byte.isQuote b = true := by
      refine Decidable.byContradiction fun hbs => ?_
      rw [stepLength_of_single hbs] at hu
      cases hu
    rw [searchFrom_of_cons hr, if_pos hfit, if_pos hbs, hu]
  | @step c c' b s n hr hn hwalk ih =>
    have hpos := stepLength_pos hn
    have hle := hwalk.offset_le
    rw [Cursor.offset_advance] at hle
    have later : searchFrom word bound (c.advance n) = .error e :=
      ih h fun d hd hlt => hnone d (.step hr hn hd) hlt
    have hfit := hwalk.fits hr hn h.le_bound h.length_le
    rw [searchFrom_of_cons hr, if_pos hfit]
    split
    · rw [hn]
      exact later
    · next hbs =>
      have hstands : ¬standsAt word c = true := by
        intro hst
        refine hnone c (.refl c) (by omega) ⟨hfit.1, ?_, hst⟩
        rw [hr]
        rintro b' ⟨⟩
        exact ⟨fun hb => hbs (.inl hb), Bool.eq_false_iff.2 fun hb => hbs (.inr hb)⟩
      rw [stepLength_of_single hbs] at hn
      cases hn
      rw [if_neg hstands]
      exact later

/-- **A search fails just if a walk leads to something unclosed where the word still fits, and to no place
    before it where the word stands.** -/
theorem search_eq_error_iff {word : Bytes} {bound : Nat} {c : Cursor} {e : Unclosed} (hw : word ≠ []) :
    search word bound c = .error e ↔
      ∃ c', Walk c c' ∧ CutsOff word bound e c' ∧
        ∀ d, Walk c d → d.offset < c'.offset → ¬Occurs word bound d := by
  rw [search_of_ne_nil hw]
  constructor
  · exact exists_cutsOff_of_searchFrom
  · rintro ⟨c', hwalk, hcut, hnone⟩
    exact searchFrom_of_cutsOff hwalk hcut hnone

/-! ## Words and stops -/

/-- A word that a byte is not in begins a text before that byte, if it begins the text. -/
theorem prefix_append_cons_iff {word u more : Bytes} {x : UInt8} (hx : x ∉ word) :
    word <+: u ++ x :: more ↔ word <+: u := by
  constructor
  · intro h
    have hle : word.length ≤ u.length := by
      refine Nat.le_of_not_lt fun hlt => ?_
      -- else the word would hold the byte behind `u`
      have hu : u ++ [x] <+: u ++ x :: more :=
        ⟨more, by rw [List.append_assoc, List.singleton_append]⟩
      have hlong : u ++ [x] <+: word := by
        apply List.prefix_of_prefix_length_le hu h
        rw [List.length_append, List.length_singleton]
        omega
      exact hx (hlong.subset (List.mem_append_right u (List.mem_singleton_self x)))
    exact List.prefix_of_prefix_length_le h (List.prefix_append _ _) hle
  · intro h
    exact h.trans (List.prefix_append _ _)

/-- **Whether a word stands at a place shows before the next byte that is in no name and not in it.** -/
theorem standsAt_stop {word u more : Bytes} {x : UInt8} (hname : Byte.isNameByte x = false)
    (hx : x ∉ word) (n m : Nat) (lead : Option UInt8) :
    standsAt word ⟨n, lead, u ++ x :: more⟩ = standsAt word ⟨m, lead, u⟩ := by
  rw [Bool.eq_iff_iff, standsAt_iff, standsAt_iff]
  simp only
  rw [prefix_append_cons_iff hx]
  refine and_congr_right fun _ => and_congr_left fun hprefix => ?_
  rw [List.drop_append_of_le_length hprefix.length_le]
  cases u.drop word.length with
  | nil => simp [hname]
  | cons a u => rfl

end MagicNumbers
