/-
  Searches that go on where they paused.

  The places a search visits do not depend on its bound: a larger bound only makes it go further.

  * `searchFrom_of_le` — the search under a larger bound is the search under the smaller one, gone on
    with from where it paused.
  * `Search.Knows` — what a search remembers is right for every bound that is yet to be asked.
  * `Statement.ask_eq` — so a statement that is asked again and again answers as if each question
    were asked afresh, and what it knows afterwards is right again (`Statement.ask_knows`).
  * `Statement.askAll_eq` — and so does a statement that is asked a whole row of questions.
-/
import MagicNumbers.Context.Statement

namespace MagicNumbers

/-! ## One search under two bounds -/

/-- The empty word is found nowhere. -/
@[simp] theorem search_nil (bound : Nat) (c : Cursor) : search [] bound c = .ok (.paused c) := rfl

/-- Any other word is looked for step by step. -/
theorem search_of_ne_nil {word : Bytes} (hw : word ≠ []) (bound : Nat) (c : Cursor) :
    search word bound c = searchFrom word bound c := by
  rw [search, if_neg (by simpa using hw)]

/-- At the end of the text a search pauses. -/
theorem searchFrom_of_nil {word : Bytes} {bound : Nat} {c : Cursor} (hr : c.rest = []) :
    searchFrom word bound c = .ok (.paused c) := by
  rw [searchFrom]
  split
  · rfl
  · next b s hr' => rw [hr] at hr'; cases hr'

/-- One step of a search that is not at the end of the text. -/
theorem searchFrom_of_cons {word : Bytes} {bound : Nat} {c : Cursor} {b : UInt8} {s : Bytes}
    (hr : c.rest = b :: s) :
    searchFrom word bound c =
      if c.offset + word.length ≤ bound ∧ fits word (b :: s) then
        if b = Byte.slash ∨ Byte.isQuote b then
          match stepLength b s with
          | .ok k => searchFrom word bound (c.advance k)
          | .error e => .error (e.shift c.offset)
        else if standsAt word c then .ok .found
        else searchFrom word bound (c.advance 1)
      else .ok (.paused c) := by
  rw [searchFrom]
  split
  · next hr' => rw [hr] at hr'; cases hr'
  · next b' s' hr' =>
    rw [hr] at hr'
    cases hr'
    split
    · split
      · split
        · next h => rw [h]
        · next h => rw [h]
      · rfl
    · rfl

/-- **The places that a search visits do not depend on its bound**: under a larger bound it does what
    it did under the smaller one, and goes on if that came up empty. -/
theorem searchFrom_of_le {word : Bytes} {bound bound' : Nat} (hb : bound ≤ bound') (c : Cursor) :
    searchFrom word bound' c =
      match searchFrom word bound c with
      | .ok .found => .ok .found
      | .ok (.paused c') => searchFrom word bound' c'
      | .error e => .error e := by
  fun_induction searchFrom word bound c with
  | case1 => rfl
  | case2 c b s hr hfit hbs k hk ih =>
    rw [searchFrom_of_cons hr, if_pos ⟨by omega, hfit.2⟩, if_pos hbs, hk]
    exact ih
  | case3 c b s hr hfit hbs e he =>
    rw [searchFrom_of_cons hr, if_pos ⟨by omega, hfit.2⟩, if_pos hbs, he]
  | case4 c b s hr hfit hbs hst =>
    rw [searchFrom_of_cons hr, if_pos ⟨by omega, hfit.2⟩, if_neg hbs, if_pos hst]
  | case5 c b s hr hfit hbs hst ih =>
    rw [searchFrom_of_cons hr, if_pos ⟨by omega, hfit.2⟩, if_neg hbs, if_neg hst]
    exact ih
  | case6 => rfl

/-- A word that was found is found under every larger bound. -/
theorem search_found_of_le {word : Bytes} {bound bound' : Nat} {c : Cursor} (hb : bound ≤ bound')
    (h : search word bound c = .ok .found) : search word bound' c = .ok .found := by
  by_cases hw : word = []
  · subst hw
    cases h
  · rw [search_of_ne_nil hw] at h ⊢
    rw [searchFrom_of_le hb, h]

/-- A search that paused may go on from there. -/
theorem search_paused_of_le {word : Bytes} {bound bound' : Nat} {c c' : Cursor}
    (hb : bound ≤ bound') (h : search word bound c = .ok (.paused c')) :
    search word bound' c' = search word bound' c := by
  by_cases hw : word = []
  · subst hw
    cases h
    rfl
  · rw [search_of_ne_nil hw] at h ⊢
    rw [search_of_ne_nil hw, searchFrom_of_le hb c, h]

/-- Where the bound lies no further than the place, no word fits. -/
theorem search_of_le_offset {word : Bytes} {bound : Nat} {c : Cursor} (hb : bound ≤ c.offset) :
    search word bound c = .ok (.paused c) := by
  by_cases hw : word = []
  · rw [hw, search_nil]
  · have hlen : 0 < word.length := List.length_pos_iff.2 hw
    rw [search_of_ne_nil hw]
    cases hr : c.rest with
    | nil => exact searchFrom_of_nil hr
    | cons b s => rw [searchFrom_of_cons hr, if_neg (by omega)]

/-- A range that is empty or reversed holds nothing. -/
theorem holdsAll_of_le_offset {words : List Bytes} {bound : Nat} {c : Cursor}
    (hb : bound ≤ c.offset) : holdsAll words bound c = .ok false := by
  cases words with
  | nil => rfl
  | cons word words => rw [holdsAll, if_neg (by simp), allFound, search_of_le_offset hb]

/-! ## What a statement remembers -/

/-- What is remembered of the search for a word from `start` on is right for every bound from
    `reach` on: found, it is found under all of them; paused, it answers from there as it would from
    `start`. -/
def Search.Knows (word : Bytes) (start : Cursor) (reach : Nat) : Search → Prop
  | found => ∀ bound, reach ≤ bound → search word bound start = .ok .found
  | paused c => ∀ bound, reach ≤ bound → search word bound c = search word bound start

/-- What is right from some bound on is right from a larger one on. -/
theorem Search.Knows.mono {word : Bytes} {start : Cursor} {reach reach' : Nat} {r : Search}
    (h : r.Knows word start reach) (hle : reach ≤ reach') : r.Knows word start reach' := by
  cases r with
  | found => exact fun bound hb => h bound (Nat.le_trans hle hb)
  | paused c => exact fun bound hb => h bound (Nat.le_trans hle hb)

/-- The answer of a search is worth remembering. -/
theorem Search.knows_of_search {word : Bytes} {start c : Cursor} {bound : Nat} {r : Search}
    (hc : search word bound c = search word bound start) (h : search word bound c = .ok r) :
    r.Knows word start bound := by
  rw [hc] at h
  cases r with
  | found => exact fun bound' hb => search_found_of_le hb h
  | paused c' => exact fun bound' hb => search_paused_of_le hb h

namespace Statement

/-- The statement keeps what it needs to answer about `words` as if it were asked afresh. -/
structure Knows (words : List Bytes) (st : Statement) : Prop where
  words_eq : st.keywords = words
  searches : ∀ p ∈ st.searches, p.2.Knows p.1 st.start st.reach

/-- Of a new statement nothing is known, and so nothing wrong. -/
theorem knows_fresh (words : List Bytes) (c : Cursor) : (fresh words c).Knows words where
  words_eq := keywords_fresh words c
  searches := by
    intro p hp
    obtain ⟨word, -, rfl⟩ := List.mem_map.1 hp
    exact fun bound _ => rfl

/-- Searches that go on answer as fresh ones do, whatever was found before, and are right again
    afterwards.  Where one fails or comes up empty, those after it have not been touched. -/
theorem resume_spec {start : Cursor} {reach bound : Nat} (hb : reach ≤ bound)
    (searches : List (Bytes × Search)) (h : ∀ p ∈ searches, p.2.Knows p.1 start reach) :
    (resume bound searches).1 = allFound bound start (searches.map (·.1)) ∧
    (resume bound searches).2.map (·.1) = searches.map (·.1) ∧
    ∀ p ∈ (resume bound searches).2, p.2.Knows p.1 start bound := by
  induction searches with
  | nil => exact ⟨rfl, rfl, fun p hp => absurd hp List.not_mem_nil⟩
  | cons p rest ih =>
    obtain ⟨word, r⟩ := p
    have hrest : ∀ p ∈ rest, p.2.Knows p.1 start reach := fun p hp => h p (List.mem_cons_of_mem _ hp)
    have hword : r.Knows word start reach := h (word, r) List.mem_cons_self
    obtain ⟨hans, hwords, hknows⟩ := ih hrest
    cases r with
    | found =>
      have hfound : search word bound start = .ok .found := hword bound hb
      refine ⟨?_, ?_, ?_⟩
      · simp only [resume, List.map_cons, allFound, hfound, hans]
      · simp only [resume, List.map_cons, hwords]
      · intro p hp
        rcases List.mem_cons.1 hp with rfl | hp
        · exact hword.mono hb
        · exact hknows p hp
    | paused c =>
      have hc : search word bound c = search word bound start := hword bound hb
      cases hs : search word bound c with
      | error e =>
        have hs' : search word bound start = .error e := hc ▸ hs
        refine ⟨?_, ?_, ?_⟩
        · simp only [resume, hs, List.map_cons, allFound, hs']
        · simp only [resume, hs, List.map_cons]
        · simp only [resume, hs]
          exact fun p hp => (h p hp).mono hb
      | ok r =>
        have hs' : search word bound start = .ok r := hc ▸ hs
        have hr : r.Knows word start bound := Search.knows_of_search hc hs
        cases r with
        | paused c' =>
          refine ⟨?_, ?_, ?_⟩
          · simp only [resume, hs, List.map_cons, allFound, hs']
          · simp only [resume, hs, List.map_cons]
          · simp only [resume, hs]
            intro p hp
            rcases List.mem_cons.1 hp with rfl | hp
            · exact hr
            · exact (hrest p hp).mono hb
        | found =>
          refine ⟨?_, ?_, ?_⟩
          · simp only [resume, hs, List.map_cons, allFound, hs', hans]
          · simp only [resume, hs, List.map_cons, hwords]
          · simp only [resume, hs]
            intro p hp
            rcases List.mem_cons.1 hp with rfl | hp
            · exact hr
            · exact hknows p hp

/-- **A statement answers as if it were asked afresh**, whatever it was asked before. -/
theorem ask_eq {words : List Bytes} {st : Statement} (h : st.Knows words) (bound : Nat) :
    (st.ask bound).1 = holdsAll words bound st.start := by
  rw [ask]
  split
  · next hnil =>
    have hwords : words = [] := by
      rw [← h.words_eq, keywords, List.isEmpty_iff.1 hnil, List.map_nil]
    rw [hwords]
    rfl
  · next hne =>
    split
    · rw [h.words_eq]
    · next hle =>
      have hwords : words ≠ [] := by
        rintro rfl
        exact hne (List.isEmpty_iff.2 (List.map_eq_nil_iff.1 h.words_eq))
      rw [holdsAll, if_neg (by simpa using hwords), ← h.words_eq]
      exact (resume_spec (Nat.le_of_not_lt hle) st.searches h.searches).1

/-- Nothing that is remembered of a question is wrong for the next. -/
theorem ask_knows {words : List Bytes} {st : Statement} (h : st.Knows words) (bound : Nat) :
    (st.ask bound).2.Knows words ∧ (st.ask bound).2.start = st.start := by
  rw [ask]
  split
  · exact ⟨h, rfl⟩
  · split
    · exact ⟨h, rfl⟩
    · next hle =>
      have hspec := resume_spec (Nat.le_of_not_lt hle) st.searches h.searches
      exact ⟨⟨hspec.2.1.trans h.words_eq, hspec.2.2⟩, rfl⟩

/-- **So is a whole row of questions answered**, in whatever order the bounds come and whatever was
    answered in between, failures included. -/
theorem askAll_eq {words : List Bytes} {st : Statement} (h : st.Knows words) (bounds : List Nat) :
    st.askAll bounds = bounds.map fun bound => holdsAll words bound st.start := by
  induction bounds generalizing st with
  | nil => rfl
  | cons bound bounds ih =>
    obtain ⟨hknows, hstart⟩ := ask_knows h bound
    show (st.ask bound).1 :: (st.ask bound).2.askAll bounds = _
    rw [ih hknows, hstart, ask_eq h, List.map_cons]

end Statement

end MagicNumbers
