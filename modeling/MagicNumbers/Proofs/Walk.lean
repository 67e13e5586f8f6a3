/-
  Lexical walks.

  A walk goes by lexical steps: over a comment or a quoted literal as a whole, over any other byte by
  itself.  It is how keywords are looked for, and every token but a block is passed by one.

  * `Walk.of_token` — from the head of a token to its end there is a walk.
  * `Walk.holdsAll_ok` — where a walk has been, looking for keywords meets nothing unclosed.
-/
import MagicNumbers.Proofs.Search
import MagicNumbers.Proofs.Tokens

namespace MagicNumbers

/-- From one place a walk leads to another. -/
inductive Walk : Cursor → Cursor → Prop
  | refl (c : Cursor) : Walk c c
  | step {c c' : Cursor} {b : UInt8} {s : Bytes} {n : Nat} (hr : c.rest = b :: s)
      (hn : stepLength b s = .ok n) (h : Walk (c.advance n) c') : Walk c c'

theorem Walk.trans {a b c : Cursor} (hab : Walk a b) (hbc : Walk b c) : Walk a c := by
  induction hab with
  | refl => exact hbc
  | step hr hn _ ih => exact .step hr hn (ih hbc)

/-- A walk does not lead back. -/
theorem Walk.offset_le {c c' : Cursor} (h : Walk c c') : c.offset ≤ c'.offset := by
  induction h with
  | refl => exact Nat.le_refl _
  | step _ _ _ ih =>
    rw [Cursor.offset_advance] at ih
    omega

/-- A single step is a walk. -/
theorem Walk.single {c : Cursor} {b : UInt8} {s : Bytes} {n : Nat} (hr : c.rest = b :: s)
    (hn : stepLength b s = .ok n) : Walk c (c.advance n) :=
  .step hr hn (.refl _)

/-! ## Tokens are passed by walks -/

/-- A walk passes over plain bytes one by one. -/
theorem Walk.of_plain {n : Nat} {c : Cursor} (hn : n ≤ c.rest.length)
    (hp : Plain (c.rest.take n)) : Walk c (c.advance n) := by
  induction n generalizing c with
  | zero => rw [Cursor.advance_zero]; exact .refl c
  | succ n ih =>
    cases hr : c.rest with
    | nil => rw [hr] at hn; simp at hn
    | cons b s =>
      rw [hr, List.take_succ_cons, plain_cons] at hp
      rw [Nat.add_comm, ← Cursor.advance_advance]
      refine .step hr (stepLength_of_notMem_marks hp.1) (ih ?_ ?_)
      · rw [hr] at hn
        simpa [hr] using hn
      · simpa [hr] using hp.2

/-- **From the head of a token that is no block to its end there is a walk.** -/
theorem Walk.of_token {c : Cursor} {b : UInt8} {s : Bytes} {t : Token} (hr : c.rest = b :: s)
    (ht : Token.read c.lead b s = .ok t) (hk : t.kind ≠ .block) : Walk c (c.advance t.length) := by
  have hle : t.length ≤ c.rest.length := by
    rw [hr, List.length_cons]
    exact (Token.read_bounds ht).2
  rcases Token.step_or_plain ht hk with hn | hp
  · exact .single hr hn
  · exact .of_plain hle (by rw [hr]; exact hp)

/-! ## Keywords on a walk -/

/-- A search stays on the walk until it reaches its bound, so it meets nothing that the walk has not
    passed. -/
theorem Walk.search_ok {c c' : Cursor} (h : Walk c c') {bound : Nat} (hb : bound ≤ c'.offset)
    (word : Bytes) : ∃ r, search word bound c = .ok r := by
  by_cases hw : word = []
  · exact ⟨_, by rw [hw, search_nil]⟩
  induction h with
  | refl c => exact ⟨_, search_of_le_offset hb⟩
  | @step c c' b s n hr hn h ih =>
    rw [search_of_ne_nil hw, searchFrom_of_cons hr]
    rw [search_of_ne_nil hw] at ih
    split
    · split
      · rw [hn]
        exact ih hb
      · next hbs =>
        split
        · exact ⟨_, rfl⟩
        · have hone : stepLength b s = .ok 1 :=
            stepLength_of_ne (fun h => hbs (.inl h)) (Bool.eq_false_iff.2 fun h => hbs (.inr h))
          rw [hone] at hn
          cases hn
          exact ih hb
    · exact ⟨_, rfl⟩

/-- **Where a walk has been, the keyword question has an answer.** -/
theorem Walk.holdsAll_ok {c c' : Cursor} (h : Walk c c') {bound : Nat} (hb : bound ≤ c'.offset)
    (words : List Bytes) : ∃ safe, holdsAll words bound c = .ok safe := by
  have hall : ∃ safe, allFound bound c words = .ok safe := by
    induction words with
    | nil => exact ⟨true, rfl⟩
    | cons word words ih =>
      obtain ⟨r, hr⟩ := h.search_ok hb word
      rw [allFound, hr]
      cases r with
      | found => exact ih
      | paused => exact ⟨false, rfl⟩
  rw [holdsAll]
  split
  · exact ⟨false, rfl⟩
  · exact hall

end MagicNumbers
