/-
  Blocks inside blocks.

  The end of a block is found by counting braces.  Here the count is read as nesting:

  * `blockFrom_add` — to close some braces and then more is to go on from where the first are closed,
    whether or not that succeeds.
  * `Cursor.ClosesAt` — the brace at an offset closes the block that a place lies in.
  * `Cursor.ClosesAt.token` — inside a block, a token can be read at every place that is reached token
    by token, and it ends inside the block.
-/
import MagicNumbers.Proofs.Walk

namespace MagicNumbers

/-! ## Counting braces -/

theorem blockFrom_openBrace (depth n : Nat) (s : Bytes) :
    blockFrom depth n (Byte.openBrace :: s) = blockFrom (depth + 1) (n + 1) s := by
  rw [blockFrom.eq_def]
  exact if_pos rfl

theorem blockFrom_closeBrace_zero (n : Nat) (s : Bytes) :
    blockFrom 0 n (Byte.closeBrace :: s) = .ok (n + 1) := by
  rw [blockFrom, if_neg (by decide), if_pos rfl]

theorem blockFrom_closeBrace_succ (depth n : Nat) (s : Bytes) :
    blockFrom (depth + 1) n (Byte.closeBrace :: s) = blockFrom depth (n + 1) s := by
  rw [blockFrom, if_neg (by decide), if_pos rfl]

/-- Any byte but a brace is passed by a lexical step. -/
theorem blockFrom_step {b : UInt8} (hopen : b ≠ Byte.openBrace) (hclose : b ≠ Byte.closeBrace)
    (depth n : Nat) (s : Bytes) :
    blockFrom depth n (b :: s) =
      match stepLength b s with
      | .ok k => blockFrom depth (n + k) (s.drop (k - 1))
      | .error e => .error (e.shift n) := by
  rw [blockFrom.eq_def]
  exact (if_neg hopen).trans (if_neg hclose)

/-- Where the count starts from does not matter for where a block ends. -/
theorem blockFrom_add_offset (depth n j : Nat) (s : Bytes) {m : Nat} :
    blockFrom depth (n + j) s = .ok (m + j) ↔ blockFrom depth n s = .ok m := by
  fun_induction blockFrom depth n s with
  | case1 => simp [blockFrom]
  | case2 depth n s ih => rw [blockFrom_openBrace, Nat.add_right_comm, ih]
  | case3 n s =>
    rw [blockFrom_closeBrace_zero]
    simp only [Except.ok.injEq]
    omega
  | case4 n s depth _ ih => rw [blockFrom_closeBrace_succ, Nat.add_right_comm, ih]
  | case5 depth n b s hopen hclose k hk ih =>
    rw [blockFrom_step hopen hclose, hk]
    simp only
    rw [Nat.add_right_comm, ih]
  | case6 depth n b s hopen hclose e he =>
    rw [blockFrom_step hopen hclose, he]
    simp

/-- **Closing `depth + 1` braces and then `more + 1` others is one walk**: it goes on from where the
    first are closed, and fails where either part fails. -/
theorem blockFrom_add (depth more n : Nat) (s : Bytes) :
    blockFrom (depth + more + 1) n s =
      match blockFrom depth n s with
      | .ok k => blockFrom more k (s.drop (k - n))
      | .error e => .error e := by
  fun_induction blockFrom depth n s with
  | case1 => rw [blockFrom]
  | case2 depth n s ih =>
    rw [blockFrom_openBrace, show depth + more + 1 + 1 = depth + 1 + more + 1 by omega, ih]
    cases hk : blockFrom (depth + 1) (n + 1) s with
    | error e => rfl
    | ok k =>
      have := (blockFrom_bounds hk).1
      simp only
      rw [show k - n = k - (n + 1) + 1 by omega, List.drop_succ_cons]
  | case3 n s =>
    rw [Nat.zero_add, blockFrom_closeBrace_succ]
    simp only
    rw [show n + 1 - n = 0 + 1 by omega, List.drop_succ_cons, List.drop_zero]
  | case4 n s depth _ ih =>
    rw [show depth + 1 + more + 1 = depth + more + 1 + 1 by omega, blockFrom_closeBrace_succ, ih]
    cases hk : blockFrom depth (n + 1) s with
    | error e => rfl
    | ok k =>
      have := (blockFrom_bounds hk).1
      simp only
      rw [show k - n = k - (n + 1) + 1 by omega, List.drop_succ_cons]
  | case5 depth n b s hopen hclose k hk ih =>
    rw [blockFrom_step hopen hclose, hk]
    simp only
    rw [ih]
    cases hm : blockFrom depth (n + k) (s.drop (k - 1)) with
    | error e => rfl
    | ok m =>
      have := (blockFrom_bounds hm).1
      have := stepLength_pos hk
      simp only
      rw [List.drop_drop, show m - n = k - 1 + (m - (n + k)) + 1 by omega, List.drop_succ_cons]
  | case6 depth n b s hopen hclose e he => rw [blockFrom_step hopen hclose, he]

/-- **A block that is closed ends in a brace.** -/
theorem take_of_blockFrom {depth n m : Nat} {s : Bytes} (h : blockFrom depth n s = .ok m) :
    ∃ u, s.take (m - n) = u ++ [Byte.closeBrace] := by
  fun_induction blockFrom depth n s with
  | case1 => cases h
  | case2 depth n s ih =>
    have hbounds := blockFrom_bounds h
    rw [show m - n = 1 + (m - (n + 1)) by omega]
    exact take_add_eq_concat (ih h)
  | case3 n s =>
    cases h
    rw [show n + 1 - n = 0 + 1 by omega, List.take_succ_cons, List.take_zero]
    exact ⟨[], rfl⟩
  | case4 n s depth _ ih =>
    have hbounds := blockFrom_bounds h
    rw [show m - n = 1 + (m - (n + 1)) by omega]
    exact take_add_eq_concat (ih h)
  | case5 depth n b s hopen hclose k hk ih =>
    have hpos := stepLength_pos hk
    have hbounds := blockFrom_bounds h
    rw [show m - n = k + (m - (n + k)) by omega]
    apply take_add_eq_concat
    rw [List.drop_cons hpos]
    exact ih h
  | case6 => cases h

/-- Plain bytes are passed one by one. -/
theorem blockFrom_of_plain {k : Nat} {s : Bytes} (hk : k ≤ s.length) (hp : Plain (s.take k))
    (depth n : Nat) : blockFrom depth n s = blockFrom depth (n + k) (s.drop k) := by
  induction k generalizing s n with
  | zero => rfl
  | succ k ih =>
    cases s with
    | nil => simp at hk
    | cons b s =>
      rw [List.take_succ_cons, plain_cons] at hp
      have hopen : b ≠ Byte.openBrace := fun h => hp.1 (h ▸ by decide)
      have hclose : b ≠ Byte.closeBrace := fun h => hp.1 (h ▸ by decide)
      rw [blockFrom_step hopen hclose, stepLength_of_notMem_marks hp.1]
      simp only [Nat.sub_self, List.drop_zero, List.drop_succ_cons]
      rw [ih (by simpa using hk) hp.2, Nat.add_assoc, Nat.add_comm 1 k]

/-- A token that is no block and closes none is passed as a whole. -/
theorem blockFrom_of_token {lead : Option UInt8} {b : UInt8} {s : Bytes} {t : Token}
    (ht : Token.read lead b s = .ok t) (hopen : b ≠ Byte.openBrace) (hclose : b ≠ Byte.closeBrace)
    (depth n : Nat) :
    blockFrom depth n (b :: s) = blockFrom depth (n + t.length) ((b :: s).drop t.length) := by
  have hbounds := Token.read_bounds ht
  rcases Token.step_or_plain ht fun hk => hopen ((Token.kind_eq_block_iff ht).1 hk) with hn | hp
  · rw [blockFrom_step hopen hclose, hn]
    simp only
    rw [show t.length = t.length - 1 + 1 by omega, List.drop_succ_cons, Nat.add_sub_cancel]
  · exact blockFrom_of_plain hbounds.2 hp depth n

/-! ## The block that a place lies in -/

/-- The brace at `stop` closes the block that `c` lies in: no block is open there that was opened after
    the one around it. -/
def Cursor.ClosesAt (c : Cursor) (stop : Nat) : Prop :=
  blockFrom 0 c.offset c.rest = .ok (stop + 1)

/-- The place does not lie behind the brace. -/
theorem Cursor.ClosesAt.offset_le {c : Cursor} {stop : Nat} (h : c.ClosesAt stop) :
    c.offset ≤ stop := by
  have := (blockFrom_bounds h).1
  omega

/-- Just inside a block, its last byte is what closes it. -/
theorem Cursor.closesAt_of_block {c : Cursor} {b : UInt8} {s : Bytes} {n : Nat}
    (hr : c.rest = b :: s) (hn : blockLength (b :: s) = .ok n) :
    (c.advance 1).ClosesAt (c.offset + n - 1) := by
  have hpos := (blockLength_bounds hn).1
  rw [Cursor.ClosesAt, Cursor.offset_advance, Cursor.rest_advance, hr,
    show c.offset + n - 1 + 1 = n + c.offset by omega, Nat.add_comm c.offset 1]
  exact (blockFrom_add_offset 0 1 c.offset _).2 hn

/-- **Inside a block there is always a token to read**, and the block is closed behind it by the same
    brace.  Only that brace itself, where the block ends, is no part of it. -/
theorem Cursor.ClosesAt.token {c : Cursor} {stop : Nat} (h : c.ClosesAt stop) :
    ∃ b s, c.rest = b :: s ∧
      ((c.offset = stop ∧ b = Byte.closeBrace) ∨
        (c.offset < stop ∧ ∃ t, Token.read c.lead b s = .ok t ∧ (c.advance t.length).ClosesAt stop)) := by
  have h' : blockFrom 0 c.offset c.rest = .ok (stop + 1) := h
  cases hr : c.rest with
  | nil => rw [hr, blockFrom] at h'; cases h'
  | cons b s =>
    refine ⟨b, s, rfl, ?_⟩
    rw [hr] at h'
    -- what follows a token of which only the length is known closes the block too
    have close : ∀ n, blockFrom 0 (c.offset + n) ((b :: s).drop n) = .ok (stop + 1) →
        (c.advance n).ClosesAt stop := by
      intro n hn
      rw [Cursor.ClosesAt, Cursor.offset_advance, Cursor.rest_advance, hr, hn]
    by_cases hclose : b = Byte.closeBrace
    · rw [hclose, blockFrom_closeBrace_zero] at h'
      cases h'
      exact .inl ⟨rfl, hclose⟩
    · have after : ∃ t, Token.read c.lead b s = .ok t ∧
          blockFrom 0 (c.offset + t.length) ((b :: s).drop t.length) = .ok (stop + 1) := by
        by_cases hopen : b = Byte.openBrace
        · -- a block inside: what closes it comes first, and then the brace at `stop`
          subst hopen
          rw [blockFrom_openBrace, blockFrom_add 0 0] at h'
          cases hk : blockFrom 0 (c.offset + 1) s with
          | error e => rw [hk] at h'; cases h'
          | ok k =>
            rw [hk] at h'
            have hpos := (blockFrom_bounds hk).1
            have hlen : blockLength (Byte.openBrace :: s) = .ok (k - c.offset) := by
              rw [show k = k - c.offset + c.offset by omega, Nat.add_comm c.offset] at hk
              exact (blockFrom_add_offset 0 1 c.offset s).1 hk
            refine ⟨⟨.block, k - c.offset⟩, ?_, ?_⟩
            · rw [Token.read, if_neg (by decide), if_pos rfl, hlen]
              rfl
            · rw [show c.offset + (k - c.offset) = k by omega,
                show k - c.offset = k - (c.offset + 1) + 1 by omega, List.drop_succ_cons]
              exact h'
        · cases ht : Token.read c.lead b s with
          | error e =>
            rw [blockFrom_step hopen hclose, (Token.read_eq_error_iff hopen).1 ht] at h'
            cases h'
          | ok t => exact ⟨t, rfl, blockFrom_of_token ht hopen hclose 0 _ ▸ h'⟩
      obtain ⟨t, ht, hafter⟩ := after
      have hin : (c.advance t.length).ClosesAt stop := close _ hafter
      have hlt := hin.offset_le
      have hpos := (Token.read_bounds ht).1
      rw [Cursor.offset_advance] at hlt
      exact .inr ⟨by omega, t, ht, hin⟩

/-- Where a scope inside a block ends, there is the brace that closes it. -/
theorem Cursor.ClosesAt.rest_of_end {c : Cursor} {stop : Nat} (h : c.ClosesAt stop)
    (hend : c.rest = [] ∨ stop ≤ c.offset) :
    c.offset = stop ∧ ∃ s, c.rest = Byte.closeBrace :: s := by
  obtain ⟨b, s, hr, hcase⟩ := h.token
  rcases hcase with ⟨heq, rfl⟩ | ⟨hlt, -⟩
  · exact ⟨heq, s, hr⟩
  · rcases hend with hnil | hle
    · rw [hr] at hnil; cases hnil
    · exact absurd hlt (Nat.not_lt.2 hle)

end MagicNumbers
