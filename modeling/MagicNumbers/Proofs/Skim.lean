/-
  Skimming a source.

  Skimming looks at nothing but what has to be closed: comments, quoted literals and blocks, each as a
  whole, any other byte by itself.  It knows of no statement, no keyword and no scope.

  * `skim` — the first construct that is not closed, if there is one.
  * `skimFrom_of_token` — skimming passes every token as a whole, and fails where a token cannot be read.
-/
import MagicNumbers.Proofs.Blocks
import MagicNumbers.Lexeme.Extent

namespace MagicNumbers

/-- Skims a text of which `n` bytes have been passed. -/
def skimFrom (n : Nat) : Bytes → Except Unclosed Unit
  | [] => .ok ()
  | b :: s =>
    match if b = Byte.openBrace then blockLength (b :: s) else stepLength b s with
    | .ok k => skimFrom (n + k) (s.drop (k - 1))
    | .error e => .error (e.shift n)
termination_by s => s.length
decreasing_by simp only [List.length_cons, List.length_drop]; omega

/-- Skims a whole source: is everything closed in it, or what is the first that is not? -/
def skim (src : Bytes) : Except Malformed Unit := locate src 0 (skimFrom 0 src)

/-- Plain bytes are passed one by one. -/
theorem skimFrom_of_plain {k : Nat} {s : Bytes} (hk : k ≤ s.length) (hp : Plain (s.take k))
    (n : Nat) : skimFrom n s = skimFrom (n + k) (s.drop k) := by
  induction k generalizing s n with
  | zero => rfl
  | succ k ih =>
    cases s with
    | nil => simp at hk
    | cons b s =>
      rw [List.take_succ_cons, plain_cons] at hp
      have hopen : b ≠ Byte.openBrace := fun h => hp.1 (h ▸ by decide)
      rw [skimFrom, if_neg hopen, stepLength_of_notMem_marks hp.1]
      simp only [Nat.sub_self, List.drop_zero, List.drop_succ_cons]
      rw [ih (by simpa using hk) hp.2, Nat.add_assoc, Nat.add_comm 1 k]

/-- **Skimming passes a token as a whole.** -/
theorem skimFrom_of_token {lead : Option UInt8} {b : UInt8} {s : Bytes} {t : Token}
    (ht : Token.read lead b s = .ok t) (n : Nat) :
    skimFrom n (b :: s) = skimFrom (n + t.length) ((b :: s).drop t.length) := by
  have hbounds := Token.read_bounds ht
  have hdrop : s.drop (t.length - 1) = (b :: s).drop t.length := by
    rw [show t.length = t.length - 1 + 1 by omega, List.drop_succ_cons, Nat.add_sub_cancel]
  by_cases hopen : b = Byte.openBrace
  · have hn := Token.blockLength_of_read ht ((Token.kind_eq_block_iff ht).2 hopen)
    rw [skimFrom, if_pos hopen, hn]
    simp only [hdrop]
  · rcases Token.step_or_plain ht fun hk => hopen ((Token.kind_eq_block_iff ht).1 hk) with hn | hp
    · rw [skimFrom, if_neg hopen, hn]
      simp only [hdrop]
    · exact skimFrom_of_plain hbounds.2 hp n

/-- **Where a token cannot be read, skimming fails for the same reason.** -/
theorem skimFrom_of_error {lead : Option UInt8} {b : UInt8} {s : Bytes} {e : Unclosed}
    (ht : Token.read lead b s = .error e) (n : Nat) :
    skimFrom n (b :: s) = .error (e.shift n) := by
  by_cases hopen : b = Byte.openBrace
  · rcases Token.unclosed_of_read ht with ⟨hb, -⟩ | ⟨-, he⟩ | ⟨hb, -⟩
    · exact absurd (hb.symm.trans hopen) (by decide)
    · rw [skimFrom, if_pos hopen, he]
    · exact absurd hopen (Byte.ne_of_class hb (by decide))
  · rw [skimFrom, if_neg hopen, (Token.read_eq_error_iff hopen).1 ht]

end MagicNumbers
