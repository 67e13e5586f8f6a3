/-
  The grammar of blocks.

  A block is a brace, items and the brace that closes it; an item is a comment, a quoted literal, a slash
  by itself, a block, or any other byte.  The end of a block is found by counting braces; here the count
  is compared with the grammar.

  * `Items`, `Braced` — derivations: what the source holds from one offset to another, item by item, and
    a block around it.  Comments and literals end where lexing says they do.
  * `LeftOpen` — all items are closed up to the end of the source, and the block they are in is not.
  * `Items.blockFrom_eq` — items leave the count of open blocks as it is, at any depth.
  * `blockStop_grammar` — a block ends where its derivation does, so does each block inside it, and the
    brace is unclosed just if the block is left open.
-/
import MagicNumbers.Proofs.Nesting

namespace MagicNumbers

/-! ## Derivations -/

/-- The items of a block from one offset of the source to another. -/
inductive Items (src : Bytes) : Nat → Nat → Type
  | nil {pos : Nat} : Items src pos pos
  /-- A comment, which two slashes or a slash and a star open. -/
  | comment {pos stop : Nat} {k : Extent} (hb : src[pos]? = some Byte.slash)
      (hnext : src[pos + 1]? = some Byte.slash ∨ src[pos + 1]? = some Byte.star)
      (hk : commentExtent src pos false = .ok k) (rest : Items src k.stop stop) : Items src pos stop
  /-- A slash that opens no comment. -/
  | slash {pos stop : Nat} (hb : src[pos]? = some Byte.slash)
      (hnext : ¬(src[pos + 1]? = some Byte.slash ∨ src[pos + 1]? = some Byte.star))
      (rest : Items src (pos + 1) stop) : Items src pos stop
  /-- A quoted literal. -/
  | quoted {pos stop : Nat} {b : UInt8} {k : Extent} (hb : src[pos]? = some b)
      (hquote : Byte.isQuote b = true) (hk : quotedExtent src pos false = .ok k)
      (rest : Items src k.stop stop) : Items src pos stop
  /-- A block with its braces. -/
  | block {pos last stop : Nat} (hopen : src[pos]? = some Byte.openBrace)
      (inner : Items src (pos + 1) last) (hclose : src[last]? = some Byte.closeBrace)
      (rest : Items src (last + 1) stop) : Items src pos stop
  /-- Any other byte. -/
  | byte {pos stop : Nat} {b : UInt8} (hb : src[pos]? = some b) (hslash : b ≠ Byte.slash)
      (hquote : Byte.isQuote b = false) (hopen : b ≠ Byte.openBrace) (hclose : b ≠ Byte.closeBrace)
      (rest : Items src (pos + 1) stop) : Items src pos stop

/-- The blocks among some items, at any depth, by where they begin and end. -/
def Items.blocks {src : Bytes} {pos stop : Nat} : Items src pos stop → List (Nat × Nat)
  | .nil => []
  | .comment _ _ _ rest => rest.blocks
  | .slash _ _ rest => rest.blocks
  | .quoted _ _ _ rest => rest.blocks
  | @block _ pos last _ _ inner _ rest => (pos, last + 1) :: (inner.blocks ++ rest.blocks)
  | .byte _ _ _ _ _ rest => rest.blocks

/-- A block from the offset of its brace to the offset behind the brace that closes it. -/
inductive Braced (src : Bytes) : Nat → Nat → Type
  | braces {pos last : Nat} (hopen : src[pos]? = some Byte.openBrace)
      (items : Items src (pos + 1) last) (hclose : src[last]? = some Byte.closeBrace) :
      Braced src pos (last + 1)

/-- The blocks inside a block. -/
def Braced.blocks {src : Bytes} {pos stop : Nat} : Braced src pos stop → List (Nat × Nat)
  | .braces _ items _ => items.blocks

/-- From `pos` on there are items to the end of the source, or up to a brace whose block is left open in
    its turn. -/
inductive LeftOpen (src : Bytes) : Nat → Prop
  | ends {pos : Nat} (items : Items src pos src.length) : LeftOpen src pos
  | inside {pos brace : Nat} (items : Items src pos brace) (hopen : src[brace]? = some Byte.openBrace)
      (h : LeftOpen src (brace + 1)) : LeftOpen src pos

/-! ## Steps and items -/

/-- A slash is alone where neither a slash nor a star follows. -/
theorem commentLength_of_lone {src : Bytes} {pos : Nat} (hb : src[pos]? = some Byte.slash)
    (hnext : ¬(src[pos + 1]? = some Byte.slash ∨ src[pos + 1]? = some Byte.star)) :
    commentLength (src.drop pos) = .ok 1 := by
  obtain ⟨hslash, hstar⟩ := not_or.1 hnext
  rw [drop_of_getElem? hb]
  cases hs : src.drop (pos + 1) with
  | nil => rfl
  | cons a s =>
    rw [getElem?_of_drop hs] at hslash hstar
    rw [commentLength, if_neg (fun h => hslash (by rw [h])), if_neg (fun h => hstar (by rw [h]))]

/-- What can be passed by a lexical step is an item, if it is no brace. -/
theorem nonempty_items_of_step {src : Bytes} {pos stop n : Nat} {b : UInt8}
    (hb : src[pos]? = some b) (hopen : b ≠ Byte.openBrace) (hclose : b ≠ Byte.closeBrace)
    (hn : stepLength b (src.drop (pos + 1)) = .ok n) (rest : Items src (pos + n) stop) :
    Nonempty (Items src pos stop) := by
  rw [stepLength, ← drop_of_getElem? hb] at hn
  split at hn
  · next hslash =>
    subst hslash
    by_cases hnext : src[pos + 1]? = some Byte.slash ∨ src[pos + 1]? = some Byte.star
    · have hk : commentExtent src pos false = .ok (.over src pos n false) :=
        map_locate_eq_ok_iff.2 ⟨n, hn, rfl⟩
      exact ⟨.comment hb hnext hk rest⟩
    · rw [commentLength_of_lone hb hnext] at hn
      cases hn
      exact ⟨.slash hb hnext rest⟩
  · next hslash =>
    split at hn
    · next hquote =>
      have hk : quotedExtent src pos false = .ok (.over src pos n false) :=
        map_locate_eq_ok_iff.2 ⟨n, hn, rfl⟩
      exact ⟨.quoted hb hquote hk rest⟩
    · next hquote =>
      cases hn
      exact ⟨.byte hb hslash (Bool.eq_false_iff.2 hquote) hopen hclose rest⟩

/-- The count goes on behind a lexical step. -/
theorem blockFrom_of_step {src : Bytes} {pos n : Nat} {b : UInt8} (hb : src[pos]? = some b)
    (hopen : b ≠ Byte.openBrace) (hclose : b ≠ Byte.closeBrace)
    (hn : stepLength b (src.drop (pos + 1)) = .ok n) (depth : Nat) :
    blockFrom depth pos (src.drop pos) = blockFrom depth (pos + n) (src.drop (pos + n)) := by
  have hpos := stepLength_pos hn
  rw [drop_of_getElem? hb, blockFrom_step hopen hclose, hn]
  simp only
  rw [List.drop_drop, show pos + 1 + (n - 1) = pos + n by omega]

/-- **Items leave the count as it is**: whatever the depth, the walk passes over them and goes on. -/
theorem Items.blockFrom_eq {src : Bytes} {pos stop : Nat} (items : Items src pos stop) (depth : Nat) :
    blockFrom depth pos (src.drop pos) = blockFrom depth stop (src.drop stop) := by
  induction items generalizing depth with
  | nil => rfl
  | @comment pos _ _ hb _ hk _ ih =>
    obtain ⟨n, hn, rfl⟩ := map_locate_eq_ok_iff.1 hk
    have hstep : stepLength Byte.slash (src.drop (pos + 1)) = .ok n := by
      rw [stepLength, if_pos rfl, ← drop_of_getElem? hb, hn]
    rw [blockFrom_of_step hb (by decide) (by decide) hstep]
    exact ih depth
  | @slash pos _ hb hnext _ ih =>
    have hstep : stepLength Byte.slash (src.drop (pos + 1)) = .ok 1 := by
      rw [stepLength, if_pos rfl, ← drop_of_getElem? hb, commentLength_of_lone hb hnext]
    rw [blockFrom_of_step hb (by decide) (by decide) hstep]
    exact ih depth
  | @quoted pos _ b _ hb hquote hk _ ih =>
    obtain ⟨n, hn, rfl⟩ := map_locate_eq_ok_iff.1 hk
    have hstep : stepLength b (src.drop (pos + 1)) = .ok n := by
      rw [stepLength, if_neg (Byte.ne_of_class hquote (by decide)), if_pos hquote,
        ← drop_of_getElem? hb, hn]
    rw [blockFrom_of_step hb (Byte.ne_of_class hquote (by decide))
      (Byte.ne_of_class hquote (by decide)) hstep]
    exact ih depth
  | block hopen _ hclose _ ihinner ih =>
    -- one block more is open inside, and the brace that closes it takes the count back
    rw [drop_of_getElem? hopen, blockFrom_openBrace, ihinner, drop_of_getElem? hclose,
      blockFrom_closeBrace_succ, ih]
  | byte hb hslash hquote hopen hclose _ ih =>
    rw [blockFrom_of_step hb hopen hclose (stepLength_of_ne hslash hquote)]
    exact ih depth

/-! ## Blocks that are closed -/

/-- **Where the count comes to an end there are items before it.** -/
theorem exists_items_of_blockFrom {src : Bytes} {pos stop : Nat}
    (h : blockFrom 0 pos (src.drop pos) = .ok (stop + 1)) :
    Nonempty (Items src pos stop) ∧ src[stop]? = some Byte.closeBrace := by
  induction hm : src.length - pos using Nat.strongRecOn generalizing pos stop with
  | _ m ih =>
  subst hm
  cases hb : src[pos]? with
  | none =>
    rw [List.drop_eq_nil_of_le (List.getElem?_eq_none_iff.1 hb), blockFrom] at h
    cases h
  | some b =>
    obtain ⟨hlt, -⟩ := List.getElem?_eq_some_iff.1 hb
    by_cases hclose : b = Byte.closeBrace
    · subst hclose
      rw [drop_of_getElem? hb, blockFrom_closeBrace_zero] at h
      cases h
      exact ⟨⟨.nil⟩, hb⟩
    by_cases hopen : b = Byte.openBrace
    · subst hopen
      rw [drop_of_getElem? hb, blockFrom_openBrace, blockFrom_add 0 0] at h
      cases hk : blockFrom 0 (pos + 1) (src.drop (pos + 1)) with
      | error e => rw [hk] at h; cases h
      | ok k =>
        obtain ⟨hle, -⟩ := blockFrom_bounds hk
        obtain ⟨last, rfl⟩ : ∃ last, k = last + 1 := ⟨k - 1, by omega⟩
        rw [hk] at h
        simp only at h
        rw [List.drop_drop, show pos + 1 + (last + 1 - (pos + 1)) = last + 1 by omega] at h
        obtain ⟨⟨inner⟩, hlast⟩ := ih _ (by omega) hk rfl
        obtain ⟨⟨rest⟩, hstop⟩ := ih _ (by omega) h rfl
        exact ⟨⟨.block hb inner hlast rest⟩, hstop⟩
    · cases hn : stepLength b (src.drop (pos + 1)) with
      | error e =>
        rw [drop_of_getElem? hb, blockFrom_step hopen hclose, hn] at h
        cases h
      | ok n =>
        have hpos := stepLength_pos hn
        rw [blockFrom_of_step hb hopen hclose hn] at h
        obtain ⟨⟨rest⟩, hstop⟩ := ih _ (by omega) h rfl
        exact ⟨nonempty_items_of_step hb hopen hclose hn rest, hstop⟩

/-- The end of a block is where the count from behind its brace comes to an end. -/
theorem blockStop_eq_ok_iff {src : Bytes} {pos stop : Nat} (hopen : src[pos]? = some Byte.openBrace) :
    blockStop src pos = .ok stop ↔ blockFrom 0 (pos + 1) (src.drop (pos + 1)) = .ok stop := by
  rw [blockStop, map_locate_eq_ok_iff, drop_of_getElem? hopen, Nat.add_comm pos 1]
  constructor
  · rintro ⟨n, hn, rfl⟩
    rw [Nat.add_comm pos n]
    exact (blockFrom_add_offset 0 1 pos _).2 hn
  · intro h
    have hle := (blockFrom_bounds h).1
    obtain ⟨n, rfl⟩ : ∃ n, stop = n + pos := ⟨stop - pos, by omega⟩
    exact ⟨n, (blockFrom_add_offset 0 1 pos _).1 h, Nat.add_comm pos n⟩

/-- **A block ends where its derivation does.** -/
theorem blockStop_eq_ok_iff_braced {src : Bytes} {pos stop : Nat}
    (hopen : src[pos]? = some Byte.openBrace) :
    blockStop src pos = .ok stop ↔ Nonempty (Braced src pos stop) := by
  rw [blockStop_eq_ok_iff hopen]
  constructor
  · intro h
    have hle := (blockFrom_bounds h).1
    obtain ⟨last, rfl⟩ : ∃ last, stop = last + 1 := ⟨stop - 1, by omega⟩
    obtain ⟨⟨items⟩, hclose⟩ := exists_items_of_blockFrom h
    exact ⟨.braces hopen items hclose⟩
  · rintro ⟨⟨-, items, hclose⟩⟩
    rw [items.blockFrom_eq, drop_of_getElem? hclose, blockFrom_closeBrace_zero]

/-- Each block among some items ends where the items say. -/
theorem Items.blockStop_of_mem {src : Bytes} {pos stop : Nat} (items : Items src pos stop) :
    ∀ q ∈ items.blocks, blockStop src q.1 = .ok q.2 := by
  induction items with
  | nil => exact List.forall_mem_nil _
  | comment _ _ _ _ ih => exact ih
  | slash _ _ _ ih => exact ih
  | quoted _ _ _ _ ih => exact ih
  | block hopen inner hclose _ ihinner ih =>
    refine List.forall_mem_cons.2 ⟨?_, List.forall_mem_append.2 ⟨ihinner, ih⟩⟩
    exact (blockStop_eq_ok_iff_braced hopen).2 ⟨.braces hopen inner hclose⟩
  | byte _ _ _ _ _ _ ih => exact ih

/-! ## Blocks that are left open -/

/-- Nothing inside a literal is a brace that is not closed. -/
theorem quotedFrom_error_ne_brace {quote : UInt8} {n : Nat} {s : Bytes} {e : Unclosed}
    (h : quotedFrom quote n s = .error e) : e.construct ≠ .brace := by
  fun_induction quotedFrom quote n s with
  | case1 =>
    cases h
    show Construct.ofQuote quote ≠ .brace
    rw [Construct.ofQuote]
    split <;> decide
  | case2 n s k hk ih => exact ih h
  | case3 n s e' he =>
    cases h
    rw [commentLength_error he]
    show Construct.blockComment ≠ .brace
    decide
  | case4 n s _ ih => exact ih h
  | case5 => cases h
  | case6 n b s _ _ _ ih => exact ih h

/-- No lexical step fails for a brace. -/
theorem stepLength_error_ne_brace {b : UInt8} {s : Bytes} {e : Unclosed}
    (h : stepLength b s = .error e) : e.construct ≠ .brace := by
  rw [stepLength] at h
  split at h
  · rw [commentLength_error h]
    decide
  · split at h
    · exact quotedFrom_error_ne_brace h
    · cases h

/-- Where the count starts from does not matter for whether a brace is unclosed. -/
theorem blockFrom_add_offset_brace (depth n j : Nat) (s : Bytes) :
    blockFrom depth (n + j) s = .error ⟨.brace, 0⟩ ↔
      ∃ e, blockFrom depth n s = .error e ∧ e.construct = .brace := by
  fun_induction blockFrom depth n s with
  | case1 => simp [blockFrom]
  | case2 depth n s ih => rw [blockFrom_openBrace, Nat.add_right_comm, ih]
  | case3 n s => simp [blockFrom_closeBrace_zero]
  | case4 n s depth _ ih => rw [blockFrom_closeBrace_succ, Nat.add_right_comm, ih]
  | case5 depth n b s hopen hclose k hk ih =>
    rw [blockFrom_step hopen hclose, hk]
    simp only
    rw [Nat.add_right_comm, ih]
  | case6 depth n b s hopen hclose e he =>
    have hne := stepLength_error_ne_brace he
    rw [blockFrom_step hopen hclose, he]
    constructor
    · intro h
      have hbrace : e.construct = .brace := congrArg Unclosed.construct (Except.error.inj h)
      exact absurd hbrace hne
    · rintro ⟨e', ⟨⟩, he'⟩
      exact absurd he' hne

/-- Items may be put in front of what is left open. -/
theorem LeftOpen.prepend {src : Bytes} {pos mid : Nat}
    (front : ∀ stop, Items src mid stop → Nonempty (Items src pos stop)) (h : LeftOpen src mid) :
    LeftOpen src pos := by
  cases h with
  | ends items =>
    obtain ⟨all⟩ := front _ items
    exact .ends all
  | inside items hopen h =>
    obtain ⟨all⟩ := front _ items
    exact .inside all hopen h

/-- **What is left open lets the count fail**, at any depth. -/
theorem LeftOpen.blockFrom_eq {src : Bytes} {pos : Nat} (h : LeftOpen src pos) (depth : Nat) :
    blockFrom depth pos (src.drop pos) = .error ⟨.brace, 0⟩ := by
  induction h generalizing depth with
  | ends items => rw [items.blockFrom_eq, List.drop_length, blockFrom]
  | inside items hopen _ ih =>
    rw [items.blockFrom_eq, drop_of_getElem? hopen, blockFrom_openBrace, ih]

/-- Where the count fails for a brace, the block is left open. -/
theorem leftOpen_of_blockFrom {src : Bytes} {pos : Nat} (hle : pos ≤ src.length)
    (h : blockFrom 0 pos (src.drop pos) = .error ⟨.brace, 0⟩) : LeftOpen src pos := by
  induction hm : src.length - pos using Nat.strongRecOn generalizing pos with
  | _ m ih =>
  subst hm
  cases hb : src[pos]? with
  | none =>
    have hend : pos = src.length := Nat.le_antisymm hle (List.getElem?_eq_none_iff.1 hb)
    subst hend
    exact .ends .nil
  | some b =>
    obtain ⟨hlt, -⟩ := List.getElem?_eq_some_iff.1 hb
    by_cases hclose : b = Byte.closeBrace
    · subst hclose
      rw [drop_of_getElem? hb, blockFrom_closeBrace_zero] at h
      cases h
    by_cases hopen : b = Byte.openBrace
    · subst hopen
      rw [drop_of_getElem? hb, blockFrom_openBrace, blockFrom_add 0 0] at h
      cases hk : blockFrom 0 (pos + 1) (src.drop (pos + 1)) with
      | error e =>
        -- the block inside is the one that is left open
        rw [hk] at h
        cases h
        exact .inside .nil hb (ih _ (by omega) hlt hk rfl)
      | ok k =>
        -- the block inside is closed, and what follows it is left open
        obtain ⟨hlow, hhigh⟩ := blockFrom_bounds hk
        rw [List.length_drop] at hhigh
        obtain ⟨last, rfl⟩ : ∃ last, k = last + 1 := ⟨k - 1, by omega⟩
        rw [hk] at h
        simp only at h
        rw [List.drop_drop, show pos + 1 + (last + 1 - (pos + 1)) = last + 1 by omega] at h
        obtain ⟨⟨inner⟩, hlast⟩ := exists_items_of_blockFrom hk
        refine (ih _ (by omega) (by omega) h rfl).prepend ?_
        intro stop rest
        exact ⟨.block hb inner hlast rest⟩
    · cases hn : stepLength b (src.drop (pos + 1)) with
      | error e =>
        rw [drop_of_getElem? hb, blockFrom_step hopen hclose, hn] at h
        have hbrace : e.construct = .brace := congrArg Unclosed.construct (Except.error.inj h)
        exact absurd hbrace (stepLength_error_ne_brace hn)
      | ok n =>
        have hpos := stepLength_pos hn
        have hend := stepLength_le hn
        rw [List.length_drop] at hend
        rw [blockFrom_of_step hb hopen hclose hn] at h
        refine (ih _ (by omega) (by omega) h rfl).prepend ?_
        intro stop rest
        exact nonempty_items_of_step hb hopen hclose hn rest

/-- **A brace is unclosed just if its block is left open.** -/
theorem blockStop_eq_brace_iff {src : Bytes} {pos : Nat} (hopen : src[pos]? = some Byte.openBrace) :
    blockStop src pos = .error (.ofSource src .brace pos) ↔ LeftOpen src (pos + 1) := by
  obtain ⟨hlt, -⟩ := List.getElem?_eq_some_iff.1 hopen
  have hcount : blockStop src pos = .error (.ofSource src .brace pos) ↔
      blockFrom 0 (pos + 1) (src.drop (pos + 1)) = .error ⟨.brace, 0⟩ := by
    rw [blockStop, map_locate_eq_error_iff, drop_of_getElem? hopen, Nat.add_comm pos 1]
    constructor
    · rintro ⟨e, he, heq⟩
      exact (blockFrom_add_offset_brace 0 1 pos _).2
        ⟨e, he, (congrArg (fun m => m.toUnclosed.construct) heq).symm⟩
    · intro h
      have hfirst := (blockFrom_add_offset_brace 0 1 pos _).1 h
      refine ⟨⟨.brace, 0⟩, (blockFrom_add_offset_brace 0 1 0 _).2 hfirst, ?_⟩
      show Malformed.ofSource src .brace pos = .ofSource src .brace (0 + pos)
      rw [Nat.zero_add]
  rw [hcount]
  exact ⟨leftOpen_of_blockFrom hlt, fun h => h.blockFrom_eq 0⟩

/-! ## The grammar and the count -/

/-- **The end of a block, as the grammar has it.**  A brace is closed at an offset just if the source up
    to there derives from the grammar of blocks, and there is at most one such offset; every block inside
    the derivation ends where its own brace says; and the brace is unclosed just if the items go on to
    the end of the source, every comment and every literal among them closed, and the block is still
    open there. -/
theorem blockStop_grammar {src : Bytes} {pos : Nat} (hopen : src[pos]? = some Byte.openBrace) :
    (∀ stop, blockStop src pos = .ok stop ↔ Nonempty (Braced src pos stop)) ∧
    (∀ stop stop', Braced src pos stop → Braced src pos stop' → stop = stop') ∧
    (∀ stop (d : Braced src pos stop), ∀ q ∈ d.blocks, blockStop src q.1 = .ok q.2) ∧
    (blockStop src pos = .error (.ofSource src .brace pos) ↔ LeftOpen src (pos + 1)) := by
  refine ⟨fun stop => blockStop_eq_ok_iff_braced hopen, ?_, ?_, blockStop_eq_brace_iff hopen⟩
  · intro stop stop' d d'
    have h := (blockStop_eq_ok_iff_braced hopen).2 ⟨d⟩
    have h' := (blockStop_eq_ok_iff_braced hopen).2 ⟨d'⟩
    rw [h] at h'
    cases h'
    rfl
  · rintro stop ⟨-, items, -⟩
    exact items.blockStop_of_mem

/-- A block that holds a block with a literal in it, and a slash by itself; without its last brace it is
    left open. -/
theorem blockStop_grammar_nested :
    let src := Bytes.ofString "\x7ba\x7b\"\x7d\"\x7d/\x7d"
    let cut := Bytes.ofString "\x7ba\x7b\"\x7d\"\x7d/"
    blockStop src 0 = .ok 9 ∧
    (∃ d : Braced src 0 9, d.blocks = [(2, 7)] ∧ ∀ q ∈ d.blocks, blockStop src q.1 = .ok q.2) ∧
    blockStop cut 0 = .error ⟨⟨.brace, 0⟩, 1⟩ ∧ LeftOpen cut 1 := by
  intro src cut
  have hopen : src[0]? = some Byte.openBrace := by decide
  have hopen' : cut[0]? = some Byte.openBrace := by decide
  have hcut : blockStop cut 0 = .error ⟨⟨.brace, 0⟩, 1⟩ := by decide +kernel
  let literal : Items src 3 6 :=
    .quoted (b := Byte.doubleQuote) (k := ⟨6, 0⟩) (by decide) (by decide) (by decide +kernel) .nil
  let inner : Items src 2 8 :=
    .block (by decide) literal (by decide) (.slash (by decide) (by decide) .nil)
  let items : Items src 1 8 :=
    .byte (b := 0x61) (by decide) (by decide) (by decide) (by decide) (by decide) inner
  let d : Braced src 0 9 := .braces hopen items (by decide)
  obtain ⟨hends, -, hinner, -⟩ := blockStop_grammar hopen
  refine ⟨(hends 9).2 ⟨d⟩, ⟨d, rfl, hinner 9 d⟩, hcut, ?_⟩
  exact (blockStop_grammar hopen').2.2.2.1 hcut

end MagicNumbers
