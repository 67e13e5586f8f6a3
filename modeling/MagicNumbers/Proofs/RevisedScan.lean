/-
  Scanning a revised text.

  A harmless revision of a source is scanned as the source is: the same literals are found, at their
  counterparts and on the same lines, or the same construct is not closed.

  * `Harmless.search_found_iff` — a keyword that holds no byte at which the texts may part is found from
    a place just if it is found from its counterpart.
  * `Harmless.scansAlike` — scopes are scanned alike, token by token.
  * `Harmless.scan_eq` — so are whole sources.
-/
import MagicNumbers.Proofs.Keywords
import MagicNumbers.Proofs.Revision

namespace MagicNumbers

/-- A source in which all is closed can be scanned. -/
theorem scan_ok_of_skim {src : Bytes} (h : skim src = .ok ()) (opts : LexOptions) :
    ∃ last found, scanRange opts src src.length 0 0 1 = .ok (last, found) ∧
      scan opts src = .ok found := by
  rw [← map_scan opts, scan_eq_scanRange] at h
  rw [scan_eq_scanRange]
  cases hrun : scanRange opts src src.length 0 0 1 with
  | error e =>
    rw [hrun] at h
    cases h
  | ok r => exact ⟨r.1, r.2, rfl, rfl⟩

namespace Revision

variable {r : Revision}

/-! ## Walks -/

/-- Where a walk in the text leads, a walk in the revised one leads to the counterpart. -/
theorem Harmless.walk (h : r.Harmless) {p : Nat} (hp : r.place p) {c : Cursor}
    (hwalk : Walk (.ofOffset r.old p) c) :
    ∃ q, r.place q ∧ c = .ofOffset r.old q ∧
      Walk (.ofOffset r.new (r.move p)) (.ofOffset r.new (r.move q)) := by
  generalize hc : Cursor.ofOffset r.old p = c₀ at hwalk
  induction hwalk generalizing p with
  | refl => exact ⟨p, hp, hc.symm, .refl _⟩
  | @step c₀ c b s n hr hn hwalk ih =>
    subst hc
    rw [Cursor.rest_ofOffset] at hr
    rcases h.step p b s hp hr with ⟨s', hsteps⟩ | ⟨rfl, hfeeds⟩
    · have hlength := hsteps.length
      rw [hn] at hlength
      generalize hn' : stepLength b s' = x at hlength
      cases hlength with
      | @ok _ n' hspans =>
        obtain ⟨q, hq, hcq, hwalk'⟩ := ih hspans.place (Cursor.advance_ofOffset _ _ _).symm
        refine ⟨q, hq, hcq, .step (by rw [Cursor.rest_ofOffset, hsteps.rest]) hn' ?_⟩
        rw [Cursor.advance_ofOffset, ← hspans.move]
        exact hwalk'
    · rw [stepLength_of_ne (by decide) (by decide)] at hn
      cases hn
      obtain ⟨q, hq, hcq, hwalk'⟩ := ih hfeeds.spans.place (Cursor.advance_ofOffset _ _ _).symm
      rw [hfeeds.spans.move] at hwalk'
      refine ⟨q, hq, hcq, .step (n := 1) (by rw [Cursor.rest_ofOffset, hfeeds.rest]) rfl ?_⟩
      rw [Cursor.advance_ofOffset]
      refine .step (n := 1) (by rw [Cursor.rest_ofOffset, drop_succ_of_drop hfeeds.rest]) rfl ?_
      rw [Cursor.advance_ofOffset]
      exact hwalk'

/-- From `p` on, a walk in the text leads to a place whose counterpart is the place `c` of the revised
    text; or `c` is between the carriage return and the line feed there. -/
def Reaches (r : Revision) (p : Nat) (c : Cursor) : Prop :=
  ∃ q, r.place q ∧ Walk (.ofOffset r.old p) (.ofOffset r.old q) ∧
    (c = .ofOffset r.new (r.move q) ∨
      c = .ofOffset r.new (r.move q + 1) ∧ r.Feeds q ∧ ∃ s, r.old.drop q = Byte.lineFeed :: s)

/-- A step in the revised text keeps to that. -/
theorem Harmless.reaches_step (h : r.Harmless) {p n : Nat} {c : Cursor} {b : UInt8} {s' : Bytes}
    (hc : r.Reaches p c) (hr : c.rest = b :: s') (hn : stepLength b s' = .ok n) :
    r.Reaches p (c.advance n) := by
  obtain ⟨q, hq, hwalk, rfl | ⟨rfl, hfeeds, s, hs⟩⟩ := hc
  · rw [Cursor.rest_ofOffset] at hr
    cases hs : r.old.drop q with
    | nil =>
      rw [h.drop_eq_nil hs] at hr
      cases hr
    | cons b₀ s =>
      rcases h.step q b₀ s hq hs with ⟨s₀, hsteps⟩ | ⟨rfl, hfeeds⟩
      · rw [hsteps.rest] at hr
        cases hr
        have hlength := hsteps.length
        rw [hn] at hlength
        generalize hm : stepLength b s = x at hlength
        cases hlength with
        | @ok m _ hspans =>
          refine ⟨q + m, hspans.place, hwalk.trans ?_, .inl ?_⟩
          · rw [← Cursor.advance_ofOffset]
            exact .single (by rw [Cursor.rest_ofOffset, hs]) hm
          · rw [Cursor.advance_ofOffset, hspans.move]
      · rw [hfeeds.rest] at hr
        cases hr
        cases hn
        exact ⟨q, hq, hwalk, .inr ⟨Cursor.advance_ofOffset _ _ _, hfeeds, s, hs⟩⟩
  · -- the line feed behind the carriage return ends the step of the text
    rw [Cursor.rest_ofOffset, drop_succ_of_drop hfeeds.rest] at hr
    cases hr
    cases hn
    refine ⟨q + 1, hfeeds.spans.place, hwalk.trans ?_, .inl ?_⟩
    · rw [← Cursor.advance_ofOffset]
      exact .single (by rw [Cursor.rest_ofOffset, hs]) rfl
    · rw [Cursor.advance_ofOffset, hfeeds.spans.move]

/-- **A walk in the revised text leads to counterparts**, or to the middle of a line end. -/
theorem Harmless.reaches (h : r.Harmless) {p : Nat} {c c' : Cursor} (hc : r.Reaches p c)
    (hwalk : Walk c c') : r.Reaches p c' := by
  induction hwalk with
  | refl => exact hc
  | step hr hn _ ih => exact ih (h.reaches_step hc hr hn)

/-! ## Keywords -/

section

variable {word : Bytes} (hw : word ≠ []) (havoid : ∀ x ∈ r.stops, x ∉ word) {bound bound' : Nat}
  (hbound : ∀ q, r.move q ≤ bound' ↔ q ≤ bound)
include hw havoid hbound

/-- A word stands at a place just if it stands at the counterpart. -/
theorem Harmless.occurs_iff (h : r.Harmless) {q : Nat} (hq : r.place q) :
    Occurs word bound' (.ofOffset r.new (r.move q)) ↔ Occurs word bound (.ofOffset r.old q) := by
  -- no word begins where a text ends, or with a byte at which texts may part
  have hnone : ∀ {bound c}, c.rest.head? = none → ¬Occurs word bound c := by
    intro bound c hhead hoccurs
    obtain ⟨x, -, hx⟩ := hoccurs.exists_head hw
    rw [hhead] at hx
    cases hx
  have hstop : ∀ {bound x c}, x ∈ r.stops → c.rest.head? = some x → ¬Occurs word bound c := by
    intro bound x c hx hhead hoccurs
    obtain ⟨y, hy, hhead'⟩ := hoccurs.exists_head hw
    rw [hhead] at hhead'
    cases hhead'
    exact havoid x hx hy
  cases hs : r.old.drop q with
  | nil =>
    refine iff_of_false (hnone ?_) (hnone ?_)
    · rw [Cursor.rest_ofOffset, h.drop_eq_nil hs]
      rfl
    · rw [Cursor.rest_ofOffset, hs]
      rfl
  | cons b s =>
    rcases h.step q b s hq hs with ⟨s', hsteps⟩ | ⟨rfl, hfeeds⟩
    · have hlt : q < r.old.length := by
        have hlen := congrArg List.length hs
        rw [List.length_drop, List.length_cons] at hlen
        omega
      by_cases hb : b = Byte.slash
      · refine iff_of_false (fun hoccurs => ?_) (fun hoccurs => ?_)
        · exact (hoccurs.head b (by rw [Cursor.rest_ofOffset, hsteps.rest]; rfl)).1 hb
        · exact (hoccurs.head b (by rw [Cursor.rest_ofOffset, hs]; rfl)).1 hb
      have hstands : standsAt word (.ofOffset r.new (r.move q)) = standsAt word (.ofOffset r.old q) := by
        rw [Cursor.ofOffset_eq, Cursor.ofOffset_eq, h.lead q hq hlt, hs, hsteps.rest]
        exact ((hsteps.agree hb).cons b).standsAt_eq h.stops_subset_stops havoid _ _ _
      have hhead : (Cursor.ofOffset r.new (r.move q)).rest.head? =
          (Cursor.ofOffset r.old q).rest.head? := by
        rw [Cursor.rest_ofOffset, Cursor.rest_ofOffset, hs, hsteps.rest]
        rfl
      have hend : standsAt word (.ofOffset r.old q) = true →
          ((Cursor.ofOffset r.new (r.move q)).offset + word.length ≤ bound' ↔
            (Cursor.ofOffset r.old q).offset + word.length ≤ bound) := by
        intro hword
        obtain ⟨-, -, hprefix⟩ := standsAt_iff.1 hword
        rw [Cursor.rest_ofOffset] at hprefix
        rw [Cursor.offset_ofOffset, Cursor.offset_ofOffset, ← h.move_add q word.length, hbound]
        rw [← List.prefix_iff_eq_take.1 hprefix]
        exact havoid
      constructor
      · rintro ⟨hle, hbyte, hword⟩
        rw [hstands] at hword
        rw [hhead] at hbyte
        exact ⟨(hend hword).1 hle, hbyte, hword⟩
      · rintro ⟨hle, hbyte, hword⟩
        refine ⟨(hend hword).2 hle, ?_, ?_⟩
        · rw [hhead]
          exact hbyte
        · rw [hstands]
          exact hword
    · refine iff_of_false (hstop hfeeds.mem_stops.1 ?_) (hstop hfeeds.mem_stops.2 ?_)
      · rw [Cursor.rest_ofOffset, hfeeds.rest]
        rfl
      · rw [Cursor.rest_ofOffset, hs]
        rfl

/-- **A keyword is found from a place just if it is found from the counterpart.** -/
theorem Harmless.search_found_iff (h : r.Harmless) {p : Nat} (hp : r.place p) :
    search word bound' (.ofOffset r.new (r.move p)) = .ok .found ↔
      search word bound (.ofOffset r.old p) = .ok .found := by
  rw [search_eq_found_iff hw, search_eq_found_iff hw]
  constructor
  · rintro ⟨c, hwalk, hoccurs⟩
    obtain ⟨q, hq, hwalk', rfl | ⟨rfl, hfeeds, -⟩⟩ :=
      h.reaches ⟨p, hp, .refl _, .inl rfl⟩ hwalk
    · exact ⟨_, hwalk', (h.occurs_iff hw havoid hbound hq).1 hoccurs⟩
    · obtain ⟨x, hx, hhead⟩ := hoccurs.exists_head hw
      rw [Cursor.rest_ofOffset, drop_succ_of_drop hfeeds.rest] at hhead
      cases hhead
      exact absurd hx (havoid _ hfeeds.mem_stops.2)
  · rintro ⟨c, hwalk, hoccurs⟩
    obtain ⟨q, hq, rfl, hwalk'⟩ := h.walk hp hwalk
    exact ⟨_, hwalk', (h.occurs_iff hw havoid hbound hq).2 hoccurs⟩

end

/-- The texts are asked alike whether a statement holds all keywords. -/
theorem Harmless.answer (h : r.Harmless) {words : List Bytes}
    (havoid : ∀ word ∈ words, ∀ x ∈ r.stops, x ∉ word) {start bound bound' : Nat} {safe safe' : Bool}
    (hstart : r.place start) (hbound : ∀ q, r.move q ≤ bound' ↔ q ≤ bound)
    (hsafe : rangeHoldsAll r.old start bound words = .ok safe)
    (hsafe' : rangeHoldsAll r.new (r.move start) bound' words = .ok safe') : safe' = safe := by
  have hword : ∀ word ∈ words, search word bound' (.ofOffset r.new (r.move start)) = .ok .found ↔
      search word bound (.ofOffset r.old start) = .ok .found := by
    intro word hmem
    by_cases hw : word = []
    · rw [hw, search_nil, search_nil]
      exact iff_of_false nofun nofun
    · exact h.search_found_iff hw (havoid word hmem) hbound hstart
  have htrue : holdsAll words bound' (.ofOffset r.new (r.move start)) = .ok true ↔
      holdsAll words bound (.ofOffset r.old start) = .ok true := by
    rw [holdsAll_eq_true_iff, holdsAll_eq_true_iff]
    exact and_congr_right fun _ => forall₂_congr hword
  rw [rangeHoldsAll_eq_ok_iff] at hsafe hsafe'
  rw [hsafe, hsafe', Except.ok.injEq, Except.ok.injEq] at htrue
  exact Bool.eq_iff_iff.2 htrue

/-- The header of a block ends a byte before its brace in both texts. -/
theorem Harmless.le_header_iff (h : r.Harmless) (p q : Nat) : r.move q ≤ r.move p - 1 ↔ q ≤ p - 1 := by
  rcases Nat.eq_zero_or_pos p with rfl | hp
  · rw [h.move_zero, Nat.le_zero, Nat.le_zero]
    have hle := h.move_le_iff (p := q) (q := 0)
    rw [h.move_zero, Nat.le_zero, Nat.le_zero] at hle
    exact hle
  · have hlt := h.move_lt_iff (p := q) (q := p)
    have hpos := h.move_lt 0 p hp
    omega

/-! ## Scopes -/

/-- The finding that a finding becomes. -/
def finding (r : Revision) (f : Finding) : Finding := ⟨f.line, r.move f.offset, r.change f.bytes⟩

/-- From `pos` on, a scope that can be scanned in both texts is scanned alike. -/
def ScansAlike (r : Revision) (opts : LexOptions) (pos : Nat) : Prop :=
  ∀ ⦃stop start line last last' : Nat⦄ ⦃found found' : List Finding⦄, r.place start →
    scanRange opts r.old stop start pos line = .ok (last, found) →
    scanRange opts r.new (r.move stop) (r.move start) (r.move pos) line = .ok (last', found') →
    last' = last ∧ found' = found.map r.finding

section

variable {opts : LexOptions} (havoid : ∀ word ∈ opts.safeKeywords, ∀ x ∈ r.stops, x ∉ word)
  {stop start pos line last last' : Nat} {found found' : List Finding} {b : UInt8} {s s' : Bytes}
  {t t' : Token}

/-- A literal that is reported is reported at its counterpart. -/
theorem TokensAlike.reported_eq (htokens : r.TokensAlike pos b s s' t t') (hs : r.old.drop pos = b :: s)
    (hs' : r.new.drop (r.move pos) = b :: s') (hk : t.IsLiteral) (safe : Bool) :
    reported safe r.new line (r.move pos) (r.move pos + t'.length) =
      (reported safe r.old line pos (pos + t.length)).map r.finding := by
  cases safe with
  | true => rfl
  | false =>
    have hbytes : slice r.new (r.move pos) (r.move pos + t'.length) =
        r.change (slice r.old pos (pos + t.length)) := by
      rw [slice_add, slice_add, hs, hs']
      exact htokens.bytes hk
    show [(⟨line, r.move pos, _⟩ : Finding)] = [⟨line, r.move pos, _⟩]
    rw [hbytes]

/-- How far the statement of a literal is asked, corresponds. -/
theorem TokensAlike.bound_eq (htokens : r.TokensAlike pos b s s' t t') :
    t'.bound (r.move pos) = r.move (t.bound pos) := by
  rw [Token.bound, Token.bound, htokens.kind]
  split
  · exact htokens.spans.move.symm
  · rfl

/-- The byte before the end of a block has its counterpart before the end of the counterpart. -/
theorem Harmless.move_block_end (h : r.Harmless) (htokens : r.TokensAlike pos b s s' t t')
    (hs : r.old.drop pos = b :: s) (hn : MagicNumbers.blockLength (b :: s) = .ok t.length) :
    r.move (pos + t.length - 1) = r.move pos + t'.length - 1 := by
  obtain ⟨hlong, hle⟩ := blockLength_bounds hn
  obtain ⟨u, hu⟩ := take_of_blockFrom hn
  rw [List.drop_succ_cons, List.drop_zero] at hu
  have hlength := congrArg List.length hu
  rw [List.length_take, List.length_append, List.length_singleton] at hlength
  have hlast : (r.old.drop (pos + t.length - 1)).take 1 = [Byte.closeBrace] := by
    have hdrop := congrArg (List.drop u.length) hu
    rw [List.drop_left, List.drop_take] at hdrop
    rw [show pos + t.length - 1 = pos + (u.length + 1) by omega, ← drop_of_step hs (by omega),
      Nat.add_sub_cancel]
    rw [show t.length - 1 - u.length = 1 by omega] at hdrop
    exact hdrop
  have hmove := h.move_add (pos + t.length - 1) 1 (by
    rw [hlast]
    intro x hx hmem
    cases List.mem_singleton.1 hmem
    exact absurd (h.stops_subset hx) (by decide))
  rw [show pos + t.length - 1 + 1 = pos + t.length by omega, htokens.spans.move] at hmove
  omega

include havoid

/-- A literal is taken alike, if what follows it is. -/
theorem ScansAlike.literal (h : r.Harmless) (hnext : r.ScansAlike opts (pos + t.length))
    (hpos : r.place pos) (hstart : r.place start) (htokens : r.TokensAlike pos b s s' t t')
    (hs : r.old.drop pos = b :: s) (hs' : r.new.drop (r.move pos) = b :: s') (hk : t.IsLiteral)
    (hrun : scanToken opts r.old stop start pos line t = .ok (last, found))
    (hrun' : scanToken opts r.new (r.move stop) (r.move start) (r.move pos) line t' =
      .ok (last', found')) : last' = last ∧ found' = found.map r.finding := by
  have hk' : t'.IsLiteral := by
    rw [Token.IsLiteral, htokens.kind]
    exact hk
  obtain ⟨safe, rest, hsafe, hrest, rfl⟩ := scanToken_literal_ok hk hrun
  obtain ⟨safe', rest', hsafe', hrest', rfl⟩ := scanToken_literal_ok hk' hrun'
  rw [htokens.bound_eq] at hsafe'
  have heq : safe' = safe := h.answer havoid hstart (fun q => h.move_le_iff) hsafe hsafe'
  rw [← htokens.spans.move, h.newlines_take hpos htokens.spans] at hrest'
  obtain ⟨hlast, hfound⟩ := hnext hstart hrest hrest'
  refine ⟨hlast, ?_⟩
  rw [heq, htokens.reported_eq hs hs' hk, hfound, List.map_append]

/-- A block is taken alike, if what it holds and what follows it are. -/
theorem ScansAlike.block (h : r.Harmless) (hinside : r.ScansAlike opts (pos + 1))
    (hnext : r.ScansAlike opts (pos + t.length)) (hpos : r.place pos) (hstart : r.place start)
    (htokens : r.TokensAlike pos b s s' t t') (hs : r.old.drop pos = b :: s) (hone : r.Spans pos 1 1)
    (hn : MagicNumbers.blockLength (b :: s) = .ok t.length) (hk : t.kind = .block)
    (hrun : scanToken opts r.old stop start pos line t = .ok (last, found))
    (hrun' : scanToken opts r.new (r.move stop) (r.move start) (r.move pos) line t' =
      .ok (last', found')) : last' = last ∧ found' = found.map r.finding := by
  have hk' : t'.kind = .block := htokens.kind.trans hk
  have hend := h.move_block_end htokens hs hn
  rcases scanToken_block_ok hk hrun with ⟨hsafe, hrest⟩ | ⟨hsafe, _, _, _, hinner, hrest, rfl⟩
  · rcases scanToken_block_ok hk' hrun' with ⟨-, hrest'⟩ | ⟨hsafe', -⟩
    · rw [← htokens.spans.move, h.newlines_take hpos htokens.spans] at hrest'
      exact hnext htokens.spans.place hrest hrest'
    · cases h.answer havoid hstart (h.le_header_iff pos) hsafe hsafe'
  · rcases scanToken_block_ok hk' hrun' with ⟨hsafe', -⟩ | ⟨-, _, _, _, hinner', hrest', rfl⟩
    · cases h.answer havoid hstart (h.le_header_iff pos) hsafe hsafe'
    · rw [← hend, ← hone.move] at hinner'
      obtain ⟨rfl, rfl⟩ := hinside hone.place hinner hinner'
      rw [← htokens.spans.move] at hrest'
      obtain ⟨hlast, rfl⟩ := hnext htokens.spans.place hrest hrest'
      exact ⟨hlast, by rw [List.map_append]⟩

/-- **Scopes are scanned alike from every place on.**  The induction is on what is left of the text. -/
theorem Harmless.scansAlike (h : r.Harmless) (hpos : r.place pos) : r.ScansAlike opts pos := by
  induction hn : r.old.length - pos using Nat.strongRecOn generalizing pos with
  | _ n ih =>
  subst hn
  intro stop start line last last' found found' hstart hrun hrun'
  rcases scanRange_ok hrun with ⟨hend, rfl, rfl⟩ | ⟨b, s, t, hs, hlt, ht, hrun⟩
  · have hend' : r.new.drop (r.move pos) = [] ∨ r.move stop ≤ r.move pos :=
      hend.imp h.drop_eq_nil h.move_le_iff.2
    rw [scanRange_of_end hend'] at hrun'
    cases hrun'
    exact ⟨rfl, rfl⟩
  have hlen := congrArg List.length hs
  rw [List.length_drop, List.length_cons] at hlen
  have later : ∀ k, 0 < k → r.place (pos + k) → r.ScansAlike opts (pos + k) := by
    intro k hk hplace
    exact ih _ (by omega) hplace rfl
  have htpos := (Token.read_bounds ht).1
  rcases h.step pos b s hpos hs with ⟨s', hsteps⟩ | ⟨rfl, hfeeds⟩
  · obtain ⟨t', ht', htokens⟩ := h.token hpos hs hsteps ht
    rw [← h.lead pos hpos (by omega)] at ht'
    rw [scanRange_of_token hsteps.rest (h.move_lt _ _ hlt) ht'] at hrun'
    have hnext := later t.length htpos htokens.spans.place
    rcases t.role with hk | hk | hk | hk
    · have hk' : t'.IsSkipped := by
        rw [Token.IsSkipped, htokens.kind]
        exact hk
      rw [scanToken_of_skipped hk] at hrun
      rw [scanToken_of_skipped hk', ← htokens.spans.move, h.newlines_take hpos htokens.spans] at hrun'
      exact hnext hstart hrun hrun'
    · rw [scanToken_of_semicolon hk] at hrun
      rw [scanToken_of_semicolon (htokens.kind.trans hk), ← htokens.spans.move] at hrun'
      exact hnext htokens.spans.place hrun hrun'
    · exact hnext.literal havoid h hpos hstart htokens hs hsteps.rest hk hrun hrun'
    · have hb : b = Byte.openBrace := (Token.kind_eq_block_iff ht).1 hk
      obtain ⟨-, -, hone⟩ :=
        h.next hpos hs (by rw [hb]; decide) (by rw [hb]; decide) (by rw [hb]; decide)
      exact (later 1 Nat.one_pos hone.place).block havoid h hnext hpos hstart htokens hs hone
        (Token.blockLength_of_read ht hk) hk hrun hrun'
  · -- the line feed is one token of the text, and behind the carriage return one of the revised text
    cases ht
    rw [scanToken_of_skipped (.inr (.inr rfl)), hs] at hrun
    have hmove := hfeeds.spans.move
    have hle := h.move_le_iff.2 (show pos + 1 ≤ stop from hlt)
    rw [scanRange_of_token hfeeds.rest (h.move_lt _ _ hlt) (t := ⟨.other, 1⟩) rfl,
      scanToken_of_skipped (.inr (.inr rfl)), hfeeds.rest] at hrun'
    rw [scanRange_of_token (drop_succ_of_drop hfeeds.rest) (by show r.move pos + 1 < _; omega)
      (t := ⟨.other, 1⟩) rfl, scanToken_of_skipped (.inr (.inr rfl)),
      drop_succ_of_drop hfeeds.rest] at hrun'
    have hrun'' : scanRange opts r.new (r.move stop) (r.move start) (r.move (pos + 1)) (line + 1) =
        .ok (last', found') := by
      rw [hmove]
      exact hrun'
    exact later 1 Nat.one_pos hfeeds.spans.place hstart hrun hrun''

end

/-! ## Sources -/

/-- **A harmless revision of a source is scanned as the source is**: the findings are at their
    counterparts, on the same lines; or the same construct is not closed. -/
theorem Harmless.scan_eq (h : r.Harmless) {opts : LexOptions}
    (havoid : ∀ word ∈ opts.safeKeywords, ∀ x ∈ r.stops, x ∉ word) :
    scan opts r.new =
      match scan opts r.old with
      | .ok found => .ok (found.map r.finding)
      | .error e => .error { e with offset := r.move e.offset } := by
  rcases h.skim with ⟨hold, hnew⟩ | ⟨e, hold, hnew⟩
  · obtain ⟨last, found, hrun, hscan⟩ := scan_ok_of_skim hold opts
    obtain ⟨last', found', hrun', hscan'⟩ := scan_ok_of_skim hnew opts
    rw [← h.move_length, ← h.move_zero] at hrun'
    obtain ⟨-, hfound⟩ := h.scansAlike havoid h.place_zero h.place_zero hrun hrun'
    rw [hscan, hscan', hfound]
  · rw [(scan_eq_error_iff opts r.old e).2 hold]
    exact (scan_eq_error_iff opts r.new _).2 hnew

end Revision

end MagicNumbers
