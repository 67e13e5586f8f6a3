/-
  Well-formed UTF-8.

  Encoded characters are read back as they were, and so is a stretch of them that begins and ends in a
  byte of ASCII: such a byte is never a part of a longer character, so the stretch cuts none.

  * `encode` — the bytes of some characters, which are those of the text that they make up.
  * `decode_encode` — decoding gives the characters back.
  * `exists_encode_of_append` — a stretch that begins and ends in ASCII holds whole characters.
-/
import MagicNumbers.Text.Utf8

namespace MagicNumbers

namespace Utf8

/-- The bytes of some characters. -/
def encode (cs : List Char) : Bytes := cs.flatMap String.utf8EncodeChar

@[simp] theorem encode_nil : encode [] = [] := rfl

@[simp] theorem encode_cons (c : Char) (cs : List Char) :
    encode (c :: cs) = String.utf8EncodeChar c ++ encode cs :=
  List.flatMap_cons

theorem encode_append (cs ds : List Char) : encode (cs ++ ds) = encode cs ++ encode ds :=
  List.flatMap_append

end Utf8

/-- The bytes of a text are those of its characters. -/
theorem Bytes.ofString_ofList (cs : List Char) :
    Bytes.ofString (String.ofList cs) = Utf8.encode cs := by
  rw [Bytes.ofString, String.toUTF8_eq_toByteArray, String.toByteArray_ofList, List.utf8Encode,
    Utf8.encode, List.data_toByteArray]

theorem Bytes.ofString_eq_encode (s : String) : Bytes.ofString s = Utf8.encode s.toList := by
  rw [← Bytes.ofString_ofList, String.ofList_toList]

theorem Bytes.ofString_append (s t : String) : ofString (s ++ t) = ofString s ++ ofString t := by
  rw [ofString_eq_encode, String.toList_append, Utf8.encode_append, ofString_eq_encode,
    ofString_eq_encode]

theorem Bytes.ofString_join (texts : List String) :
    ofString (String.join texts) = (texts.map ofString).flatten := by
  induction texts with
  | nil => rfl
  | cons s texts ih =>
    rw [String.join_cons, ofString_append, ih, List.map_cons, List.flatten_cons]

theorem Bytes.length_ofString (s : String) : (Bytes.ofString s).length = s.utf8ByteSize := rfl

namespace Utf8

/-! ## Reading back one character -/

/-- The first byte of a character of two bytes. -/
theorem lead_two : ∀ n < 32, 2 ≤ n → lead (UInt8.ofNat (n + 192)) = .longer ⟨n, 1, 0x80, 0xBF⟩ := by
  decide

/-- The first byte of a character of three bytes.  After the least no shorter character may follow, and
    after the last but two no surrogate. -/
theorem lead_three : ∀ n < 16, lead (UInt8.ofNat (n + 224)) =
    .longer ⟨n, 2, if n = 0 then 0xA0 else 0x80, if n = 13 then 0x9F else 0xBF⟩ := by
  decide

/-- The first byte of a character of four bytes. -/
theorem lead_four : ∀ n < 5, lead (UInt8.ofNat (n + 240)) =
    .longer ⟨n, 3, if n = 0 then 0x90 else 0x80, if n = 4 then 0x8F else 0xBF⟩ := by
  decide

/-- A character that is one byte. -/
theorem read_ascii (done : List (Option Char)) {n : Nat} (hn : n ≤ 127) :
    State.read ⟨done, none⟩ (UInt8.ofNat n) = ⟨some (Char.ofNat n) :: done, none⟩ := by
  have hnat : (UInt8.ofNat n).toNat = n := by
    rw [UInt8.toNat_ofNat']
    omega
  have hlead : lead (UInt8.ofNat n) = .ascii := by
    rw [lead, if_pos]
    rw [UInt8.lt_iff_toNat_lt, hnat]
    exact Nat.lt_succ_of_le hn
  simp only [State.read, State.first, hlead, hnat]

/-- A character that has been begun. -/
theorem read_lead (done : List (Option Char)) {b : UInt8} {p : Partial} (h : lead b = .longer p) :
    State.read ⟨done, none⟩ b = ⟨done, some p⟩ := by
  simp only [State.read, State.first, h]

/-- The byte that six more bits of a character are in may follow a part of it. -/
def Follows (n : Nat) (low high : UInt8) : Prop := low.toNat ≤ n + 128 ∧ n + 128 ≤ high.toNat

/-- Behind the second byte of a character any six bits may follow. -/
theorem follows_of_lt {n : Nat} (hn : n < 64) : Follows n 0x80 0xBF :=
  ⟨Nat.le_add_left 128 n, by show n + 128 ≤ 191; omega⟩

section

variable (done : List (Option Char)) {value owed n : Nat} {low high : UInt8}

/-- A byte that follows a part of a character is taken for its six bits. -/
theorem read_of_follows {p : Partial} (hn : n < 64) (h : Follows n p.low p.high) :
    State.read ⟨done, some p⟩ (UInt8.ofNat (n + 128)) =
      if p.owed ≤ 1 then ⟨some (Char.ofNat (p.value * 64 + n)) :: done, none⟩
      else ⟨done, some ⟨p.value * 64 + n, p.owed - 1, 0x80, 0xBF⟩⟩ := by
  have hnat : (UInt8.ofNat (n + 128)).toNat = n + 128 := by
    rw [UInt8.toNat_ofNat']
    omega
  have hrange : p.low ≤ UInt8.ofNat (n + 128) ∧ UInt8.ofNat (n + 128) ≤ p.high := by
    rw [UInt8.le_iff_toNat_le, UInt8.le_iff_toNat_le, hnat]
    exact h
  simp only [State.read, if_pos hrange, hnat, Nat.add_sub_cancel]

/-- The last byte of a character. -/
theorem read_last (hn : n < 64) (h : Follows n low high) :
    State.read ⟨done, some ⟨value, 1, low, high⟩⟩ (UInt8.ofNat (n + 128)) =
      ⟨some (Char.ofNat (value * 64 + n)) :: done, none⟩ := by
  rw [read_of_follows done hn h]
  exact if_pos (Nat.le_refl 1)

/-- A byte of a character that is not its last. -/
theorem read_more (hn : n < 64) (h : Follows n low high) :
    State.read ⟨done, some ⟨value, owed + 2, low, high⟩⟩ (UInt8.ofNat (n + 128)) =
      ⟨done, some ⟨value * 64 + n, owed + 1, 0x80, 0xBF⟩⟩ := by
  rw [read_of_follows done hn h]
  exact if_neg (by show ¬owed + 2 ≤ 1; omega)

end

/-- **The bytes of a character are read as that character.** -/
theorem foldl_read_encodeChar (done : List (Option Char)) (c : Char) :
    (String.utf8EncodeChar c).foldl State.read ⟨done, none⟩ = ⟨some c :: done, none⟩ := by
  have hvalid : c.toNat < 0xD800 ∨ 0xDFFF < c.toNat ∧ c.toNat < 0x110000 := c.valid
  have hchar : ∀ {n}, n = c.toNat → some (Char.ofNat n) = some c := by
    rintro n rfl
    rw [Char.ofNat_toNat]
  unfold String.utf8EncodeChar
  rw [Char.toNat_val]
  generalize c.toNat = v at hvalid hchar
  have htail : ∀ n, Follows (n % 64) 0x80 0xBF := fun n => follows_of_lt (by omega)
  by_cases hone : v ≤ 127
  · simp only [if_pos hone, List.foldl_cons, List.foldl_nil, read_ascii done hone, hchar rfl]
  by_cases htwo : v ≤ 2047
  · simp only [if_neg hone, if_pos htwo, List.foldl_cons, List.foldl_nil]
    rw [read_lead done (lead_two (v / 64 % 32) (by omega) (by omega)),
      read_last done (by omega) (htail v), hchar (by omega)]
  by_cases hthree : v ≤ 65535
  · -- the second byte rules out shorter characters and surrogates
    have hsecond : Follows (v / 64 % 64) (if v / 4096 % 16 = 0 then 0xA0 else 0x80)
        (if v / 4096 % 16 = 13 then 0x9F else 0xBF) := by
      constructor
      · split
        · show 160 ≤ _
          omega
        · exact Nat.le_add_left 128 _
      · split
        · show _ ≤ 159
          omega
        · show _ ≤ 191
          omega
    simp only [if_neg hone, if_neg htwo, if_pos hthree, List.foldl_cons, List.foldl_nil]
    rw [read_lead done (lead_three (v / 4096 % 16) (by omega)), read_more done (by omega) hsecond,
      read_last done (by omega) (htail v), hchar (by omega)]
  · -- and what lies beyond the last character
    have hsecond : Follows (v / 4096 % 64) (if v / 262144 % 8 = 0 then 0x90 else 0x80)
        (if v / 262144 % 8 = 4 then 0x8F else 0xBF) := by
      constructor
      · split
        · show 144 ≤ _
          omega
        · exact Nat.le_add_left 128 _
      · split
        · show _ ≤ 143
          omega
        · show _ ≤ 191
          omega
    simp only [if_neg hone, if_neg htwo, if_neg hthree, List.foldl_cons, List.foldl_nil]
    rw [read_lead done (lead_four (v / 262144 % 8) (by omega)), read_more done (by omega) hsecond,
      read_more done (by omega) (htail (v / 64)), read_last done (by omega) (htail v),
      hchar (by omega)]

/-! ## Reading back a text -/

theorem foldl_read_encode (done : List (Option Char)) (cs : List Char) :
    (encode cs).foldl State.read ⟨done, none⟩ = ⟨(cs.map some).reverse ++ done, none⟩ := by
  induction cs generalizing done with
  | nil => rfl
  | cons c cs ih =>
    rw [encode_cons, List.foldl_append, foldl_read_encodeChar, ih, List.map_cons, List.reverse_cons,
      List.append_assoc, List.singleton_append]

/-- **Encoded characters are read back as they were.** -/
theorem decode_encode (cs : List Char) : decode (encode cs) = cs.map some := by
  rw [decode, foldl_read_encode, State.close, List.append_nil, List.reverse_reverse]

/-- The text that they make up has nothing in it that had to be replaced. -/
theorem decodeLossy_encode (cs : List Char) : decodeLossy (encode cs) = String.ofList cs := by
  rw [decodeLossy, decode_encode, List.map_map]
  exact congrArg String.ofList (List.map_id cs)

theorem decode?_encode (cs : List Char) : decode? (encode cs) = some (String.ofList cs) := by
  rw [decode?, decode_encode]
  simp [List.filterMap_map]

/-! ## Stretches of a text -/

theorem not_ofNat_lt {n : Nat} (hlow : 128 ≤ n) (hhigh : n < 256) : ¬UInt8.ofNat n < 0x80 := by
  rw [UInt8.lt_iff_toNat_lt, UInt8.toNat_ofNat']
  show ¬n % 256 < 128
  omega

/-- A character is a single byte, or none of its bytes is in ASCII. -/
theorem encodeChar_single_or_not_ascii (c : Char) :
    (∃ b, String.utf8EncodeChar c = [b]) ∨ ∀ b ∈ String.utf8EncodeChar c, ¬b < 0x80 := by
  unfold String.utf8EncodeChar
  by_cases hone : c.val.toNat ≤ 127
  · exact .inl ⟨_, if_pos hone⟩
  · refine .inr ?_
    -- all first bytes are at least 192, all others at least 128
    by_cases htwo : c.val.toNat ≤ 2047
    · simp only [if_neg hone, if_pos htwo, List.forall_mem_cons]
      refine ⟨?_, ?_, List.forall_mem_nil _⟩ <;> exact not_ofNat_lt (by omega) (by omega)
    · by_cases hthree : c.val.toNat ≤ 65535
      · simp only [if_neg hone, if_neg htwo, if_pos hthree, List.forall_mem_cons]
        refine ⟨?_, ?_, ?_, List.forall_mem_nil _⟩ <;> exact not_ofNat_lt (by omega) (by omega)
      · simp only [if_neg hone, if_neg htwo, if_neg hthree, List.forall_mem_cons]
        refine ⟨?_, ?_, ?_, ?_, List.forall_mem_nil _⟩ <;> exact not_ofNat_lt (by omega) (by omega)

/-- **A byte of ASCII is a whole character.** -/
theorem encode_eq_append_cons {cs : List Char} {u v : Bytes} {b : UInt8}
    (h : encode cs = u ++ b :: v) (hb : b < 0x80) :
    ∃ cs₁ c cs₂, cs = cs₁ ++ c :: cs₂ ∧ encode cs₁ = u ∧ encode [c] = [b] ∧ encode cs₂ = v := by
  induction cs generalizing u with
  | nil => exact absurd h.symm (List.append_ne_nil_of_right_ne_nil u (List.cons_ne_nil b v))
  | cons c cs ih =>
    rw [encode_cons] at h
    -- behind the first character, if the byte lies there
    have behind : ∀ {w}, encode cs = w ++ b :: v →
        ∃ cs₁ d cs₂, c :: cs = cs₁ ++ d :: cs₂ ∧ encode cs₁ = String.utf8EncodeChar c ++ w ∧
          encode [d] = [b] ∧ encode cs₂ = v := by
      intro w hw
      obtain ⟨cs₁, d, cs₂, rfl, hcs₁, hd, hcs₂⟩ := ih hw
      exact ⟨c :: cs₁, d, cs₂, rfl, by rw [encode_cons, hcs₁], hd, hcs₂⟩
    rcases List.append_eq_append_iff.1 h with ⟨w, rfl, hw⟩ | ⟨w, hc, hw⟩
    · exact behind hw
    · cases w with
      | nil =>
        rw [List.append_nil] at hc
        have hfound := behind (w := []) hw.symm
        rwa [List.append_nil, hc] at hfound
      | cons a w =>
        cases hw
        rcases encodeChar_single_or_not_ascii c with ⟨a, ha⟩ | hall
        · -- the byte is the character
          rw [ha] at hc
          obtain ⟨rfl, hnil⟩ := List.append_eq_singleton_iff.1 hc.symm |>.resolve_right (by simp)
          cases hnil
          exact ⟨[], c, cs, rfl, rfl, by rw [encode_cons, ha]; rfl, rfl⟩
        · exact absurd hb (hall b (by rw [hc]; simp))

/-- **A stretch that begins and ends in ASCII holds whole characters.** -/
theorem exists_encode_of_append {cs : List Char} {u s v : Bytes} (h : encode cs = u ++ (s ++ v))
    (hfirst : ∃ b t, s = b :: t ∧ b < 0x80) (hlast : ∃ t x, s = t ++ [x] ∧ x < 0x80) :
    ∃ ds, s = encode ds := by
  obtain ⟨b, t, rfl, hb⟩ := hfirst
  obtain ⟨cs₁, c, cs₂, rfl, -, hc, hcs₂⟩ := encode_eq_append_cons h hb
  have hrest : encode (c :: cs₂) = b :: t ++ v := by
    rw [encode_cons, hcs₂, ← List.append_nil (String.utf8EncodeChar c), ← encode_nil, ← encode_cons, hc]
    rfl
  obtain ⟨r, x, hx, hlt⟩ := hlast
  rw [hx, List.append_assoc, List.singleton_append] at hrest
  obtain ⟨ds, d, es, -, hds, hd, -⟩ := encode_eq_append_cons hrest hlt
  exact ⟨ds ++ [d], by rw [hx, encode_append, hds, hd]⟩

end Utf8

end MagicNumbers
