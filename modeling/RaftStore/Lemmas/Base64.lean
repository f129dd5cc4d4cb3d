import RaftStore.Text

/-!
# Base64 is decoded as it was encoded

The encoder takes three bytes and the decoder four characters at a time: after each group the accumulators are as before it, up to
bits that are shifted out later. The padding ends the decoder's loop.
-/

namespace RaftStore

/-- The bits from `k` on under a mask, as arithmetic. -/
theorem sshiftRight_and_toNat (x : BitVec 32) {k w : ℕ} (h : k + w ≤ 32) :
    ((x.sshiftRight k) &&& BitVec.ofNat 32 (2 ^ w - 1)).toNat = x.toNat / 2 ^ k % 2 ^ w := by
  have hmask : (2 ^ w - 1) % 2 ^ 32 = 2 ^ w - 1 := by
    have hle := Nat.pow_le_pow_right (n := 2) (by decide) (show w ≤ 32 by omega)
    exact Nat.mod_eq_of_lt (by omega)
  apply Nat.eq_of_testBit_eq
  intro i
  rw [BitVec.toNat_and, Nat.testBit_and, BitVec.testBit_toNat, BitVec.toNat_ofNat, hmask, Nat.testBit_two_pow_sub_one,
    Nat.testBit_mod_two_pow, Nat.testBit_div_two_pow, BitVec.testBit_toNat, BitVec.getLsbD_sshiftRight]
  by_cases hi : i < w
  · simp [hi, show ¬32 ≤ i by omega, show k + i < 32 by omega, Nat.add_comm i k]
  · simp [hi]

/-- The six bits that the encoder takes. -/
theorem sextet_toNat (x : BitVec 32) {k : ℕ} (h : k ≤ 26) : ((x.sshiftRight k) &&& 0x3F).toNat = x.toNat / 2 ^ k % 64 :=
  sshiftRight_and_toNat x (w := 6) (by omega)

/-- The eight bits that the decoder takes. -/
theorem octet_toNat (x : BitVec 32) {k : ℕ} (h : k ≤ 24) : ((x.sshiftRight k) &&& 0xFF).toNat = x.toNat / 2 ^ k % 256 :=
  sshiftRight_and_toNat x (w := 8) (by omega)

/-- Bits are shifted into the accumulator. -/
theorem shiftIn_toNat (x : BitVec 32) (k c : ℕ) :
    ((x <<< k) + BitVec.ofNat 32 c).toNat = (x.toNat * 2 ^ k + c) % 2 ^ 32 := by
  rw [BitVec.toNat_add, BitVec.toNat_shiftLeft, BitVec.toNat_ofNat, Nat.shiftLeft_eq, Nat.add_mod_mod, Nat.mod_add_mod]

/-! ## Characters -/

/-- The decoder finds each character of the encoder, -/
theorem idxOf_base64Char {i : ℕ} (h : i < 64) : base64Chars.idxOf? (base64Char i) = some i := by
  have hall : ∀ i : Fin 64, base64Chars.idxOf? (base64Char i) = some (i : ℕ) := by decide +kernel
  exact hall ⟨i, h⟩

/-- and no padding. -/
theorem idxOf_padding : base64Chars.idxOf? 61 = none := by decide +kernel

/-! ## The encoder -/

theorem encodeFrom_cons (val : BitVec 32) (valb : ℤ) (c : UInt8) (cs : Str) : encodeFrom val valb (c :: cs) =
    (encodeBits ((val <<< 8) + BitVec.ofNat 32 c.toNat) 3 (valb + 8)).1 ++
      encodeFrom ((val <<< 8) + BitVec.ofNat 32 c.toNat)
        (encodeBits ((val <<< 8) + BitVec.ofNat 32 c.toNat) 3 (valb + 8)).2 cs := rfl

/-- The characters of a byte after 0, 1 and 2 bytes of a group. -/
theorem encodeBits_first (val : BitVec 32) : encodeBits val 3 (-6 + 8) = ([base64Char (val.toNat / 4 % 64)], -4) := by
  rw [show val.toNat / 4 % 64 = _ from (sextet_toNat val (k := 2) (by decide)).symm]
  rfl

theorem encodeBits_second (val : BitVec 32) : encodeBits val 3 (-4 + 8) = ([base64Char (val.toNat / 16 % 64)], -2) := by
  rw [show val.toNat / 16 % 64 = _ from (sextet_toNat val (k := 4) (by decide)).symm]
  rfl

theorem encodeBits_third (val : BitVec 32) :
    encodeBits val 3 (-2 + 8) = ([base64Char (val.toNat / 64 % 64), base64Char (val.toNat / 1 % 64)], -6) := by
  rw [show val.toNat / 64 % 64 = _ from (sextet_toNat val (k := 6) (by decide)).symm,
    show val.toNat / 1 % 64 = _ from (sextet_toNat val (k := 0) (by decide)).symm]
  rfl

/-- The accumulator after one byte, two bytes and three bytes of a group, as far as the characters go. -/
theorem group_sextets {v v₁ v₂ v₃ a b c : ℕ} (ha : a < 2 ^ 8) (hb : b < 2 ^ 8) (hc : c < 2 ^ 8)
    (h₁ : v₁ = (v * 2 ^ 8 + a) % 2 ^ 32) (h₂ : v₂ = (v₁ * 2 ^ 8 + b) % 2 ^ 32) (h₃ : v₃ = (v₂ * 2 ^ 8 + c) % 2 ^ 32) :
    v₁ / 4 % 64 = a / 4 ∧ v₂ / 16 % 64 = a % 4 * 16 + b / 16 ∧ v₃ / 64 % 64 = b % 16 * 4 + c / 64 ∧ v₃ / 1 % 64 = c % 64 := by
  omega

/-- Three bytes become four characters. -/
theorem encodeFrom_group (val : BitVec 32) (a b c : UInt8) (cs : Str) : ∃ val', encodeFrom val (-6) (a :: b :: c :: cs) =
    base64Char (a.toNat / 4) :: base64Char (a.toNat % 4 * 16 + b.toNat / 16) ::
      base64Char (b.toNat % 16 * 4 + c.toNat / 64) :: base64Char (c.toNat % 64) :: encodeFrom val' (-6) cs := by
  obtain ⟨h₁, h₂, h₃, h₄⟩ := group_sextets a.toNat_lt b.toNat_lt c.toNat_lt (shiftIn_toNat val 8 a.toNat) (shiftIn_toNat _ 8 b.toNat)
    (shiftIn_toNat _ 8 c.toNat)
  rw [encodeFrom_cons, encodeBits_first, encodeFrom_cons, encodeBits_second, encodeFrom_cons, encodeBits_third, h₁, h₂, h₃, h₄]
  exact ⟨_, rfl⟩

/-- One byte at the end becomes two characters, -/
theorem encodeFrom_one (val : BitVec 32) (a : UInt8) :
    encodeFrom val (-6) [a] = [base64Char (a.toNat / 4), base64Char (a.toNat % 4 * 16)] := by
  have ha := a.toNat_lt
  have hfirst : ((val <<< 8) + BitVec.ofNat 32 a.toNat).toNat / 4 % 64 = a.toNat / 4 := by
    rw [shiftIn_toNat]
    omega
  have hlast : (((val <<< 8) + BitVec.ofNat 32 a.toNat) <<< 8).toNat / 2 ^ 4 % 64 = a.toNat % 4 * 16 := by
    rw [BitVec.toNat_shiftLeft, Nat.shiftLeft_eq, shiftIn_toNat]
    omega
  rw [encodeFrom_cons, encodeBits_first, hfirst, ← hlast, ← sextet_toNat _ (by decide)]
  rfl

/-- and two bytes become three. -/
theorem encodeFrom_two (val : BitVec 32) (a b : UInt8) : encodeFrom val (-6) [a, b] =
    [base64Char (a.toNat / 4), base64Char (a.toNat % 4 * 16 + b.toNat / 16), base64Char (b.toNat % 16 * 4)] := by
  have ha := a.toNat_lt
  have hb := b.toNat_lt
  obtain ⟨hfirst, hsecond, _⟩ := group_sextets ha hb hb (shiftIn_toNat val 8 a.toNat) (shiftIn_toNat _ 8 b.toNat) rfl
  have hlast : ((((val <<< 8) + BitVec.ofNat 32 a.toNat) <<< 8 + BitVec.ofNat 32 b.toNat) <<< 8).toNat / 2 ^ 6 % 64 =
      b.toNat % 16 * 4 := by
    rw [BitVec.toNat_shiftLeft, Nat.shiftLeft_eq, shiftIn_toNat]
    omega
  rw [encodeFrom_cons, encodeBits_first, encodeFrom_cons, encodeBits_second, hfirst, hsecond, ← hlast, ← sextet_toNat _ (by decide)]
  rfl

/-! ## The decoder -/

/-- A character is taken into the accumulator, and gives a byte where there are eight bits. -/
theorem decodeFrom_char (val : BitVec 32) (valb : ℤ) {i : ℕ} (h : i < 64) (s : Str) : decodeFrom val valb (base64Char i :: s) =
    if 0 ≤ valb + 6 then
      (((((val <<< 6) + BitVec.ofNat 32 i).sshiftRight (valb + 6).toNat) &&& 0xFF).toNat.toUInt8 ::
        decodeFrom ((val <<< 6) + BitVec.ofNat 32 i) (valb + 6 - 8) s)
    else decodeFrom ((val <<< 6) + BitVec.ofNat 32 i) (valb + 6) s := by
  rw [decodeFrom, idxOf_base64Char h]

/-- The padding ends the loop. -/
theorem decodeFrom_padding (val : BitVec 32) (valb : ℤ) (k : ℕ) : decodeFrom val valb (List.replicate k 61) = [] := by
  cases k with
  | zero => rfl
  | succ k => rw [List.replicate_succ, decodeFrom, idxOf_padding]

/-- The accumulator after two, three and four characters of a group, as far as the bytes go. -/
theorem group_octets {v v₁ v₂ v₃ v₄ i j k l : ℕ} (hi : i < 64) (hj : j < 64) (hk : k < 64) (hl : l < 64)
    (h₁ : v₁ = (v * 2 ^ 6 + i) % 2 ^ 32) (h₂ : v₂ = (v₁ * 2 ^ 6 + j) % 2 ^ 32) (h₃ : v₃ = (v₂ * 2 ^ 6 + k) % 2 ^ 32)
    (h₄ : v₄ = (v₃ * 2 ^ 6 + l) % 2 ^ 32) : v₂ / 2 ^ 4 % 256 = i * 4 + j / 16 ∧ v₃ / 2 ^ 2 % 256 = j % 16 * 16 + k / 4 ∧
      v₄ / 2 ^ 0 % 256 = k % 4 * 64 + l := by
  omega

/-- What the characters of a group give: nothing, and then a byte each. -/
theorem decodeFrom_first (val : BitVec 32) {i : ℕ} (h : i < 64) (s : Str) :
    decodeFrom val (-8) (base64Char i :: s) = decodeFrom ((val <<< 6) + BitVec.ofNat 32 i) (-2) s :=
  decodeFrom_char val (-8) h s

theorem decodeFrom_second (val : BitVec 32) {i : ℕ} (h : i < 64) (s : Str) : decodeFrom val (-2) (base64Char i :: s) =
    (((val <<< 6) + BitVec.ofNat 32 i).toNat / 2 ^ 4 % 256).toUInt8 :: decodeFrom ((val <<< 6) + BitVec.ofNat 32 i) (-4) s := by
  rw [decodeFrom_char val (-2) h s, ← octet_toNat _ (by decide)]
  rfl

theorem decodeFrom_third (val : BitVec 32) {i : ℕ} (h : i < 64) (s : Str) : decodeFrom val (-4) (base64Char i :: s) =
    (((val <<< 6) + BitVec.ofNat 32 i).toNat / 2 ^ 2 % 256).toUInt8 :: decodeFrom ((val <<< 6) + BitVec.ofNat 32 i) (-6) s := by
  rw [decodeFrom_char val (-4) h s, ← octet_toNat _ (by decide)]
  rfl

theorem decodeFrom_fourth (val : BitVec 32) {i : ℕ} (h : i < 64) (s : Str) : decodeFrom val (-6) (base64Char i :: s) =
    (((val <<< 6) + BitVec.ofNat 32 i).toNat / 2 ^ 0 % 256).toUInt8 :: decodeFrom ((val <<< 6) + BitVec.ofNat 32 i) (-8) s := by
  rw [decodeFrom_char val (-6) h s, ← octet_toNat _ (by decide)]
  rfl

/-- A byte that is put together from its parts. -/
theorem toUInt8_eq {b : UInt8} {x : ℕ} (h : x = b.toNat) : x.toUInt8 = b := by
  rw [h]
  exact UInt8.ofNat_toNat

/-! ## Both -/

/-- What the encoder makes of bytes is decoded as the bytes, whatever padding follows. -/
theorem decodeFrom_encodeFrom (val val' : BitVec 32) (k : ℕ) : ∀ data : Str,
    decodeFrom val (-8) (encodeFrom val' (-6) data ++ List.replicate k 61) = data
  | [] => decodeFrom_padding val (-8) k
  | [a] => by
    have ha := a.toNat_lt
    obtain ⟨h₁, _⟩ := group_octets (i := a.toNat / 4) (j := a.toNat % 4 * 16) (k := 0) (l := 0) (by omega) (by omega) (by omega)
      (by omega) (shiftIn_toNat val 6 _) (shiftIn_toNat _ 6 _) rfl rfl
    rw [encodeFrom_one, List.cons_append, List.cons_append, decodeFrom_first _ (by omega), decodeFrom_second _ (by omega), h₁,
      List.nil_append, decodeFrom_padding, toUInt8_eq (show _ = a.toNat by omega)]
  | [a, b] => by
    have ha := a.toNat_lt
    have hb := b.toNat_lt
    obtain ⟨h₁, h₂, _⟩ := group_octets (i := a.toNat / 4) (j := a.toNat % 4 * 16 + b.toNat / 16) (k := b.toNat % 16 * 4) (l := 0)
      (by omega) (by omega) (by omega) (by omega) (shiftIn_toNat val 6 _) (shiftIn_toNat _ 6 _) (shiftIn_toNat _ 6 _) rfl
    rw [encodeFrom_two, List.cons_append, List.cons_append, List.cons_append, decodeFrom_first _ (by omega),
      decodeFrom_second _ (by omega), decodeFrom_third _ (by omega), h₁, h₂, List.nil_append, decodeFrom_padding,
      toUInt8_eq (show _ = a.toNat by omega), toUInt8_eq (show _ = b.toNat by omega)]
  | a :: b :: c :: data => by
    have ha := a.toNat_lt
    have hb := b.toNat_lt
    have hc := c.toNat_lt
    obtain ⟨val'', heq⟩ := encodeFrom_group val' a b c data
    obtain ⟨h₁, h₂, h₃⟩ := group_octets (i := a.toNat / 4) (j := a.toNat % 4 * 16 + b.toNat / 16)
      (k := b.toNat % 16 * 4 + c.toNat / 64) (l := c.toNat % 64) (by omega) (by omega) (by omega) (by omega)
      (shiftIn_toNat val 6 _) (shiftIn_toNat _ 6 _) (shiftIn_toNat _ 6 _) (shiftIn_toNat _ 6 _)
    rw [heq, List.cons_append, List.cons_append, List.cons_append, List.cons_append, decodeFrom_first _ (by omega),
      decodeFrom_second _ (by omega), decodeFrom_third _ (by omega), decodeFrom_fourth _ (by omega), h₁, h₂, h₃,
      decodeFrom_encodeFrom _ val'' k data, toUInt8_eq (show _ = a.toNat by omega), toUInt8_eq (show _ = b.toNat by omega),
      toUInt8_eq (show _ = c.toNat by omega)]

/-- `base64Decode` gives back what `base64Encode` was given. -/
theorem base64Decode_base64Encode (data : Str) : base64Decode (base64Encode data) = data :=
  decodeFrom_encodeFrom 0 0 _ data

/-- Only nothing is encoded as nothing. -/
theorem base64Encode_eq_nil {data : Str} (h : base64Encode data = []) : data = [] := by
  rw [← base64Decode_base64Encode data, h]
  rfl

end RaftStore
