import RaftStore.Lemmas.Base64
import RaftStore.Systems.Numerals

/-!
# What Base64 makes of bytes, and what its accumulators hold

With arithmetic that wraps the encoder writes the standard padded text and the decoder reads it back. No bits are ever taken out of the
accumulators again: read as exact integers they hold everything that has been shifted in, and an `int` has no room for that from the
fourth byte or the sixth character on.
-/

namespace RaftStore

open Systems

/-! ## The standard text -/

/-- The digits of the standard alphabet: capital letters, small letters, decimal digits, `+` and `/`. -/
def standardDigit (i : ℕ) : UInt8 :=
  if i < 26 then (65 + i).toUInt8
  else if i < 52 then (97 + (i - 26)).toUInt8
  else if i < 62 then (48 + (i - 52)).toUInt8
  else if i = 62 then 43
  else 47

/-- The digits of a group of 24 bits, the highest first. -/
def standardGroup (n : ℕ) : Str :=
  [standardDigit (n / 2 ^ 18 % 64), standardDigit (n / 2 ^ 12 % 64), standardDigit (n / 2 ^ 6 % 64), standardDigit (n % 64)]

/-- The padded Base64 text of bytes: a group for each three bytes, and for the bytes left over the digits that have bits of them,
filled up with `=`. -/
def standardBase64 : Str → Str
  | [] => []
  | [a] => (standardGroup (a.toNat * 2 ^ 16)).take 2 ++ [61, 61]
  | [a, b] => (standardGroup (a.toNat * 2 ^ 16 + b.toNat * 2 ^ 8)).take 3 ++ [61]
  | a :: b :: c :: d => standardGroup (a.toNat * 2 ^ 16 + b.toNat * 2 ^ 8 + c.toNat) ++ standardBase64 d

theorem base64Char_standard {i : ℕ} (h : i < 64) : base64Char i = standardDigit i := by
  have hall : ∀ i : Fin 64, base64Char i = standardDigit i := by decide +kernel
  exact hall ⟨i, h⟩

/-- The digits of three bytes are those that the encoder writes. -/
theorem standardGroup_bytes {a b c : ℕ} (ha : a < 2 ^ 8) (hb : b < 2 ^ 8) (hc : c < 2 ^ 8) :
    standardGroup (a * 2 ^ 16 + b * 2 ^ 8 + c) =
      [base64Char (a / 4), base64Char (a % 4 * 16 + b / 16), base64Char (b % 16 * 4 + c / 64), base64Char (c % 64)] := by
  have h₁ : (a * 2 ^ 16 + b * 2 ^ 8 + c) / 2 ^ 18 % 64 = a / 4 := by omega
  have h₂ : (a * 2 ^ 16 + b * 2 ^ 8 + c) / 2 ^ 12 % 64 = a % 4 * 16 + b / 16 := by omega
  have h₃ : (a * 2 ^ 16 + b * 2 ^ 8 + c) / 2 ^ 6 % 64 = b % 16 * 4 + c / 64 := by omega
  have h₄ : (a * 2 ^ 16 + b * 2 ^ 8 + c) % 64 = c % 64 := by omega
  rw [standardGroup, h₁, h₂, h₃, h₄, base64Char_standard (by omega), base64Char_standard (by omega), base64Char_standard (by omega),
    base64Char_standard (by omega)]

/-- The padding that a number of characters needs. -/
def padding (n : ℕ) : Str := List.replicate ((4 - n % 4) % 4) 61

/-- Four characters more need no padding more. -/
theorem padding_add_four (n : ℕ) : padding (n + 4) = padding n := by
  rw [padding, Nat.add_mod_right, padding]

/-- From the start of a group on, whatever the accumulator holds, the encoder writes the standard text. -/
theorem encodeFrom_standard (val : BitVec 32) : ∀ data : Str,
    encodeFrom val (-6) data ++ padding (encodeFrom val (-6) data).length = standardBase64 data
  | [] => by
    rw [encodeFrom, if_neg (by decide), standardBase64, padding, List.length_nil, List.nil_append]
    rfl
  | [a] => by
    have hgroup := standardGroup_bytes a.toNat_lt (b := 0) (c := 0) (by decide) (by decide)
    rw [Nat.zero_mul, Nat.add_zero, Nat.add_zero] at hgroup
    rw [encodeFrom_one, standardBase64, hgroup]
    rfl
  | [a, b] => by
    have hgroup := standardGroup_bytes a.toNat_lt b.toNat_lt (c := 0) (by decide)
    rw [Nat.add_zero] at hgroup
    rw [encodeFrom_two, standardBase64, hgroup]
    rfl
  | a :: b :: c :: data => by
    obtain ⟨val', hcode⟩ := encodeFrom_group val a b c data
    have ih := encodeFrom_standard val' data
    rw [hcode, standardBase64, standardGroup_bytes a.toNat_lt b.toNat_lt c.toNat_lt, ← ih]
    simp only [List.length_cons, padding_add_four, List.cons_append, List.nil_append]

/-- Bytes become four characters for each three of them that are there or begun, -/
theorem standardBase64_length : ∀ data : Str, (standardBase64 data).length = 4 * ((data.length + 2) / 3)
  | [] => rfl
  | [_] => by simp [standardBase64, standardGroup]
  | [_, _] => by simp [standardBase64, standardGroup]
  | a :: b :: c :: data => by
    rw [standardBase64, List.length_append, standardBase64_length data, standardGroup]
    simp only [List.length_cons, List.length_nil]
    omega

theorem standardDigit_mem {i : ℕ} (h : i < 64) : standardDigit i ∈ base64Chars ∧ standardDigit i ≠ 61 := by
  have hall : ∀ i : Fin 64, standardDigit i ∈ base64Chars ∧ standardDigit i ≠ 61 := by decide +kernel
  exact hall ⟨i, h⟩

theorem standardGroup_mem {n : ℕ} {c : UInt8} (h : c ∈ standardGroup n) : c ∈ base64Chars ∧ c ≠ 61 := by
  simp only [standardGroup, List.mem_cons, List.not_mem_nil, or_false] at h
  rcases h with rfl | rfl | rfl | rfl <;> exact standardDigit_mem (Nat.mod_lt _ (by decide))

/-- of which only the last are padding. -/
theorem standardBase64_padded : ∀ data : Str, ∃ chars, standardBase64 data = chars ++ List.replicate ((3 - data.length % 3) % 3) 61 ∧
    ∀ c ∈ chars, c ∈ base64Chars ∧ c ≠ 61
  | [] => ⟨[], rfl, fun _ h => absurd h List.not_mem_nil⟩
  | [_] => ⟨_, rfl, fun _ h => standardGroup_mem (List.mem_of_mem_take h)⟩
  | [_, _] => ⟨_, rfl, fun _ h => standardGroup_mem (List.mem_of_mem_take h)⟩
  | a :: b :: c :: data => by
    obtain ⟨chars, heq, hchars⟩ := standardBase64_padded data
    refine ⟨standardGroup (a.toNat * 2 ^ 16 + b.toNat * 2 ^ 8 + c.toNat) ++ chars, ?_, fun x hx => ?_⟩
    · rw [standardBase64, heq, List.append_assoc, show (a :: b :: c :: data).length = data.length + 3 from rfl,
        Nat.add_mod_right]
    · rcases List.mem_append.mp hx with h | h
      · exact standardGroup_mem h
      · exact hchars x h

/-- `base64Encode` writes the standard padded text, and `base64Decode` reads the bytes back from it. -/
theorem base64Encode_standard (data : Str) :
    base64Encode data = standardBase64 data ∧
    (base64Encode data).length = 4 * ((data.length + 2) / 3) ∧
    (∃ chars, base64Encode data = chars ++ List.replicate ((3 - data.length % 3) % 3) 61 ∧ ∀ c ∈ chars, c ∈ base64Chars ∧ c ≠ 61) ∧
    base64Decode (base64Encode data) = data := by
  have heq : base64Encode data = standardBase64 data := encodeFrom_standard 0 data
  refine ⟨heq, ?_, ?_, base64Decode_base64Encode data⟩
  · rw [heq]
    exact standardBase64_length data
  · rw [heq]
    exact standardBase64_padded data

example : standardBase64 (ascii "Raft") = ascii "UmFmdA==" := by decide +kernel

/-! ## The accumulators as exact integers -/

/-- A left shift of an accumulator: what is shifted, and the exact integer that is kept, with what is added to it. -/
structure Shifted where
  val : ℤ
  sum : ℤ
  deriving DecidableEq

/-- What is shifted is not negative, and what is kept is an `int`. -/
def Shifted.Fits (x : Shifted) : Prop := 0 ≤ x.val ∧ -2 ^ 31 ≤ x.sum ∧ x.sum < 2 ^ 31

instance Shifted.decidableFits (x : Shifted) : Decidable x.Fits :=
  inferInstanceAs (Decidable (0 ≤ x.val ∧ -2 ^ 31 ≤ x.sum ∧ x.sum < 2 ^ 31))

/-- The left shifts of `base64Encode`, from the accumulators `val` and `valb`. -/
def encodeShifts (val valb : ℤ) : Str → List Shifted
  | [] => if -6 < valb then [⟨val, val * 2 ^ 8⟩] else []
  | c :: cs =>
    let sum := val * 2 ^ 8 + c.toNat
    ⟨val, sum⟩ :: encodeShifts sum (encodeBits (BitVec.ofInt 32 sum) 3 (valb + 8)).2 cs

/-- The left shifts of `base64Decode`, from the accumulator `val`. -/
def decodeShifts (val : ℤ) : Str → List Shifted
  | [] => []
  | c :: s =>
    match base64Chars.idxOf? c with
    | none => []
    | some i => ⟨val, val * 2 ^ 6 + i⟩ :: decodeShifts (val * 2 ^ 6 + i) s

/-- The accumulators of the loops are these integers modulo `2 ^ 32`, -/
theorem shiftIn_ofInt (val : ℤ) (k c : ℕ) :
    (BitVec.ofInt 32 val <<< k) + BitVec.ofNat 32 c = BitVec.ofInt 32 (val * 2 ^ k + c) := by
  have hpow : BitVec.ofInt 32 (2 ^ k) = BitVec.twoPow 32 k := by
    apply BitVec.eq_of_toNat_eq
    have hcast : (2 ^ k : ℤ) = ((2 ^ k : ℕ) : ℤ) := by push_cast; rfl
    rw [BitVec.toNat_twoPow, hcast, BitVec.ofInt_natCast, BitVec.toNat_ofNat]
  rw [BitVec.ofInt_add, BitVec.ofInt_natCast, BitVec.ofInt_mul, hpow, BitVec.mul_twoPow_eq_shiftLeft]

theorem encodeFrom_exact (val valb : ℤ) (c : UInt8) (cs : Str) : encodeFrom (BitVec.ofInt 32 val) valb (c :: cs) =
    (encodeBits (BitVec.ofInt 32 (val * 2 ^ 8 + c.toNat)) 3 (valb + 8)).1 ++
      encodeFrom (BitVec.ofInt 32 (val * 2 ^ 8 + c.toNat)) (encodeBits (BitVec.ofInt 32 (val * 2 ^ 8 + c.toNat)) 3 (valb + 8)).2 cs := by
  rw [encodeFrom_cons, shiftIn_ofInt]

theorem decodeFrom_exact (val valb : ℤ) {i : ℕ} (h : i < 64) (s : Str) : decodeFrom (BitVec.ofInt 32 val) valb (base64Char i :: s) =
    if 0 ≤ valb + 6 then
      (((BitVec.ofInt 32 (val * 2 ^ 6 + i)).sshiftRight (valb + 6).toNat &&& 0xFF).toNat.toUInt8 ::
        decodeFrom (BitVec.ofInt 32 (val * 2 ^ 6 + i)) (valb + 6 - 8) s)
    else decodeFrom (BitVec.ofInt 32 (val * 2 ^ 6 + i)) (valb + 6) s := by
  rw [decodeFrom_char _ _ h, shiftIn_ofInt]

/-- and themselves as long as they fit. -/
theorem Shifted.Fits.toInt {x : Shifted} (h : x.Fits) : (BitVec.ofInt 32 x.sum).toInt = x.sum :=
  BitVec.toInt_ofInt_eq_self (by decide) h.2.1 h.2.2

/-- A digit keeps what is shifted in natural. -/
theorem sum_cast (v k d : ℕ) : (v : ℤ) * 2 ^ k + (d : ℤ) = ((v * 2 ^ k + d : ℕ) : ℤ) := by
  push_cast
  ring

/-- A shift of a natural number fits exactly when what is kept is below `2 ^ 31`. -/
theorem fits_natCast (v n : ℕ) : Shifted.Fits ⟨v, n⟩ ↔ n < 2 ^ 31 := by
  simp only [Shifted.Fits]
  omega

/-! ### The encoder -/

/-- A byte after 0, 1 and 2 bytes of a group. -/
theorem encodeShifts_first (v : ℕ) (c : UInt8) (cs : Str) : encodeShifts v (-6) (c :: cs) =
    ⟨v, ((v * 2 ^ 8 + c.toNat : ℕ) : ℤ)⟩ :: encodeShifts ((v * 2 ^ 8 + c.toNat : ℕ) : ℤ) (-4) cs := by
  rw [encodeShifts, sum_cast, encodeBits_first]

theorem encodeShifts_second (v : ℕ) (c : UInt8) (cs : Str) : encodeShifts v (-4) (c :: cs) =
    ⟨v, ((v * 2 ^ 8 + c.toNat : ℕ) : ℤ)⟩ :: encodeShifts ((v * 2 ^ 8 + c.toNat : ℕ) : ℤ) (-2) cs := by
  rw [encodeShifts, sum_cast, encodeBits_second]

theorem encodeShifts_third (v : ℕ) (c : UInt8) (cs : Str) : encodeShifts v (-2) (c :: cs) =
    ⟨v, ((v * 2 ^ 8 + c.toNat : ℕ) : ℤ)⟩ :: encodeShifts ((v * 2 ^ 8 + c.toNat : ℕ) : ℤ) (-6) cs := by
  rw [encodeShifts, sum_cast, encodeBits_third]

/-- The end within a group: the number is shifted once more. -/
theorem encodeShifts_end (v : ℕ) {valb : ℤ} (h : -6 < valb) : encodeShifts v valb [] = [⟨v, ((v * 2 ^ 8 : ℕ) : ℤ)⟩] := by
  rw [encodeShifts, if_pos h, Nat.cast_mul, Nat.cast_pow, Nat.cast_ofNat]

/-- The number of the bytes, after what is held already. -/
def bytesFrom (v : ℕ) (data : Str) : ℕ := numeral (2 ^ 8) v (data.map UInt8.toNat)

theorem bytesFrom_nil (v : ℕ) : bytesFrom v [] = v := rfl

theorem bytesFrom_cons (v : ℕ) (c : UInt8) (cs : Str) : bytesFrom v (c :: cs) = bytesFrom (v * 2 ^ 8 + c.toNat) cs := rfl

theorem le_bytesFrom (v : ℕ) (data : Str) : v ≤ bytesFrom v data := le_numeral (by decide) v _

/-- The shifts of the encoder fit exactly when the number of all bytes does, and also once more shifted where bytes are left over. -/
theorem encodeShifts_fits : ∀ (data : Str) (v : ℕ), v < 2 ^ 31 → ((∀ x ∈ encodeShifts v (-6) data, x.Fits) ↔
    bytesFrom v data < 2 ^ 31 ∧ (data.length % 3 ≠ 0 → bytesFrom v data < 2 ^ 23))
  | [], v, hv => by
    refine ⟨fun _ => ⟨hv, fun h => absurd rfl h⟩, fun _ x hx => ?_⟩
    exact absurd hx List.not_mem_nil
  | [a], v, hv => by
    have hlen : [a].length % 3 ≠ 0 := Nat.one_ne_zero
    rw [encodeShifts_first, encodeShifts_end _ (by decide), List.forall_mem_cons, List.forall_mem_singleton, fits_natCast,
      fits_natCast, bytesFrom_cons, bytesFrom_nil, imp_iff_right hlen]
    omega
  | [a, b], v, hv => by
    have hlen : [a, b].length % 3 ≠ 0 := Nat.succ_ne_zero 1
    rw [encodeShifts_first, encodeShifts_second, encodeShifts_end _ (by decide), List.forall_mem_cons, List.forall_mem_cons,
      List.forall_mem_singleton, fits_natCast, fits_natCast, fits_natCast, bytesFrom_cons, bytesFrom_cons, bytesFrom_nil,
      imp_iff_right hlen]
    omega
  | a :: b :: c :: data, v, hv => by
    have hlen : (a :: b :: c :: data).length % 3 = data.length % 3 := Nat.add_mod_right data.length 3
    rw [encodeShifts_first, encodeShifts_second, encodeShifts_third, List.forall_mem_cons, List.forall_mem_cons, List.forall_mem_cons,
      fits_natCast, fits_natCast, fits_natCast, bytesFrom_cons, bytesFrom_cons, bytesFrom_cons, hlen]
    have hle := le_bytesFrom (((v * 2 ^ 8 + a.toNat) * 2 ^ 8 + b.toNat) * 2 ^ 8 + c.toNat) data
    constructor
    · rintro ⟨_, _, hc, hrest⟩
      exact (encodeShifts_fits data _ hc).mp hrest
    · intro hlt
      have hc := lt_of_le_of_lt hle hlt.1
      have hb := lt_of_le_of_lt (le_bytesFrom _ [c]) hc
      have ha := lt_of_le_of_lt (le_bytesFrom _ [b]) hb
      exact ⟨ha, hb, hc, (encodeShifts_fits data _ hc).mpr hlt⟩

/-- The bytes behind the leading zeros, as digits. -/
theorem bytesFrom_lt_iff (n : ℕ) (data : Str) :
    bytesFrom 0 data < 128 * (2 ^ 8) ^ n ↔ Leading (· < 128) n (data.dropWhile (· = 0)) := by
  have hdigits : ∀ d ∈ data.map UInt8.toNat, d < 2 ^ 8 := by
    intro d hd
    obtain ⟨c, _, rfl⟩ := List.mem_map.mp hd
    exact c.toNat_lt
  rw [bytesFrom, numeral_lt_iff n (by decide) (by decide) (by decide) hdigits, List.dropWhile_map]
  have hzero : ((fun d : ℕ => decide (d = 0)) ∘ UInt8.toNat) = fun c : UInt8 => decide (c = 0) := by
    funext c
    exact decide_eq_decide.mpr (UInt8.toNat_inj (b := 0))
  rw [hzero]
  exact leading_map fun c _ => (UInt8.lt_iff_toNat_lt (b := 128)).symm

/-! ### The decoder -/

/-- The number that the decoder's table has for a character, or one past them all. -/
def sextetOf (c : UInt8) : ℕ := (base64Chars.idxOf? c).getD 64

/-- The table has a number below 64 for each character of the alphabet, and no number for another. -/
theorem sextetOf_spec {c : UInt8} (h : c ∈ base64Chars) :
    base64Chars.idxOf? c = some (sextetOf c) ∧ sextetOf c < 64 ∧ c = base64Char (sextetOf c) := by
  obtain ⟨i, hidx⟩ := Option.isSome_iff_exists.mp (List.isSome_idxOf?.mpr h)
  obtain ⟨hi, hchar, _⟩ := List.idxOf?_eq_some_iff.mp hidx
  have hval : sextetOf c = i := by rw [sextetOf, hidx, Option.getD_some]
  rw [hval, base64Char, List.getD_eq_getElem?_getD, List.getElem?_eq_getElem hi, Option.getD_some, hchar]
  exact ⟨hidx, hi, rfl⟩

/-- The characters that the decoder takes in: those before the first that is not of the alphabet. -/
def taken (s : Str) : Str := s.takeWhile (· ∈ base64Chars)

theorem mem_taken {s : Str} {c : UInt8} (h : c ∈ taken s) : c ∈ base64Chars := by
  simpa using List.mem_takeWhile_imp h

/-- The shifts of the decoder fit exactly when the number of all characters does. -/
theorem decodeShifts_fits (s : Str) : ∀ v : ℕ, v < 2 ^ 31 →
    ((∀ x ∈ decodeShifts v s, x.Fits) ↔ numeral (2 ^ 6) v ((taken s).map sextetOf) < 2 ^ 31) := by
  induction s with
  | nil =>
    intro v hv
    exact ⟨fun _ => hv, fun _ x hx => absurd hx List.not_mem_nil⟩
  | cons c s ih =>
    intro v hv
    by_cases hc : c ∈ base64Chars
    · have hshift : decodeShifts v (c :: s) = ⟨v, ((v * 2 ^ 6 + sextetOf c : ℕ) : ℤ)⟩ ::
          decodeShifts ((v * 2 ^ 6 + sextetOf c : ℕ) : ℤ) s := by
        rw [decodeShifts, (sextetOf_spec hc).1, ← sum_cast]
      have htaken : taken (c :: s) = c :: taken s := List.takeWhile_cons_of_pos (by simpa using hc)
      rw [hshift, htaken, List.forall_mem_cons, fits_natCast, List.map_cons, numeral_cons]
      have hle := le_numeral (b := 2 ^ 6) (by decide) (v * 2 ^ 6 + sextetOf c) ((taken s).map sextetOf)
      constructor
      · rintro ⟨hfits, hrest⟩
        exact (ih _ hfits).mp hrest
      · intro hlt
        have hfits := lt_of_le_of_lt hle hlt
        exact ⟨hfits, (ih _ hfits).mpr hlt⟩
    · have hnone : decodeShifts v (c :: s) = [] := by rw [decodeShifts, List.idxOf?_eq_none_iff.mpr hc]
      have hstop : taken (c :: s) = [] := List.takeWhile_cons_of_neg (by simpa using hc)
      rw [hnone, hstop, List.map_nil, numeral_nil]
      exact ⟨fun _ => hv, fun _ x hx => absurd hx List.not_mem_nil⟩

/-- The first characters of the alphabet. -/
theorem sextetOf_lt_two {c : UInt8} (h : c ∈ base64Chars) : sextetOf c < 2 ↔ c = 65 ∨ c = 66 := by
  have hall : ∀ c ∈ base64Chars, sextetOf c < 2 ↔ c = 65 ∨ c = 66 := by decide +kernel
  exact hall c h

theorem sextetOf_eq_zero (c : UInt8) : sextetOf c = 0 ↔ c = 65 := by
  constructor
  · intro h
    by_cases hc : c ∈ base64Chars
    · rw [(sextetOf_spec hc).2.2, h]
      rfl
    · rw [sextetOf, List.idxOf?_eq_none_iff.mpr hc] at h
      exact absurd h (by decide)
  · rintro rfl
    decide +kernel

/-- The characters behind the leading `A`s, as digits. -/
theorem sextets_lt_iff (n : ℕ) {s : Str} (h : ∀ c ∈ s, c ∈ base64Chars) :
    numeral (2 ^ 6) 0 (s.map sextetOf) < 2 * (2 ^ 6) ^ n ↔ Leading (· = 66) n (s.dropWhile (· = 65)) := by
  have hdigits : ∀ d ∈ s.map sextetOf, d < 2 ^ 6 := by
    intro d hd
    obtain ⟨c, hc, rfl⟩ := List.mem_map.mp hd
    exact (sextetOf_spec (h c hc)).2.1
  have hdrop : s.dropWhile ((fun d : ℕ => decide (d = 0)) ∘ sextetOf) = s.dropWhile fun c => decide (c = 65) := by
    congr 1
    funext c
    exact decide_eq_decide.mpr (sextetOf_eq_zero c)
  rw [numeral_lt_iff n (by decide) (by decide) (by decide) hdigits, List.dropWhile_map, hdrop]
  refine leading_map fun c hc => ?_
  have hmem : c ∈ base64Chars := h c ((List.dropWhile_sublist _).mem (List.mem_of_mem_head? hc))
  have hnot := List.head?_dropWhile_not (p := fun c : UInt8 => decide (c = 65)) s
  rw [hc] at hnot
  have hne : c ≠ 65 := by simpa using hnot
  rw [sextetOf_lt_two hmem, or_iff_right hne]

/-! ### Both -/

/-- No shift of `base64Encode` leaves the range of an `int` exactly when the bytes behind the leading zero bytes are at most three, or
four of which the first is below 128, and one less where the bytes are not whole groups of three. No shift of `base64Decode` does exactly
when the characters behind the leading `A`s, before the first that is not of the alphabet, are at most five, or six of which the first
is `B`. -/
theorem shifts_fit (data s : Str) :
    ((∀ x ∈ encodeShifts 0 (-6) data, x.Fits) ↔ Leading (· < 128) 3 (data.dropWhile (· = 0)) ∧
      (data.length % 3 ≠ 0 → Leading (· < 128) 2 (data.dropWhile (· = 0)))) ∧
    ((∀ x ∈ decodeShifts 0 s, x.Fits) ↔ Leading (· = 66) 5 ((taken s).dropWhile (· = 65))) := by
  constructor
  · rw [← bytesFrom_lt_iff, ← bytesFrom_lt_iff]
    exact encodeShifts_fits data 0 (by decide)
  · rw [← sextets_lt_iff 5 fun c hc => mem_taken hc]
    exact decodeShifts_fits s 0 (by decide)

/-- Four bytes of which the first has its highest bit set, and six characters that begin with `C`. -/
theorem shifts_overflow : ¬(∀ x ∈ encodeShifts 0 (-6) [128, 0, 0, 0], x.Fits) ∧
    ¬(∀ x ∈ decodeShifts 0 [67, 65, 65, 65, 65, 65], x.Fits) := by
  decide +kernel

end RaftStore
