import Mathlib.Data.List.TakeWhile
import Mathlib.Data.BitVec

/-!
# Text and bytes

A `std::string` is a list of bytes. What the sources do with the text of commands: token extraction and `std::getline` on an
`std::istringstream`, `std::to_string`, the little-endian images of integers, the check of UTF-8 that a JSON dump makes, and
the Base64 of `decode_encodebase64.cpp`.
-/

namespace RaftStore

/-- A `std::string`: its bytes. -/
abbrev Str := List UInt8

/-- The bytes of a string literal of the sources, all of whose characters are ASCII. -/
def ascii (s : String) : Str := s.toList.map (fun c => c.toNat.toUInt8)

/-- `std::isspace` in the C locale: the blanks that `operator>>` skips and stops at. -/
def isSpace (c : UInt8) : Bool := c == 32 || (9 ≤ c && c ≤ 13)

/-- `iss >> token`: blanks are skipped, and the bytes up to the next blank are taken. Returns the token and what is left. -/
def takeToken (s : Str) : Str × Str :=
  (s.dropWhile isSpace).span (fun c => !isSpace c)

/-- `std::getline(iss, line)`: the bytes up to the next newline. -/
def getline (s : Str) : Str := s.takeWhile (fun c => c != 10)

/-- The digits of a natural number in base ten, least significant first, after at most `fuel` divisions. -/
def digits : ℕ → ℕ → Str
  | 0, _ => []
  | fuel + 1, n => (48 + n % 10).toUInt8 :: if n < 10 then [] else digits fuel (n / 10)

/-- `std::to_string` of an `int`. -/
def toString : ℤ → Str
  | .ofNat n => (digits (n + 1) n).reverse
  | .negSucc n => 45 :: (digits (n + 2) (n + 1)).reverse

/-- The `n` low bytes of a number, least significant first: the image of an unsigned integer in memory. -/
def littleEndian : ℕ → ℕ → Str
  | 0, _ => []
  | n + 1, x => x.toUInt8 :: littleEndian n (x / 256)

/-- The number whose little-endian image the bytes are. -/
def ofLittleEndian : Str → ℕ
  | [] => 0
  | b :: bs => b.toNat + 256 * ofLittleEndian bs

/-- The image of an `int` in memory: four bytes, two's complement. -/
def intBytes (x : ℤ) : Str := littleEndian 4 (x % 2 ^ 32).toNat

/-- The `int` whose image in memory the bytes are. -/
def ofIntBytes (bs : Str) : ℤ :=
  let n := ofLittleEndian bs
  if n < 2 ^ 31 then n else n - 2 ^ 32

/-- A continuation byte of UTF-8. -/
def isContinuation (c : UInt8) : Bool := 0x80 ≤ c && c ≤ 0xBF

/-- The strings that `nlohmann::json::dump` accepts: valid UTF-8. -/
def isUtf8 : Str → Bool
  | [] => true
  | b :: s =>
    if b < 0x80 then isUtf8 s
    else if b < 0xC2 then false
    else if b < 0xE0 then
      match s with
      | c :: s => isContinuation c && isUtf8 s
      | [] => false
    else if b < 0xF0 then
      match s with
      | c :: d :: s =>
        isContinuation c && (b != 0xE0 || 0xA0 ≤ c) && (b != 0xED || c ≤ 0x9F) && isContinuation d && isUtf8 s
      | _ => false
    else if b < 0xF5 then
      match s with
      | c :: d :: e :: s =>
        isContinuation c && (b != 0xF0 || 0x90 ≤ c) && (b != 0xF4 || c ≤ 0x8F) && isContinuation d && isContinuation e &&
          isUtf8 s
      | _ => false
    else false

/-! ## Binary streams -/

/-- A `std::istringstream` or `std::ifstream` read in binary: the bytes left, and whether the stream is still good. -/
structure IStream where
  bytes : Str
  good : Bool
  deriving DecidableEq

/-- `is.read(p, n)`: the bytes stored at `p`, and the stream after it. A stream that has too few bytes stores what it has and
fails; a stream that has failed stores nothing. -/
def IStream.read (is : IStream) (n : ℕ) : Str × IStream :=
  if is.good then
    if n ≤ is.bytes.length then (is.bytes.take n, { bytes := is.bytes.drop n, good := true })
    else (is.bytes, { bytes := [], good := false })
  else ([], is)

/-- `is.read` into an `int` that holds `x`: the bytes stored overwrite the low bytes of its image. -/
def IStream.readInt (is : IStream) (x : ℤ) : ℤ × IStream :=
  let (bs, is) := is.read 4
  (ofIntBytes (bs ++ (intBytes x).drop bs.length), is)

/-! ## Base64 -/

/-- `base64_chars`. -/
def base64Chars : Str := ascii "ABCDEFGHIJKLMNOPQRSTUVWXYZabcdefghijklmnopqrstuvwxyz0123456789+/"

/-- `base64_chars[i]`. -/
def base64Char (i : ℕ) : UInt8 := base64Chars.getD i 0

/-- The inner `while` of `base64Encode`: one character for each six bits above `valb`. Returns the characters and `valb`. -/
def encodeBits (val : BitVec 32) : ℕ → ℤ → Str × ℤ
  | 0, valb => ([], valb)
  | fuel + 1, valb =>
    if 0 ≤ valb then
      let (cs, valb') := encodeBits val fuel (valb - 6)
      (base64Char ((val.sshiftRight valb.toNat) &&& 0x3F).toNat :: cs, valb')
    else ([], valb)

/-- The loop of `base64Encode` and what follows it, from the accumulators `val` and `valb`. -/
def encodeFrom (val : BitVec 32) (valb : ℤ) : Str → Str
  | [] =>
    if -6 < valb then [base64Char (((val <<< 8).sshiftRight (valb + 8).toNat) &&& 0x3F).toNat] else []
  | c :: cs =>
    let val := (val <<< 8) + BitVec.ofNat 32 c.toNat
    let (out, valb) := encodeBits val 3 (valb + 8)
    out ++ encodeFrom val valb cs

/-- `base64Encode`. -/
def base64Encode (data : Str) : Str :=
  let encoded := encodeFrom 0 (-6) data
  encoded ++ List.replicate ((4 - encoded.length % 4) % 4) 61

/-- The loop of `base64Decode`, from the accumulators `val` and `valb`. -/
def decodeFrom (val : BitVec 32) (valb : ℤ) : Str → Str
  | [] => []
  | c :: s =>
    match base64Chars.idxOf? c with
    | none => []
    | some i =>
      let val := (val <<< 6) + BitVec.ofNat 32 i
      if 0 ≤ valb + 6 then
        ((val.sshiftRight (valb + 6).toNat) &&& 0xFF).toNat.toUInt8 :: decodeFrom val (valb + 6 - 8) s
      else decodeFrom val (valb + 6) s

/-- `base64Decode`. -/
def base64Decode (s : Str) : Str := decodeFrom 0 (-8) s

end RaftStore
