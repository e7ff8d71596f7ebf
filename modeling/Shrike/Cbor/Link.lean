import Shrike.Cbor.Cid
import Shrike.Data.Text
import Mathlib.Data.Nat.Digits.Defs

/-!
# CID strings and base64

The text forms of CIDs and byte strings: how the string of a `$link` is parsed, in each of its
bases, and how the base64 of a `$bytes` is decoded. The encodings of the `data-encoding` crate
are given by `DataEncoding`.
-/

namespace Shrike.Cbor

open Bytes

/-- The encodings that come from outside: base64 without padding and base32. The decoder of
base64 is strict: it accepts nothing but the encoding of what it returns. -/
class DataEncoding where
  /-- The base64 of a byte string, without padding. -/
  base64 : Bytes → Bytes
  /-- The byte string that a text is the base64 of, without padding. -/
  base64Decode : Bytes → Option Bytes
  /-- The base32 of a byte string, in upper case, without padding. -/
  base32 : Bytes → Bytes
  base64_of_decode : ∀ {text data : Bytes}, base64Decode text = some data → base64 data = text
  length_le_base64 : ∀ data : Bytes, data.length ≤ (base64 data).length

/-! ### Base64 -/

/-- The base64 alphabet. -/
def base64Alphabet : Bytes :=
  ascii "ABCDEFGHIJKLMNOPQRSTUVWXYZabcdefghijklmnopqrstuvwxyz0123456789+/"

/-- The text of a byte string in an alphabet, `k` bits for each character. Bits that are missing
at the end are zero. -/
def encodeBits (k : ℕ) (alphabet data : Bytes) : Bytes :=
  let chars := (data.length * 8 + k - 1) / k
  let bits := ofBe data * 2 ^ (chars * k - data.length * 8)
  (List.range chars).map fun i => alphabet.getD (bits / 2 ^ ((chars - 1 - i) * k) % 2 ^ k) 0

/-- Every character of the text is in the alphabet. -/
theorem mem_encodeBits {k : ℕ} {alphabet data : Bytes} (h : alphabet.length = 2 ^ k) :
  ∀ b ∈ encodeBits k alphabet data, b ∈ alphabet
  := by
  intro b hb
  obtain ⟨i, -, rfl⟩ := List.mem_map.mp hb
  have hlt : ∀ n, n % 2 ^ k < alphabet.length := by
    intro n
    rw [h]
    exact Nat.mod_lt n (Nat.two_pow_pos k)
  rw [List.getD_eq_getElem?_getD, List.getElem?_eq_getElem (hlt _)]
  exact List.getElem_mem _

/-- The byte string of a text in an alphabet, `k` bits for each character. Bits that are left
over at the end are dropped. -/
def decodeBits (k : ℕ) (alphabet text : Bytes) : Option Bytes := do
  let digits ← text.mapM fun c => alphabet.idxOf? c
  let bits := digits.foldl (fun bits digit => bits * 2 ^ k + digit) 0
  let len := text.length * k / 8
  some (be len (bits / 2 ^ (text.length * k - len * 8)))

theorem length_encodeBits {k : ℕ} (hk : 0 < k) (hle : k ≤ 8) (alphabet data : Bytes) :
  data.length ≤ (encodeBits k alphabet data).length
  := by
  rw [encodeBits, List.length_map, List.length_range, Nat.le_div_iff_mul_le hk]
  have hmul := Nat.mul_le_mul_left data.length hle
  omega

/-- Base64 and base32 of the standard alphabets. -/
@[reducible]
def DataEncoding.standard : DataEncoding where
  base64 := encodeBits 6 base64Alphabet
  base64Decode text := do
    let data ← decodeBits 6 base64Alphabet text
    if encodeBits 6 base64Alphabet data = text then some data else none
  base32 := encodeBits 5 (ascii "ABCDEFGHIJKLMNOPQRSTUVWXYZ234567")
  base64_of_decode h := by
    obtain ⟨data, -, h⟩ := Option.bind_eq_some_iff.mp h
    split at h
    · cases h
      assumption
    · cases h
  length_le_base64 := length_encodeBits (by decide) (by decide) _

/-- The text before a suffix. -/
def stripSuffix (suffix bs : Bytes) : Option Bytes :=
  if suffix.isSuffixOf bs then some (bs.take (bs.length - suffix.length)) else none

/-- The bits of the last character that belong to no byte, for a text of the given length. -/
def trailingMask (length : ℕ) : Option ℕ :=
  match length % 4 with
  | 0 => some 0
  | 2 => some 0b1111
  | 3 => some 0b11
  | _ => none

/-- The text without padding, and with the bits of its last character that belong to no byte
cleared, if its length can be that of base64. -/
def base64Body (s : Bytes) : Option Bytes :=
  let body := ((stripSuffix (ascii "==") s).or (stripSuffix (ascii "=") s)).getD s
  if s.length > (body.length + 3) / 4 * 4 then none
  else do
    let mask ← trailingMask body.length
    match body.getLast? with
    | none => some body
    | some last =>
        let index ← base64Alphabet.idxOf? last
        let cleared ← base64Alphabet[index &&& (63 ^^^ mask)]?
        some (body.dropLast ++ [cleared])

/-- Decode base64 with padding, without, or with part of it. -/
def decodeBase64 [DataEncoding] (s : Bytes) : Option Bytes := do
  let body ← base64Body s
  DataEncoding.base64Decode body

/-! ### Binary CIDs -/

/-- The varint at the start of the bytes, after bytes that spell `value` and take up `shift`
bits, and the bytes after it. -/
def decodeVarintFrom (value shift : ℕ) : Bytes → Option (ℕ × Bytes)
  | [] => none
  | byte :: bs =>
      let low := byte.toNat % 128
      if shift ≥ 63 ∧ low > 1 then none
      else
        let value := value ||| low <<< shift
        if byte.toNat < 128 then some (value, bs)
        else if shift + 7 > 63 then none
        else decodeVarintFrom value (shift + 7) bs

/-- The varint at the start of the bytes, and the bytes after it. -/
def decodeVarint (bs : Bytes) : Option (ℕ × Bytes) := decodeVarintFrom 0 0 bs

/-- A well-formed binary CID of any version, codec and hash. -/
structure CidParts where
  version : ℕ
  codec : ℕ
  hash : ℕ
  digest : Bytes

/-- Parse a binary CID. A bare SHA-256 multihash is a CID of version 0, if that is allowed. -/
def CidParts.parse (bs : Bytes) (v0Allowed : Bool) : Option CidParts := do
  let (first, rest) ← decodeVarint bs
  let (version, codec, multihash) ←
    if first = 0x12 ∧ v0Allowed then some (0, 0x70, bs)
    else if first = 1 then do
      let (codec, rest) ← decodeVarint rest
      some (1, codec, rest)
    else none
  let (hash, rest) ← decodeVarint multihash
  let (len, digest) ← decodeVarint rest
  if digest.length = len then some { version, codec, hash, digest } else none

/-! ### Bases -/

/-- The alphabet of base58. -/
def base58btc : Bytes := ascii "123456789ABCDEFGHJKLMNPQRSTUVWXYZabcdefghijkmnopqrstuvwxyz"

/-- The alphabet of base36. -/
def base36 : Bytes := ascii "0123456789abcdefghijklmnopqrstuvwxyz"

/-- The alphabet of base32, in lower case. -/
def base32Lower : Bytes := ascii "abcdefghijklmnopqrstuvwxyz234567"

/-- A number in bytes, the lowest first, times a base and plus a digit. -/
def mulAdd (base : ℕ) : ℕ → Bytes → Bytes
  | carry, [] => (Nat.digits 256 carry).map UInt8.ofNat
  | carry, byte :: num =>
      UInt8.ofNat (carry + byte.toNat * base) :: mulAdd base ((carry + byte.toNat * base) / 256) num

/-- Decode a text in the base of an alphabet: each zero digit at the start is a zero byte, and
the rest is a number, the highest digit first. -/
def baseX (alphabet : Bytes) (s : Bytes) : Option Bytes := do
  let zeros := (s.takeWhile fun c => alphabet.head? = some c).length
  let num ← s.foldlM (fun num c => do
    let digit ← alphabet.idxOf? c
    some (mulAdd alphabet.length digit num)) []
  some (List.replicate zeros 0 ++ num.reverse)

/-- Decode base32 in lower case. Padding is ignored, and the bits of the last character that
belong to no byte must be zero. -/
def decodeBase32 (s : Bytes) : Option Bytes :=
  let s := s.rdropWhile (· == char '=')
  if s.length % 8 ∈ [1, 3, 6] then none
  else do
    let digits ← s.mapM fun c => base32Lower.idxOf? c
    let bits := digits.foldl (fun bits digit => bits * 32 + digit) 0
    let len := s.length * 5 / 8
    let spare := s.length * 5 - len * 8
    if bits % 2 ^ spare ≠ 0 then none else some (be len (bits / 2 ^ spare))

/-- The longest string parsed as a CID. -/
def maxLinkLen : ℕ := 2048

/-- A well-formed CID that is not one of version 1 with a SHA-256 digest and a codec in use. -/
structure UnsupportedCid where
  version : ℕ
  codec : ℕ
  hash : ℕ
  length : ℕ
  deriving DecidableEq

/-- The CID that a string spells, if it spells one. It is an error if the CID is not
supported. -/
def parseLink (s : Bytes) : Except UnsupportedCid (Option Cid) :=
  if s.length > maxLinkLen then .ok none
  else
    let bytes := match s with
      | 81 :: _ => baseX base58btc s
      | 122 :: rest => baseX base58btc rest
      | 107 :: rest => baseX base36 rest
      | 98 :: rest => decodeBase32 rest
      | _ => none
    match bytes.bind fun bs => CidParts.parse bs (s.head? = some 81) with
    | none => .ok none
    | some { version, codec, hash, digest } =>
        if h : version = 1 ∧ (codec = 0x71 ∨ codec = 0x55) ∧ hash = 0x12 ∧ digest.length = 32 then
          .ok (some ⟨if codec = 0x71 then .drisl else .raw, digest, h.2.2.2⟩)
        else .error { version, codec, hash, length := digest.length }

/-- The text form of a CID: `b` and the base32 of the binary form, in lower case. -/
def cidToString [DataEncoding] (c : Cid) : Bytes :=
  char 'b' :: (DataEncoding.base32 c.toBytes).map toAsciiLowercase

end Shrike.Cbor
