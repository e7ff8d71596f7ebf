import Shrike.Data.Bytes
import Mathlib.Data.Prod.Lex

/-!
# Content identifiers

A CIDv1 with a SHA-256 digest: the codec of the content and the digest. The digest of a
byte string, and the height of an MST key, are given by `Hashing`.
-/

namespace Shrike

/-- A SHA-256 digest: 32 bytes. -/
abbrev Digest := { bs : Bytes // bs.length = 32 }

/-- The SHA-256 digest of a byte string, and the height of an MST key. The source derives
the height from the digest of the key; here it is any height a digest can give. -/
class Hashing where
  /-- The digest of a byte string. -/
  sha256 : Bytes → Digest
  /-- The height of an MST key. -/
  heightForKey : Bytes → ℕ
  heightForKey_le : ∀ key, heightForKey key ≤ 128

export Hashing (sha256 heightForKey heightForKey_le)

/-- A digest of one repeated byte. -/
def Digest.fill (x : UInt8) : Digest := ⟨List.replicate 32 x, List.length_replicate⟩

/-- A checksum in the place of SHA-256, and heights read off the last byte of a key when it
is a digit: for evaluating the model on concrete inputs. -/
@[reducible]
def Hashing.checksum : Hashing where
  sha256 data := ⟨Bytes.be 32 (data.foldl (fun acc b => (acc * 257 + b.toNat + 1) % 2 ^ 256) 0),
    Bytes.length_be _ _⟩
  heightForKey key := ((key.getLast?.map UInt8.toNat).getD 0 - 48) % 10
  heightForKey_le _ := by omega

/-- The multicodec of a CID: structured data or plain bytes. -/
inductive Codec where
  | drisl
  | raw
  deriving DecidableEq

/-- The code of a codec. Codecs are ordered by it. -/
def Codec.code : Codec → UInt8
  | .drisl => 0x71
  | .raw => 0x55

theorem Codec.code_injective : Function.Injective Codec.code := by
  intro a b h
  cases a <;> cases b <;> first | rfl | (exact absurd h (by decide))

/-- A CIDv1 whose hash is SHA-256. -/
structure Cid where
  codec : Codec
  hash : Digest
  deriving DecidableEq

namespace Cid

/-- CIDs are ordered by codec, then by digest. -/
instance : LinearOrder Cid :=
  LinearOrder.lift' (fun c => toLex (c.codec.code, c.hash.val)) (by
    intro a b h
    obtain ⟨ca, ha⟩ := a
    obtain ⟨cb, hb⟩ := b
    obtain ⟨hcode, hhash⟩ := Prod.mk.inj (toLex.injective h)
    obtain rfl := Codec.code_injective hcode
    obtain rfl := Subtype.ext hhash
    rfl)

/-- The CID of a byte string. -/
def compute [Hashing] (codec : Codec) (data : Bytes) : Cid where
  codec := codec
  hash := sha256 data

/-- The binary form: version, codec, hash type, hash size, hash. -/
def toBytes (c : Cid) : Bytes :=
  0x01 :: c.codec.code :: 0x12 :: 0x20 :: c.hash.val

/-- The ways a byte string can fail to be a CID. -/
inductive Invalid where
  | wrongLength
  | version
  | codec
  | hash
  | missingPrefix
  deriving DecidableEq

/-- The CID a byte string spells. -/
def fromBytes (bs : Bytes) : Except Invalid Cid :=
  if bs.length ≠ 36 then .error .wrongLength
  else match bs with
    | version :: codec :: hashType :: hashSize :: hash =>
        if version ≠ 0x01 then .error .version
        else if codec ≠ 0x71 ∧ codec ≠ 0x55 then .error .codec
        else if hashType ≠ 0x12 ∨ hashSize ≠ 0x20 then .error .hash
        else if h : hash.length = 32 then
          .ok ⟨if codec = 0x71 then .drisl else .raw, ⟨hash, h⟩⟩
        else .error .wrongLength
    | _ => .error .wrongLength

/-- The body of a CBOR tag 42: a zero byte and the binary form. -/
def toTag42Bytes (c : Cid) : Bytes := 0x00 :: c.toBytes

/-- The CID a tag 42 body spells. -/
def fromTag42Bytes : Bytes → Except Invalid Cid
  | 0x00 :: bs => fromBytes bs
  | _ => .error .missingPrefix

@[simp]
theorem length_toBytes (c : Cid) :
  c.toBytes.length = 36
  := by
  simp [toBytes, c.hash.property]

/-- The binary form of a CID reads back as the CID. -/
@[simp]
theorem fromBytes_toBytes (c : Cid) :
  fromBytes c.toBytes = .ok c
  := by
  obtain ⟨codec, hash, h⟩ := c
  cases codec <;> simp [fromBytes, toBytes, h, Codec.code]

@[simp]
theorem fromTag42Bytes_toTag42Bytes (c : Cid) :
  fromTag42Bytes c.toTag42Bytes = .ok c
  := fromBytes_toBytes c

end Cid

end Shrike
