import Shrike.Repo.Commit

/-!
# Signing keys of two curves

Keys of P-256 and secp256k1, their `did:key` identifiers, and the verification of signatures that
may be in their high-S form. The arithmetic of the curves and base58 are given by `Ecdsa`.
-/

namespace Shrike.ServiceAuth

open Cbor Repo Bytes

/-- The two curves. -/
inductive Curve where
  | p256
  | k256

/-- The multicodec of the keys of a curve. -/
def Curve.multicodecPrefix : Curve → Bytes
  | .p256 => [0x80, 0x24]
  | .k256 => [0xe7, 0x01]

/-- The JWS algorithm of the keys of a curve. -/
def Curve.jwtAlg : Curve → Bytes
  | .p256 => ascii "ES256"
  | .k256 => ascii "ES256K"

/-- What comes from outside: the points and the signatures of the curves, and base58. -/
class Ecdsa where
  Point : Curve → Type
  Sig : Curve → Type
  /-- The point that a SEC1 encoding is of. -/
  fromSec1Bytes : (curve : Curve) → Bytes → Option (Point curve)
  /-- The compressed encoding of a point. -/
  toCompressed : {curve : Curve} → Point curve → Bytes
  /-- The signature that 64 bytes are of. -/
  sigFromBytes : (curve : Curve) → Signature → Option (Sig curve)
  sigToBytes : {curve : Curve} → Sig curve → Signature
  /-- The low-S form of a signature in its high-S form. -/
  normalizeS : {curve : Curve} → Sig curve → Option (Sig curve)
  verifyPrehash : {curve : Curve} → Point curve → Digest → Sig curve → Bool
  base58Encode : Bytes → Bytes
  base58Decode : Bytes → Option Bytes

variable [Ecdsa]

/-- A signature in its low-S form. -/
def lowS {curve : Curve} (sig : Ecdsa.Sig curve) : Ecdsa.Sig curve :=
  (Ecdsa.normalizeS sig).getD sig

/-- A public key. -/
structure PublicKey where
  curve : Curve
  inner : Ecdsa.Point curve

namespace PublicKey

/-- The key that 33 bytes are of. The tag has to be that of a compressed point. -/
def fromBytes (curve : Curve) (bytes : Bytes) : Except CryptoError PublicKey :=
  if bytes.head? ≠ some 2 ∧ bytes.head? ≠ some 3 then .error .invalidKey
  else match Ecdsa.fromSec1Bytes curve bytes with
    | none => .error .invalidKey
    | some inner => .ok ⟨curve, inner⟩

/-- The JWS algorithm of a key. -/
def jwtAlg (key : PublicKey) : Bytes := key.curve.jwtAlg

/-- The multibase encoding of a key. -/
def multibase (key : PublicKey) : Bytes :=
  char 'z' :: Ecdsa.base58Encode (key.curve.multicodecPrefix ++ Ecdsa.toCompressed key.inner)

/-- The `did:key` identifier of a key. -/
def didKey (key : PublicKey) : Bytes := ascii "did:key:" ++ key.multibase

/-- Verify a signature, also in its high-S form. -/
def verifyMalleable [Hashing] (key : PublicKey) (content : Bytes) (sig : Signature) :
    Except CryptoError Unit :=
  match Ecdsa.sigFromBytes key.curve sig with
  | none => .error .invalidSignature
  | some sig =>
      if Ecdsa.verifyPrehash key.inner (sha256 content) (lowS sig) then .ok ()
      else .error .invalidSignature

end PublicKey

/-- The key of a curve in what follows its multicodec. -/
def parseKeyBytes (curve : Curve) (keyBytes : Bytes) : Except CryptoError PublicKey :=
  if keyBytes.length ≠ 33 then .error .invalidKey else PublicKey.fromBytes curve keyBytes

/-- The key that a `did:key` identifier names. -/
def parseDidKey (s : Bytes) : Except CryptoError PublicKey :=
  match stripPrefix (ascii "did:key:z") s with
  | none => .error .invalidKey
  | some rest =>
      match Ecdsa.base58Decode rest with
      | none => .error .invalidKey
      | some bytes =>
          if bytes.length < 2 then .error .invalidKey
          else if Curve.p256.multicodecPrefix.isPrefixOf bytes then parseKeyBytes .p256 (bytes.drop 2)
          else if Curve.k256.multicodecPrefix.isPrefixOf bytes then parseKeyBytes .k256 (bytes.drop 2)
          else .error .invalidKey

/-- A private key with its public key. -/
structure PrivateKey where
  publicKey : PublicKey
  /-- Sign a digest. -/
  signPrehash : Digest → Except CryptoError (Ecdsa.Sig publicKey.curve)

/-- Sign content, in the low-S form. -/
def PrivateKey.sign [Hashing] (key : PrivateKey) (content : Bytes) : Except CryptoError Signature :=
  (key.signPrehash (sha256 content)).map fun sig => Ecdsa.sigToBytes (lowS sig)

/-! ### Keys that work -/

/-- What is documented of the curves and of base58: what is encoded is decoded, a compressed point
has 33 bytes and a tag, and a signature in its low-S form has no other. -/
class LawfulEcdsa : Prop where
  base58Decode_encode : ∀ bytes : Bytes, Ecdsa.base58Decode (Ecdsa.base58Encode bytes) = some bytes
  length_toCompressed : ∀ {curve} (point : Ecdsa.Point curve), (Ecdsa.toCompressed point).length = 33
  head_toCompressed : ∀ {curve} (point : Ecdsa.Point curve),
    (Ecdsa.toCompressed point).head? = some 2 ∨ (Ecdsa.toCompressed point).head? = some 3
  fromSec1Bytes_toCompressed : ∀ {curve} (point : Ecdsa.Point curve),
    Ecdsa.fromSec1Bytes curve (Ecdsa.toCompressed point) = some point
  sigFromBytes_toBytes : ∀ {curve} (sig : Ecdsa.Sig curve),
    Ecdsa.sigFromBytes curve (Ecdsa.sigToBytes sig) = some sig
  normalizeS_normalized : ∀ {curve} (sig low : Ecdsa.Sig curve),
    Ecdsa.normalizeS sig = some low → Ecdsa.normalizeS low = none

/-- The public key of a private key verifies the low-S form of what it signs. -/
def PrivateKey.Matches (key : PrivateKey) : Prop :=
  ∀ digest sig, key.signPrehash digest = .ok sig →
    Ecdsa.verifyPrehash key.publicKey.inner digest (lowS sig) = true

section

variable [LawfulEcdsa]

theorem lowS_lowS {curve : Curve} (sig : Ecdsa.Sig curve) :
  lowS (lowS sig) = lowS sig
  := by
  rw [lowS, lowS]
  cases h : Ecdsa.normalizeS sig with
  | none => rw [Option.getD_none, h, Option.getD_none]
  | some low =>
      rw [Option.getD_some, LawfulEcdsa.normalizeS_normalized sig low h, Option.getD_none]

/-- The identifier of a key names the key. -/
theorem parseDidKey_didKey (key : PublicKey) :
  parseDidKey key.didKey = .ok key
  := by
  obtain ⟨curve, point⟩ := key
  have hlength := LawfulEcdsa.length_toCompressed point
  have hstrip : stripPrefix (ascii "did:key:z") (PublicKey.didKey ⟨curve, point⟩)
      = some (Ecdsa.base58Encode (curve.multicodecPrefix ++ Ecdsa.toCompressed point)) :=
    stripPrefix_append (ascii "did:key:z") _
  have hkey : parseKeyBytes curve (Ecdsa.toCompressed point) = .ok ⟨curve, point⟩ := by
    rw [parseKeyBytes, if_neg (not_not_intro hlength), PublicKey.fromBytes, if_neg,
      LawfulEcdsa.fromSec1Bytes_toCompressed]
    rintro ⟨h2, h3⟩
    exact (LawfulEcdsa.head_toCompressed point).elim h2 h3
  rw [parseDidKey, hstrip]
  dsimp only
  rw [LawfulEcdsa.base58Decode_encode]
  cases curve with
  | p256 => exact hkey
  | k256 => exact hkey

/-- What a key signs is verified. -/
theorem verifyMalleable_sign [Hashing] {key : PrivateKey} (hkey : key.Matches) {content : Bytes}
    {sig : Signature} (h : key.sign content = .ok sig) :
  key.publicKey.verifyMalleable content sig = .ok ()
  := by
  rw [PrivateKey.sign] at h
  cases hsign : key.signPrehash (sha256 content) with
  | error e =>
      rw [hsign] at h
      cases h
  | ok signed =>
      rw [hsign] at h
      cases h
      rw [PublicKey.verifyMalleable, LawfulEcdsa.sigFromBytes_toBytes]
      dsimp only
      rw [lowS_lowS, hkey _ _ hsign, if_pos rfl]

end

/-- A signature that is verified is one of the curve, whose low-S form the key verifies. -/
theorem verifyMalleable_eq_ok [Hashing] {key : PublicKey} {content : Bytes} {sig : Signature} :
  key.verifyMalleable content sig = .ok () ↔
    ∃ parsed, Ecdsa.sigFromBytes key.curve sig = some parsed
      ∧ Ecdsa.verifyPrehash key.inner (sha256 content) (lowS parsed) = true
  := by
  rw [PublicKey.verifyMalleable]
  cases Ecdsa.sigFromBytes key.curve sig with
  | none =>
      constructor
      · nofun
      · rintro ⟨parsed, h, -⟩
        cases h
  | some parsed =>
      dsimp only
      constructor
      · intro h
        split_ifs at h with hverify
        exact ⟨parsed, rfl, hverify⟩
      · rintro ⟨parsed', h, hverify⟩
        cases h
        rw [if_pos hverify]

end Shrike.ServiceAuth
