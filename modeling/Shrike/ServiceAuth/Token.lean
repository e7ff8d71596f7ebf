import Shrike.Cbor.CidText
import Shrike.Cbor.Json
import Shrike.Data.JsonText
import Shrike.Data.Stateful
import Shrike.ServiceAuth.Keys

/-!
# Service tokens

The tokens that services authenticate to one another with: how one is made and signed, and how one
is verified against the key that its issuer is resolved to.
-/

namespace Shrike.ServiceAuth

open Cbor Repo Syntax Bytes
open Except (ofOption refuse)

/-! ### Segments -/

/-- A member of the header or the payload of a token that is made. -/
inductive Member where
  | text (s : Bytes)
  | seconds (n : UInt64)

/-- The JSON value of a member. -/
def Member.value : Member → Json Number
  | .text s => .string s
  | .seconds n => .number (.posInt n.toNat n.toNat_lt)

/-- The alphabet of base64 in URLs. -/
def base64UrlAlphabet : Bytes :=
  ascii "ABCDEFGHIJKLMNOPQRSTUVWXYZabcdefghijklmnopqrstuvwxyz0123456789-_"

/-- How the parts of a token are written, which comes from outside. -/
class TokenEncoding where
  /-- The base64 of a byte string in the alphabet of URLs, without padding. -/
  base64url : Bytes → Bytes
  /-- The byte string that a text is the base64 of, without padding. -/
  base64urlDecode : Bytes → Option Bytes
  /-- The lowercase hexadecimal digits of a byte string. -/
  hexLower : Bytes → Bytes
  /-- The JSON text of an object. -/
  toVec : List (Bytes × Member) → Bytes
  mem_base64url : ∀ data : Bytes, ∀ b ∈ base64url data, b ∈ base64UrlAlphabet
  decode_base64url : ∀ data : Bytes, base64urlDecode (base64url data) = some data

open TokenEncoding (base64url hexLower toVec)

/-- The byte string that a segment is the base64 of, with any padding dropped. -/
def decodeB64url [TokenEncoding] (s : Bytes) : Option Bytes :=
  TokenEncoding.base64urlDecode (trimEndMatches (char '=') s)

/-- The parser of JSON texts, which comes from outside. It gives the members of an object in the
order of the text. -/
class JsonParser where
  fromSlice : Bytes → Option (Json Number)

/-- The object that a segment is, as a map. Of several members of one name the last is kept. -/
def decodeJsonObject [TokenEncoding] [JsonParser] (segment : Bytes) :
    Option (List (Bytes × Json Number)) :=
  match (decodeB64url segment).bind JsonParser.fromSlice with
  | some (.object members) => some (List.collectEntries members)
  | _ => none

/-! ### Errors -/

/-- The ways in which a token is not made or not accepted. -/
inductive ServiceAuthError where
  | badJwt
  | badJwtType (typ : Bytes)
  | jwtExpired
  | badJwtAudience
  | badJwtLexiconMethod (expected : Bytes) (present : Bool)
  | badJwtIss
  | unverifiableSignature
  | badSignature
  | keyResolution (error message : Bytes)
  | signing (e : CryptoError)
  deriving DecidableEq

/-! ### Making a token -/

/-- What a token is made of. -/
structure ServiceJwtParams where
  iss : Bytes
  aud : Bytes
  lxm : Option Bytes := none
  iat : Option UInt64 := none
  exp : Option UInt64 := none

/-- The seconds that a token lasts for by default. -/
def defaultTtl : ℕ := 60

/-- The sum, or the largest number of 64 bits. -/
def saturatingAdd (a : UInt64) (b : ℕ) : UInt64 := UInt64.ofNat (min (a.toNat + b) (2 ^ 64 - 1))

namespace ServiceJwtParams

/-- When a token is issued. The time is in milliseconds. -/
def issuedAt (params : ServiceJwtParams) (unixTimeMillis : UInt64) : UInt64 :=
  params.iat.getD (unixTimeMillis / 1000)

/-- When a token expires. -/
def expiry (params : ServiceJwtParams) (unixTimeMillis : UInt64) : UInt64 :=
  params.exp.getD (saturatingAdd (params.issuedAt unixTimeMillis) defaultTtl)

/-- The members of the payload. The bytes are the random ones that the token is identified by. -/
def payload [TokenEncoding] (params : ServiceJwtParams) (unixTimeMillis : UInt64) (jti : Bytes) :
    List (Bytes × Member) :=
  [(ascii "iat", .seconds (params.issuedAt unixTimeMillis)), (ascii "iss", .text params.iss),
    (ascii "aud", .text params.aud), (ascii "exp", .seconds (params.expiry unixTimeMillis))]
    ++ (params.lxm.map fun lxm => (ascii "lxm", Member.text lxm)).toList
    ++ [(ascii "jti", .text (hexLower jti))]

end ServiceJwtParams

/-- The members of the header. -/
def jwtHeader (alg : Bytes) : List (Bytes × Member) :=
  [(ascii "typ", .text (ascii "JWT")), (ascii "alg", .text alg)]

/-- A segment with an object. -/
def b64Json [TokenEncoding] (members : List (Bytes × Member)) : Bytes := base64url (toVec members)

section

variable [Ecdsa] [Hashing]

/-- Make a signed token. -/
def createServiceJwt [TokenEncoding] (params : ServiceJwtParams) (key : PrivateKey)
    (unixTimeMillis : UInt64) (jti : Bytes) : Except ServiceAuthError Bytes := do
  let signingInput := b64Json (jwtHeader key.publicKey.jwtAlg) ++ char '.' ::
    b64Json (params.payload unixTimeMillis jti)
  let sig ← (key.sign signingInput).mapError .signing
  .ok (signingInput ++ char '.' :: base64url sig.val)

end

/-! ### Verifying a token -/

/-- The claims of a token that is verified. -/
structure ServiceJwtClaims where
  iss : Bytes
  did : Did
  fragment : Option Bytes
  aud : Bytes
  exp : ℚ
  lxm : Option Bytes
  jti : Option Bytes
  claims : List (Bytes × Json Number)

/-- The DID of an issuer, and its fragment if it has one. -/
def splitIss (iss : Bytes) : Option (Did × Option Bytes) :=
  match splitOnce (char '#') iss with
  | none => (Did.tryFrom iss).toOption.map fun did => (did, none)
  | some (did, frag) =>
      if frag = [] ∨ char '#' ∈ frag then none
      else (Did.tryFrom did).toOption.map fun did => (did, some frag)

/-- A member that has to be a string, if it is there and not null. -/
def optionalString (claims : List (Bytes × Json Number)) (key : Bytes) :
    Except ServiceAuthError (Option Bytes) :=
  match claims.lookup key with
  | none | some .null => .ok none
  | some (.string s) => .ok (some s)
  | some _ => .error .badJwt

/-- The types of the tokens that must not be accepted here. -/
def forbiddenTypes : List Bytes := [ascii "at+jwt", ascii "refresh+jwt", ascii "dpop+jwt"]

/-- Refuse tokens of other protocols. -/
def checkType (header : List (Bytes × Json Number)) : Except ServiceAuthError Unit :=
  match (header.lookup (ascii "typ")).bind Json.asStr with
  | none => .ok ()
  | some typ => refuse (typ ∈ forbiddenTypes) (.badJwtType typ)

/-- A signature, if a byte string has the size of one. -/
def Signature.tryFrom (bytes : Bytes) : Option Signature :=
  if h : bytes.length = 64 then some ⟨bytes, h⟩ else none

/-- The seconds from the epoch to a time in nanoseconds. Before the epoch there are none. -/
def secondsSinceEpoch (now : ℤ) : ℚ := (max now 0 : ℤ) / 10 ^ 9

/-- A token whose claims are accepted, with what its signature is checked against. -/
structure Opened where
  signingInput : Bytes
  sig : Option Signature
  alg : Bytes
  claims : ServiceJwtClaims

/-- Read a token, and check everything about it but its signature. -/
def openToken [TokenEncoding] [JsonParser] (audience lxm : Option Bytes) (jwt : Bytes) (now : ℤ) :
    Except ServiceAuthError Opened :=
  match jwt.splitOn (char '.') with
  | [headerB64, payloadB64, sigB64] => do
      let header ← ofOption .badJwt (decodeJsonObject headerB64)
      let alg ← ofOption .badJwt ((header.lookup (ascii "alg")).bind Json.asStr)
      checkType header
      let claims ← ofOption .badJwt (decodeJsonObject payloadB64)
      let iss ← ofOption .badJwt ((claims.lookup (ascii "iss")).bind Json.asStr)
      let aud ← ofOption .badJwt ((claims.lookup (ascii "aud")).bind Json.asStr)
      let exp ← ofOption .badJwt ((claims.lookup (ascii "exp")).bind Json.asNumber)
      let tokenLxm ← optionalString claims (ascii "lxm")
      let _ ← optionalString claims (ascii "nonce")
      refuse (numberValue exp < secondsSinceEpoch now) .jwtExpired
      refuse (audience.any (· != aud)) .badJwtAudience
      refuse (lxm.any fun expected => tokenLxm != some expected)
        (.badJwtLexiconMethod (lxm.getD []) tokenLxm.isSome)
      let issuer ← ofOption .badJwtIss (splitIss iss)
      .ok {
        signingInput := jwt.take (headerB64.length + 1 + payloadB64.length)
        sig := (decodeB64url sigB64).bind Signature.tryFrom
        alg
        claims := {
          iss, aud, claims
          did := issuer.1
          fragment := issuer.2
          exp := numberValue exp
          lxm := tokenLxm
          jti := (claims.lookup (ascii "jti")).bind Json.asStr } }
  | _ => .error .badJwt

section

variable [Ecdsa] [Hashing]

/-- Check a signature with a key. The check is false if the signature does not verify, and an error
if the key cannot check it at all. -/
def checkSignature (didKey msg : Bytes) (sig : Option Signature) (alg : Bytes) :
    Except ServiceAuthError Bool :=
  match parseDidKey didKey with
  | .error _ => .error .unverifiableSignature
  | .ok key =>
      if key.jwtAlg ≠ alg then .error .unverifiableSignature
      else .ok (sig.any fun sig => (key.verifyMalleable msg sig).toOption.isSome)

/-- A call of the resolver, with its answer. -/
structure Resolution where
  iss : Bytes
  forceRefresh : Bool
  answer : Except ServiceAuthError Bytes

/-- A verifier. What its resolver answers may depend on the calls before. -/
structure ServiceJwtVerifier where
  audience : Option Bytes
  resolver : List Resolution → Bytes → Bool → Except ServiceAuthError Bytes

/-- A computation that calls the resolver. -/
abbrev Resolving (α : Type) := Stateful (List Resolution) ServiceAuthError α

namespace ServiceJwtVerifier

/-- Resolve an issuer to its key. -/
def resolveSigningKey (verifier : ServiceJwtVerifier) (iss : Bytes) (forceRefresh : Bool) :
    Resolving Bytes := fun calls =>
  (verifier.resolver calls iss forceRefresh,
    calls ++ [⟨iss, forceRefresh, verifier.resolver calls iss forceRefresh⟩])

/-- The check of a signature with a key, or with a fresh key if the first does not verify it. -/
def refreshed (verifier : ServiceJwtVerifier) (token : Opened) (key : Bytes) :
    Except ServiceAuthError Bool → Resolving (Except ServiceAuthError Bool)
  | .ok true => pure (.ok true)
  | checked => do
      let fresh ← verifier.resolveSigningKey token.claims.iss true
      if fresh ≠ key then pure (checkSignature fresh token.signingInput token.sig token.alg)
      else pure checked

/-- Check the signature of a token. -/
def checkKeys (verifier : ServiceJwtVerifier) (token : Opened) : Resolving ServiceJwtClaims := do
  let key ← verifier.resolveSigningKey token.claims.iss false
  let checked ← verifier.refreshed token key
    (checkSignature key token.signingInput token.sig token.alg)
  let valid ← Stateful.ofExcept checked
  if valid then pure token.claims else Stateful.fail .badSignature

/-- Verify a token as of a time. -/
def verifyAt [TokenEncoding] [JsonParser] (verifier : ServiceJwtVerifier) (jwt : Bytes)
    (lxm : Option Bytes) (now : ℤ) : Resolving ServiceJwtClaims := do
  let token ← Stateful.ofExcept (openToken verifier.audience lxm jwt now)
  verifier.checkKeys token

end ServiceJwtVerifier

end

end Shrike.ServiceAuth
