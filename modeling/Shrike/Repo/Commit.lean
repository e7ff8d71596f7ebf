import Shrike.Cbor.Encode
import Shrike.Syntax.Identifier

/-!
# Signed commits

The commit of a repository, how it is read from its block, and the bytes its signature covers.
-/

namespace Shrike.Repo

open Cbor Syntax Bytes

/-- The errors of signatures and keys. -/
inductive CryptoError where
  | invalidKey
  | invalidSignature
  | signingFailed
  deriving DecidableEq

/-- A compact signature: 64 bytes. -/
abbrev Signature := { bs : Bytes // bs.length = 64 }

/-- A key that signatures are verified against. -/
structure VerifyingKey where
  /-- Verify a signature over the given content. -/
  verify : Bytes → Signature → Except CryptoError Unit

/-- What can be wrong with a commit. -/
inductive CommitFault where
  | notMap
  | didType
  | invalidDid (e : String)
  | versionType
  | unsupportedVersion (version : ℕ)
  | revType
  | invalidRev (e : String)
  | dataType
  | prevType
  | sigType
  | sigLength (length : ℕ)
  | missingVersion
  | missingDid
  | missingData
  | missingRev
  | missingSig
  | noSignature
  deriving DecidableEq

/-- The errors of repository operations. -/
inductive RepoError where
  | cbor (e : Cbor.Error)
  | commit (fault : CommitFault)
  | crypto (e : CryptoError)
  deriving DecidableEq

/-- A commit. Commits of version 2 may have no revision, which is then zero, and no
signature. -/
structure Commit where
  did : Did
  version : ℕ
  rev : Tid
  prev : Option Cid
  data : Cid
  sig : Option Signature
  deriving DecidableEq

namespace Commit

/-! ### Reading a commit -/

/-- The fields of a commit read so far. -/
structure Fields where
  did : Option Did := none
  version : Option ℕ := none
  rev : Option Tid := none
  prev : Option Cid := none
  data : Option Cid := none
  sig : Option Signature := none

/-- The fields with one more entry of the commit's map. -/
def Fields.read (f : Fields) (entry : Bytes × Value) : Except RepoError Fields :=
  let (key, value) := entry
  if key = ascii "did" then
    match value with
    | .text s =>
        match Did.tryFrom s with
        | .error e => .error (.commit (.invalidDid e))
        | .ok did => .ok { f with did := some did }
    | _ => .error (.commit .didType)
  else if key = ascii "version" then
    match value with
    | .unsigned v =>
        if v ≠ 2 ∧ v ≠ 3 then .error (.commit (.unsupportedVersion v))
        else .ok { f with version := some v }
    | _ => .error (.commit .versionType)
  else if key = ascii "rev" then
    match value with
    | .text s =>
        match Tid.tryFrom s with
        | .error e => .error (.commit (.invalidRev e))
        | .ok rev => .ok { f with rev := some rev }
    | _ => .error (.commit .revType)
  else if key = ascii "data" then
    match value with
    | .cid c => .ok { f with data := some c }
    | _ => .error (.commit .dataType)
  else if key = ascii "prev" then
    match value with
    | .cid c => .ok { f with prev := some c }
    | .null => .ok f
    | _ => .error (.commit .prevType)
  else if key = ascii "sig" then
    match value with
    | .bytes b =>
        if h : b.length = 64 then .ok { f with sig := some ⟨b, h⟩ }
        else .error (.commit (.sigLength b.length))
    | _ => .error (.commit .sigType)
  else .ok f

/-- The commit that the fields make up. -/
def Fields.finish (f : Fields) : Except RepoError Commit :=
  match f.version, f.did, f.data with
  | none, _, _ => .error (.commit .missingVersion)
  | some _, none, _ => .error (.commit .missingDid)
  | some _, some _, none => .error (.commit .missingData)
  | some version, some did, some data =>
      if version = 3 ∧ f.rev = none then .error (.commit .missingRev)
      else if version = 3 ∧ f.sig = none then .error (.commit .missingSig)
      else .ok { did, version, rev := f.rev.getD ⟨0⟩, prev := f.prev, data, sig := f.sig }

/-- The commit that a block holds. -/
def fromCbor (data : Bytes) : Except RepoError Commit :=
  match decode data with
  | .error e => .error (.cbor e)
  | .ok (.map entries) => do
      let f ← entries.foldlM Fields.read {}
      f.finish
  | .ok _ => .error (.commit .notMap)

/-! ### Signing and verifying -/

/-- The encoding of the field with the given key. -/
def encodeField (c : Commit) (key : Bytes) : Bytes :=
  if key = ascii "did" then putText c.did.raw
  else if key = ascii "rev" then putText c.rev.format
  else if key = ascii "sig" then putBytes ((c.sig.map Subtype.val).getD (List.replicate 64 0))
  else if key = ascii "data" then putCid c.data
  else if key = ascii "prev" then putCidOrNull c.prev
  else if key = ascii "version" then putHead 0 c.version
  else []

/-- A map with the given keys, in their order, and the encodings of their values. -/
def encodeTextMap (keys : List Bytes) (encodeValue : Bytes → Bytes) : Bytes :=
  let sorted := keys.insertionSort (fun a b => cborKeyCmp a b ≠ .gt)
  putHead 5 sorted.length ++ sorted.flatMap fun key => putText key ++ encodeValue key

/-- The bytes that the signature covers: all fields except the signature. -/
def unsignedBytes (c : Commit) : Bytes :=
  encodeTextMap [ascii "did", ascii "rev", ascii "data", ascii "prev", ascii "version"]
    c.encodeField

/-- Verify the signature against a public key. -/
def verify (c : Commit) (key : VerifyingKey) : Except RepoError Unit :=
  match c.sig with
  | none => .error (.commit .noSignature)
  | some sig =>
      match key.verify c.unsignedBytes sig with
      | .error e => .error (.crypto e)
      | .ok () => .ok ()

/-- The commit carries a signature that a key accepts. -/
def SignedBy (c : Commit) (key : VerifyingKey) : Prop :=
  ∃ sig, c.sig = some sig ∧ key.verify c.unsignedBytes sig = .ok ()

theorem signedBy_of_verify {c : Commit} {key : VerifyingKey} (h : c.verify key = .ok ()) :
  c.SignedBy key
  := by
  rw [verify] at h
  split at h
  · cases h
  · rename_i sig hsig
    split at h
    · cases h
    · rename_i hverify
      use sig

end Commit

end Shrike.Repo
