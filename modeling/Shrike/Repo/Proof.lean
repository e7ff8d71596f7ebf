import Shrike.Car.Reader
import Shrike.Mst.Partial
import Shrike.Repo.Commit

/-!
# Record proofs

Verifying a record proof: a CAR file whose root is a signed commit, with the nodes of the
commit's tree on the search paths of records, and the blocks of those that exist.
-/

namespace Shrike.Repo

open Cbor Syntax Mst Car Bytes

/-- The errors of verifying a record proof. -/
inductive ProofError where
  | car (e : CarError)
  | rootCount (n : ℕ)
  | cidMismatch (cid : Cid)
  | missingBlock (cid : Cid)
  | invalidCommit (e : RepoError)
  | didMismatch (expected found : Did)
  | invalidSignature (e : RepoError)
  | mst (e : MstError)
  | notDrisl (cid : Cid)
  | notRecord (cid : Cid)
  | invalidPath (key : Key)
  deriving DecidableEq

/-- A verified record proof. -/
structure RecordProof where
  commit : Commit
  commitCid : Cid
  record : Option (Cid × Bytes)
  deriving DecidableEq

/-- A claim about a record at a commit: that it has the given CID, or that it does not
exist. -/
structure RecordClaim where
  collection : Nsid
  rkey : RecordKey
  cid : Option Cid

/-- The result of checking claims against a proof. -/
structure ProofVerdict where
  commit : Commit
  commitCid : Cid
  verified : List RecordClaim
  unverified : List RecordClaim

/-- A record found in a proof. -/
structure VerifiedRecord where
  collection : Nsid
  rkey : RecordKey
  cid : Cid
  record : Bytes
  deriving DecidableEq

/-- A proof whose blocks and commit have been checked. -/
structure OpenProof where
  blocks : Blocks
  commitCid : Cid
  commit : Commit

/-- The key of a record in the tree. -/
def mstKey (collection : Nsid) (rkey : RecordKey) : Key :=
  collection.raw ++ char '/' :: rkey.raw

/-- A block that must be present and DRISL. -/
def drislBlock (blocks : Blocks) (cid : Cid) : Except ProofError Bytes :=
  if cid.codec ≠ .drisl then .error (.notDrisl cid)
  else match blocks cid with
    | none => .error (.missingBlock cid)
    | some data => .ok data

/-- A record block: present, DRISL, and a map. -/
def recordBlock (blocks : Blocks) (cid : Cid) : Except ProofError Bytes := do
  let data ← drislBlock blocks cid
  match decode data with
  | .ok (.map _) => .ok data
  | _ => .error (.notRecord cid)

variable [Hashing]

/-- Add a block, unless its CID is there already, if it matches its CID. -/
def addBlock (blocks : Blocks) (block : Block) : Except ProofError Blocks :=
  if Cid.compute block.cid.codec block.data ≠ block.cid then .error (.cidMismatch block.cid)
  else .ok (if (blocks block.cid).isSome then blocks
    else Function.update blocks block.cid (some block.data))

/-- The blocks a reader still has, each checked against its CID. -/
def readBlocks (reader : SliceReader) : Except ProofError Blocks := do
  let (found, e, _) := collect SliceReader.nextBlock (reader.rest.length + 1) reader
  let blocks ← found.foldlM addBlock (fun _ => none)
  match e with
  | some e => .error (.car e)
  | none => .ok blocks

/-- Read a proof, check every block against its CID, and check that its root is a commit of
`did` signed by `key`. -/
def openProof (car : Bytes) (did : Did) (key : VerifyingKey) : Except ProofError OpenProof :=
  match SliceReader.new car with
  | .error e => .error (.car e)
  | .ok reader =>
      match reader.roots with
      | [commitCid] => do
          let blocks ← readBlocks reader
          let data ← drislBlock blocks commitCid
          match Commit.fromCbor data with
          | .error e => .error (.invalidCommit e)
          | .ok commit =>
              if commit.did ≠ did then .error (.didMismatch did commit.did)
              else match commit.verify key with
                | .error e => .error (.invalidSignature e)
                | .ok () => .ok { blocks, commitCid, commit }
      | roots => .error (.rootCount roots.length)

/-- Verify the proof of one record. -/
def verifyRecordProof (car : Bytes) (did : Did) (key : VerifyingKey) (collection : Nsid)
    (rkey : RecordKey) : Except ProofError RecordProof := do
  let { blocks, commitCid, commit } ← openProof car did key
  match ((DetachedTree.load commit.data).get blocks.source (mstKey collection rkey)).1 with
  | .error e => .error (.mst e)
  | .ok none => .ok { commit, commitCid, record := none }
  | .ok (some cid) => do
      let data ← recordBlock blocks cid
      .ok { commit, commitCid, record := some (cid, data) }

/-- Look up the record of each claim in a tree. Returns the claims that are true and those that
are false. -/
def checkClaims (blocks : Blocks) : DetachedTree → List RecordClaim →
    Except ProofError (List RecordClaim × List RecordClaim)
  | _, [] => .ok ([], [])
  | tree, claim :: claims =>
      match tree.get blocks.source (mstKey claim.collection claim.rkey) with
      | (.error e, _) => .error (.mst e)
      | (.ok found, tree) => do
          let _ ← found.mapM (recordBlock blocks)
          let (verified, unverified) ← checkClaims blocks tree claims
          if found = claim.cid then .ok (claim :: verified, unverified)
          else .ok (verified, claim :: unverified)

/-- Check claims about several records against one proof. -/
def verifyProofs (car : Bytes) (did : Did) (key : VerifyingKey) (claims : List RecordClaim) :
    Except ProofError ProofVerdict := do
  let { blocks, commitCid, commit } ← openProof car did key
  let (verified, unverified) ← checkClaims blocks (DetachedTree.load commit.data) claims
  .ok { commit, commitCid, verified, unverified }

/-- The collection and the record key that a key of the tree names. -/
def recordPath (key : Key) : Except ProofError (Nsid × RecordKey) :=
  match splitOnce (char '/') key with
  | none => .error (.invalidPath key)
  | some (c, r) =>
      match Nsid.tryFrom c, RecordKey.tryFrom r with
      | .ok collection, .ok rkey => .ok (collection, rkey)
      | _, _ => .error (.invalidPath key)

/-- The records of the given entries whose blocks are present. -/
def listRecords (blocks : Blocks) : List (Key × Cid) → Except ProofError (List VerifiedRecord)
  | [] => .ok []
  | (key, cid) :: entries => do
      let (collection, rkey) ← recordPath key
      let records ← listRecords blocks entries
      match recordBlock blocks cid with
      | .ok record => .ok ({ collection, rkey, cid, record } :: records)
      | .error _ => .ok records

/-- List every record a proof shows. -/
def verifyRecords (car : Bytes) (did : Did) (key : VerifyingKey) :
    Except ProofError (List VerifiedRecord) := do
  let { blocks, commit, .. } ← openProof car did key
  match ((DetachedTree.load commit.data).walkReachable blocks.source
      (fun entries key cid => .ok (entries ++ [(key, cid)])) []).1 with
  | .error e => .error (.mst e)
  | .ok entries => listRecords blocks entries

end Shrike.Repo
