import Shrike.Data.Stateful
import Shrike.Mst.CoveringProof
import Shrike.Repo.Proof
import Shrike.Syntax.TidClock

/-!
# Repositories

A repository stages writes in memory, and a commit signs them and hands them to the store.
-/

/-!
## Storage of repositories

What a commit changes, and the stores that keep the blocks and the head of a repository.
-/

namespace Shrike.Repo

open Cbor Syntax Mst

/-- What a commit did to a record. -/
inductive RecordAction where
  | create
  | update
  | delete

/-- A record that a commit changed: its CID after the commit and before. -/
structure RecordOp where
  action : RecordAction
  collection : Nsid
  rkey : RecordKey
  cid : Option Cid
  prev : Option Cid

/-- All that a commit changed. -/
structure CommitData where
  cid : Cid
  commit : Commit
  since : Option Tid
  prev : Option Cid
  prevData : Option Cid
  newBlocks : Blocks
  relevantBlocks : Blocks
  removedCids : List Cid
  ops : List RecordOp

/-- The revision of the commit. -/
def CommitData.rev (data : CommitData) : Tid := data.commit.rev

/-- One write of a batch. -/
inductive WriteOp where
  | create (collection : Nsid) (rkey : RecordKey) (record : Bytes)
  | update (collection : Nsid) (rkey : RecordKey) (record : Bytes)
  | delete (collection : Nsid) (rkey : RecordKey)

/-- The path that a write is to. -/
def WriteOp.path : WriteOp → Nsid × RecordKey
  | .create collection rkey _ => (collection, rkey)
  | .update collection rkey _ => (collection, rkey)
  | .delete collection rkey => (collection, rkey)

/-- A store for the blocks and the head of one repository. Its states are in `σ`, its errors in
`ε`. -/
structure RepoStore (σ ε : Type) where
  getBlock : σ → Cid → Except ε (Option Bytes)
  head : σ → Except ε (Option Cid)
  applyCommit : CommitData → Stateful σ ε Unit

/-- The blocks with others put in. -/
def extend (blocks more : Blocks) : Blocks := fun cid => (more cid).or (blocks cid)

/-- A store in memory. -/
structure MemRepoStore where
  blocks : Blocks
  head : Option Cid

namespace MemRepoStore

/-- An empty store. -/
def new : MemRepoStore := ⟨fun _ => none, none⟩

/-- Remove the blocks that a commit no longer references, store the new ones, and move the head. -/
def applyCommit (commit : CommitData) (store : MemRepoStore) : MemRepoStore where
  blocks :=
    extend (fun cid => if cid ∈ commit.removedCids then none else store.blocks cid)
      commit.newBlocks
  head := some commit.cid

/-- The store in memory, which never fails. -/
def ops : RepoStore MemRepoStore Empty where
  getBlock store cid := .ok (store.blocks cid)
  head store := .ok store.head
  applyCommit commit := Stateful.update (applyCommit commit)

end MemRepoStore

end Shrike.Repo

/-! ## Repositories -/

set_option linter.dupNamespace false

namespace Shrike.Repo

open Cbor Syntax Mst Car Bytes Stateful

/-- A key that signs. -/
structure SigningKey where
  /-- Sign the given content. -/
  sign : Bytes → Except CryptoError Signature

/-- The errors of a repository: its own, and those of reading and signing a commit. -/
inductive RepositoryError where
  | recordExists (key : Key)
  | recordNotFound (key : Key)
  | stagedMissing (cid : Cid)
  | clockStuck (since : Tid)
  | clockInvalid (e : String)
  | notDrisl (root : Cid)
  | unsigned
  | noCommit
  | storeNotEmpty
  | missingBlock (cid : Cid)
  | cidMismatch (cid : Cid)
  | rootCount (n : ℕ)
  | car (e : CarError)
  | storage
  | mst (e : MstError)
  | inner (e : RepoError)

/-- The error of a tree as one of its repository. -/
def RepositoryError.ofMst : MstError → RepositoryError
  | .storage => .storage
  | e => .mst e

/-! ### Signing -/

namespace Commit

/-- Sign a commit. -/
def sign (c : Commit) (key : SigningKey) : Except RepositoryError Commit :=
  match key.sign c.unsignedBytes with
  | .ok sig => .ok { c with sig := some sig }
  | .error e => .error (.inner (.crypto e))

/-- The bytes of a signed commit. -/
def toCbor (c : Commit) : Except RepositoryError Bytes :=
  if c.sig.isNone then .error .unsigned
  else
    .ok (encodeTextMap
      [ascii "did", ascii "rev", ascii "sig", ascii "data", ascii "prev", ascii "version"]
      c.encodeField)

end Commit

/-- A signed commit with its block. -/
structure SignedCommit where
  commit : Commit
  cid : Cid
  bytes : Bytes

variable [Hashing]

/-- Build, sign and encode a commit of version 3. -/
def Commit.createSigned (did : Did) (rev : Tid) (data : Cid) (key : SigningKey) :
    Except RepositoryError SignedCommit := do
  let commit : Commit := { did, version := 3, rev, prev := none, data, sig := none }
  let commit ← commit.sign key
  let bytes ← commit.toCbor
  .ok { commit, cid := Cid.compute .drisl bytes, bytes }

/-! ### The state of a repository -/

/-- A record that changed since the last commit: its CID then and now. -/
structure Staged where
  collection : Nsid
  rkey : RecordKey
  prev : Option Cid
  cid : Option Cid

/-- Changes of the tree that the store has not accepted. -/
structure Unsaved where
  nodes : Blocks
  retired : List Cid

/-- No changes. -/
def Unsaved.none : Unsaved := ⟨fun _ => .none, []⟩

omit [Hashing] in
/-- What a flush wrote, on top of the changes that are not saved. A node that is written again is no
longer retired, and one that is retired before it was saved is dropped. -/
def Unsaved.flushed (u : Unsaved) (write : TreeWrite) : Unsaved :=
  let u := write.newBlocks.foldl
    (fun u block =>
      if block.1 ∈ u.retired then { u with retired := u.retired.erase block.1 }
      else { u with nodes := Function.update u.nodes block.1 (some block.2) }) u
  write.retired.foldl
    (fun u cid =>
      if (u.nodes cid).isSome then { u with nodes := Function.update u.nodes cid .none }
      else if cid ∈ u.retired then u
      else { u with retired := u.retired ++ [cid] }) u

/-- The last commit. -/
structure Head where
  cid : Cid
  commit : Commit

/-- A repository over a store. -/
structure Repo (σ : Type) where
  did : Did
  clock : TidClock
  store : σ
  tree : DetachedTree
  records : Blocks
  staged : List (Key × Staged)
  unsaved : Unsaved
  head : Option Head

namespace Repo

variable {σ ε : Type} (store : RepoStore σ ε)

omit [Hashing] in
/-- A repository without commits. -/
def empty (s : σ) (did : Did) (clock : TidClock) : Repo σ where
  did
  clock
  store := s
  tree := .new
  records := fun _ => none
  staged := []
  unsaved := .none
  head := none

omit [Hashing] in
/-- The blocks of the store, as a tree reads them. -/
def storeSource (s : σ) : BlockSource := fun cid => (store.getBlock s cid).mapError fun _ => .storage

omit [Hashing] in
/-- The blocks of the store under those that it has not accepted. -/
def overlay (nodes : Blocks) (s : σ) : BlockSource := fun cid =>
  match nodes cid with
  | some data => .ok (some data)
  | none => storeSource store s cid

omit [Hashing] in
/-- Run an operation of the tree, which may read blocks. -/
def onTree {α : Type} (f : BlockSource → DetachedTree → Except MstError α × DetachedTree) :
    Stateful (Repo σ) RepositoryError α := fun r =>
  let (result, tree) := f (storeSource store r.store) r.tree
  (result.mapError .ofMst, { r with tree })

/-! ### Reading and staging -/

/-- Read a record. -/
def get (collection : Nsid) (rkey : RecordKey) :
    Stateful (Repo σ) RepositoryError (Option (Cid × Bytes)) := do
  match ← onTree store fun src tree => tree.get src (mstKey collection rkey) with
  | none => pure none
  | some cid =>
      let r ← current
      match r.records cid with
      | some data => pure (some (cid, data))
      | none =>
          match store.getBlock r.store cid with
          | .error _ => fail .storage
          | .ok none => fail (.missingBlock cid)
          | .ok (some data) => pure (some (cid, data))

omit [Hashing] in
/-- Note the new CID of a record, and the one at the last commit when it first changes. -/
def stage (collection : Nsid) (rkey : RecordKey) (key : Key) (prev cid : Option Cid) :
    Stateful (Repo σ) RepositoryError Unit :=
  Stateful.update fun r =>
    let staged := (r.staged.lookup key).getD { collection, rkey, prev, cid }
    { r with staged := List.setEntry key { staged with cid } r.staged }

/-- Put a record into the tree. -/
def put (collection : Nsid) (rkey : RecordKey) (key : Key) (record : Bytes) :
    Stateful (Repo σ) RepositoryError Cid := do
  let cid := Cid.compute .drisl record
  let prev ← onTree store fun src tree => tree.insert src key cid
  Stateful.update fun r => { r with records := Function.update r.records cid (some record) }
  stage collection rkey key prev (some cid)
  pure cid

/-- Whether a record exists. -/
def has (key : Key) : Stateful (Repo σ) RepositoryError Bool := do
  let found ← onTree store fun src tree => tree.get src key
  pure found.isSome

/-- Create a record that does not exist. -/
def create (collection : Nsid) (rkey : RecordKey) (record : Bytes) :
    Stateful (Repo σ) RepositoryError Cid := do
  let key := mstKey collection rkey
  if ← has store key then fail (.recordExists key)
  else put store collection rkey key record

/-- Replace a record that exists. -/
def update (collection : Nsid) (rkey : RecordKey) (record : Bytes) :
    Stateful (Repo σ) RepositoryError Cid := do
  let key := mstKey collection rkey
  if ← has store key then put store collection rkey key record
  else fail (.recordNotFound key)

/-- Delete a record that exists. -/
def delete (collection : Nsid) (rkey : RecordKey) : Stateful (Repo σ) RepositoryError Unit := do
  let key := mstKey collection rkey
  match ← onTree store fun src tree => tree.remove src key with
  | none => fail (.recordNotFound key)
  | some prev => stage collection rkey key (some prev) none

/-! ### Commits -/

omit [Hashing] in
/-- The action that took a record from one CID to another, if they differ. -/
def actionOf : Option Cid → Option Cid → RecordAction
  | none, _ => .create
  | _, none => .delete
  | some _, some _ => .update

omit [Hashing] in
/-- The operations of the records that changed, and their blocks. -/
def collectOps (records : Blocks) :
    List (Key × Staged) → Except RepositoryError (List RecordOp × Blocks)
  | [] => .ok ([], fun _ => none)
  | (_, s) :: staged =>
      if s.prev = s.cid then collectOps records staged
      else do
        let leaf ←
          match s.cid with
          | none => .ok none
          | some cid =>
              match records cid with
              | none => .error (.stagedMissing cid)
              | some data => .ok (some (cid, data))
        let (ops, leaves) ← collectOps records staged
        let op := { action := actionOf s.prev s.cid, collection := s.collection, rkey := s.rkey,
                    cid := s.cid, prev := s.prev }
        match leaf with
        | none => .ok (op :: ops, leaves)
        | some (cid, data) => .ok (op :: ops, Function.update leaves cid (some data))

omit [Hashing] in
/-- Read the nodes of the proof, on top of other blocks. -/
def readNodes (src : BlockSource) : Blocks → List Cid → Except RepositoryError Blocks
  | blocks, [] => .ok blocks
  | blocks, cid :: cids =>
      match src cid with
      | .error e => .error (.ofMst e)
      | .ok none => .error (.missingBlock cid)
      | .ok (some data) => readNodes src (Function.update blocks cid (some data)) cids

omit [Hashing] in
/-- Issue the revision of the next commit at a time of the system clock. It has to be after the
revision of the last one, which the clock observes first. -/
def nextRev (now : UInt64) : Stateful (Repo σ) RepositoryError (Option Tid × Tid) := do
  let r ← current
  let since := r.head.map (·.commit.rev)
  let clock := (since.map r.clock.observe).getD r.clock
  let (rev, clock) := clock.next now
  Stateful.update fun r => { r with clock }
  match since with
  | some since => if since < rev then pure (some since, rev) else fail (.clockStuck since)
  | none => pure (none, rev)

/-- The signed commit of the staged writes, with all that it changes: the root of the tree is
written, and so are the nodes that prove the changes. -/
def assemble (key : SigningKey) (now : UInt64) (root : Cid) (proofNodes : List Cid) :
    Stateful (Repo σ) RepositoryError CommitData := do
  let r ← current
  let (ops, leaves) ← ofExcept (collectOps r.records r.staged)
  let src := overlay store r.unsaved.nodes r.store
  let relevantBlocks ← ofExcept (readNodes src leaves proofNodes)
  let (since, rev) ← nextRev now
  let signed ← ofExcept (Commit.createSigned r.did rev root key)
  let newBlocks := extend r.unsaved.nodes leaves
  pure
    { cid := signed.cid
      commit := signed.commit
      since
      prev := r.head.map (·.cid)
      prevData := r.head.map (·.commit.data)
      newBlocks := Function.update newBlocks signed.cid (some signed.bytes)
      relevantBlocks := Function.update relevantBlocks signed.cid (some signed.bytes)
      removedCids := r.unsaved.retired.insertionSort (· ≤ ·) ++ (r.head.map (·.cid)).toList
      ops }

omit [Hashing] in
/-- Hand a commit to a store. -/
def applyTo (data : CommitData) : Stateful σ RepositoryError Unit := fun s =>
  let (result, s) := store.applyCommit data s
  (result.mapError fun _ => .storage, s)

omit [Hashing] in
/-- Hand a commit to the store of the repository. -/
def persist (data : CommitData) : Stateful (Repo σ) RepositoryError Unit := fun r =>
  let (result, s) := applyTo store data r.store
  (result, { r with store := s })

omit [Hashing] in
/-- The repository after the store has accepted a commit. -/
def accepted (data : CommitData) (r : Repo σ) : Repo σ :=
  { r with
    records := fun _ => none
    staged := []
    unsaved := .none
    head := some ⟨data.cid, data.commit⟩ }

/-- Sign the staged writes into a commit and persist it, at a time of the system clock. -/
def commit (key : SigningKey) (now : UInt64) : Stateful (Repo σ) RepositoryError CommitData := do
  let write ← onTree store fun _ tree => tree.flush
  Stateful.update fun r => { r with unsaved := r.unsaved.flushed write }
  let r ← current
  let src := overlay store r.unsaved.nodes r.store
  let proofNodes ← onTree store fun _ tree => tree.coveringProof src (r.staged.map Prod.fst)
  let data ← assemble store key now write.root proofNodes
  persist store data
  Stateful.update (accepted data)
  pure data

/-! ### Batches of writes -/

/-- Whether a record exists, counting the writes of a batch so far. -/
def hasAfter (present : List (Key × Bool)) (key : Key) : Stateful (Repo σ) RepositoryError Bool :=
  match present.lookup key with
  | some found => pure found
  | none => has store key

/-- Check in order that the writes of a batch are of records that exist or not, counting the writes
before them. -/
def checkWrites : List (Key × Bool) → List WriteOp → Stateful (Repo σ) RepositoryError Unit
  | _, [] => pure ()
  | present, write :: writes => do
      let key := mstKey write.path.1 write.path.2
      let found ← hasAfter store present key
      match write with
      | .create .. =>
          if found then fail (.recordExists key) else checkWrites ((key, true) :: present) writes
      | .update .. =>
          if found then checkWrites ((key, true) :: present) writes else fail (.recordNotFound key)
      | .delete .. =>
          if found then checkWrites ((key, false) :: present) writes else fail (.recordNotFound key)

/-- Stage a write that has been checked. -/
def applyWrite : WriteOp → Stateful (Repo σ) RepositoryError Unit
  | .create collection rkey record => do
      let _ ← put store collection rkey (mstKey collection rkey) record
      pure ()
  | .update collection rkey record => do
      let _ ← put store collection rkey (mstKey collection rkey) record
      pure ()
  | .delete collection rkey => delete store collection rkey

/-- Apply a batch of writes and commit them with those already staged. -/
def applyWrites (writes : List WriteOp) (key : SigningKey) (now : UInt64) :
    Stateful (Repo σ) RepositoryError CommitData := do
  let keyOf (write : WriteOp) := mstKey write.path.1 write.path.2
  let (deleted, written) := writes.partition fun write => write matches .delete ..
  let missing ← onTree store fun src tree => tree.missingBlocks src (written.map keyOf)
  let more ← onTree store fun src tree => tree.missingBlocksForRemove src (deleted.map keyOf)
  match (missing ++ more).head? with
  | some cid => fail (.missingBlock cid)
  | none => do
      checkWrites store [] writes
      writes.forM (applyWrite store)
      commit store key now

/-! ### Opening and importing -/

omit [Hashing] in
/-- A new repository in a store that does not hold one. -/
def init (did : Did) (clock : TidClock) (s : σ) : Except RepositoryError (Repo σ) :=
  match store.head s with
  | .error _ => .error .storage
  | .ok (some _) => .error .storeNotEmpty
  | .ok none => .ok (empty s did clock)

omit [Hashing] in
/-- The repository at the head of a store. Its clock has observed the revision there. -/
def openRepo (s : σ) : Except RepositoryError (Repo σ) :=
  match store.head s with
  | .error _ => .error .storage
  | .ok none => .error .noCommit
  | .ok (some cid) =>
      match store.getBlock s cid with
      | .error _ => .error .storage
      | .ok none => .error (.missingBlock cid)
      | .ok (some bytes) => do
          let commit ← (Commit.fromCbor bytes).mapError .inner
          let clock ← (TidClock.new commit.rev.clockId).mapError .clockInvalid
          .ok
            { empty s commit.did (clock.observe commit.rev) with
              tree := .load commit.data
              head := some ⟨cid, commit⟩ }

/-- The blocks that a reader still has, each checked against its CID. -/
def readCar (reader : SliceReader) : Except RepositoryError Blocks := do
  let (found, e, _) := collect SliceReader.nextBlock (reader.rest.length + 1) reader
  let blocks ← found.foldlM
    (fun blocks block => (addBlock blocks block).mapError fun _ => .cidMismatch block.cid)
    (fun _ => none)
  match e with
  | some e => .error (.car e)
  | none => .ok blocks

omit [Hashing] in
/-- Copy the block of a record, or fail if it is missing. -/
def visitRecord (blocks : Blocks) (absent : Cid → MstError) (records : Blocks) (_ : Key) (cid : Cid) :
    Except MstError Blocks :=
  match records cid, blocks cid with
  | some _, _ => .ok records
  | none, some data => .ok (Function.update records cid (some data))
  | none, none => .error (absent cid)

/-- Every block that the tree with the given root reaches: its nodes and its records. -/
def reachableBlocks (blocks : Blocks) (root : Cid) : Except RepositoryError Blocks :=
  let walk (absent : Cid → MstError) :=
    (DetachedTree.load root).walk blocks.source (visitRecord blocks absent) fun _ => none
  match walk .blockNotFound with
  | (.ok records, tree) =>
      .ok (extend records fun cid => if cid ∈ root :: tree.root.cids then blocks cid else none)
  | (.error (.blockNotFound cid), _) =>
      -- the blocks themselves never fail to be read, so this tells a record from a node
      match (walk fun _ => .storage).1 with
      | .error .storage => .error (.missingBlock cid)
      | _ => .error (.mst (.blockNotFound cid))
  | (.error e, _) => .error (.ofMst e)

/-- What an import of a repository commits: the commit that is the root of a CAR, and the blocks
that it reaches. -/
def importData (car : Bytes) : Except RepositoryError CommitData := do
  let reader ← (SliceReader.new car).mapError .car
  match reader.roots with
  | [root] => do
      let blocks ← readCar reader
      if root.codec ≠ .drisl then .error (.notDrisl root)
      else match blocks root with
        | none => .error (.missingBlock root)
        | some bytes => do
            let commit ← (Commit.fromCbor bytes).mapError .inner
            let newBlocks ← reachableBlocks (Function.update blocks root none) commit.data
            .ok
              { cid := root
                commit
                since := none
                prev := none
                prevData := none
                newBlocks := Function.update newBlocks root (some bytes)
                relevantBlocks := fun _ => none
                removedCids := []
                ops := [] }
  | roots => .error (.rootCount roots.length)

/-- Load a repository from a CAR into a store that does not hold one. -/
def importCar (car : Bytes) : Stateful σ RepositoryError (Repo σ) := do
  let s ← current
  match store.head s with
  | .error _ => fail .storage
  | .ok (some _) => fail .storeNotEmpty
  | .ok none => do
      let data ← ofExcept (importData car)
      applyTo store data
      let s ← current
      ofExcept (openRepo store s)

end Repo

end Shrike.Repo
