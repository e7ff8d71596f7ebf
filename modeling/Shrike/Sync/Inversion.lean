import Shrike.Mst.Partial
import Shrike.Sync.Raw

/-!
# Undoing a commit

The CAR of a commit event, and the root that the tree of its commit has when the operations of the
event are undone.
-/

namespace Shrike.Sync

open Cbor Syntax Mst Car Repo Bytes

/-- How values of other components are shown in messages. -/
structure Texts where
  cid : Cid → String
  mst : MstError → String
  repo : RepoError → String
  text : Bytes → String
  debug : Bytes → String
  verifier : VerifierError → String

variable [Hashing] (texts : Texts)

/-! ### The blocks of a commit -/

def inversionError (raw : RawCommit) (message : String) : VerifierError :=
  .inversion raw.repo raw.rev.format message

def carError (raw : RawCommit) (source : CarError) : VerifierError :=
  .car (some raw.repo) (some raw.rev.format) source

/-- Add a block that matches its CID, and does not differ from an earlier one of the same CID. -/
def addCarBlock (blocks : Blocks) (block : Block) : Except CarError Blocks :=
  if Cid.compute block.cid.codec block.data ≠ block.cid then
    .error (.invalidBlock (.cidMismatch block.cid (Cid.compute block.cid.codec block.data)))
  else match blocks block.cid with
    | some existing =>
        if existing ≠ block.data then .error (.invalidBlock (.duplicate block.cid)) else .ok blocks
    | none => .ok (Function.update blocks block.cid (some block.data))

/-- A commit with the blocks it came with. -/
structure DecodedCommitCar where
  inner : Commit
  store : Blocks
  carRoot : Cid

/-- Read the CAR of a commit event. -/
def decodeCommitCar (raw : RawCommit) : Except VerifierError DecodedCommitCar := do
  let (roots, blocks) ← (readSlice raw.blocks).mapError (carError raw)
  let carRoot ← Except.ofOption (inversionError raw "CAR has no roots") roots.head?
  Except.refuse (carRoot ≠ raw.commit) (.fieldMismatch raw.repo (some raw.rev.format) "commit"
    (ascii (texts.cid raw.commit)) (ascii (texts.cid carRoot)))
  let store ← (blocks.foldlM addCarBlock (fun _ => none)).mapError (carError raw)
  let commitBlock ← Except.ofOption
    (inversionError raw ("commit block " ++ texts.cid raw.commit ++ " missing from CAR"))
    (store raw.commit)
  let inner ← (Commit.fromCbor commitBlock).mapError
    (.repo (some raw.repo) (some raw.rev.format))
  return { inner, store, carRoot }

/-- Read the commit of an event with the current state of a repository. -/
def decodeSyncCommit (did : Did) (rev blocks : Bytes) : Except VerifierError Commit := do
  let (roots, carBlocks) ← (readSlice blocks).mapError (.car (some did) (some rev))
  let commitCid ← Except.ofOption (.inversion did rev "sync CAR has no roots") roots.head?
  let block ← Except.ofOption
    (.inversion did rev ("commit block " ++ texts.cid commitCid ++ " missing from sync CAR"))
    (carBlocks.find? fun block => block.cid = commitCid)
  Except.refuse (Cid.compute block.cid.codec block.data ≠ block.cid) (.car (some did) (some rev)
    (.invalidBlock (.cidMismatch block.cid (Cid.compute block.cid.codec block.data))))
  (Commit.fromCbor block.data).mapError (.repo (some did) (some rev))

/-- The first path that an earlier operation has. -/
def findDuplicatePath : List RawRepoOp → List Bytes → Option Bytes
  | [], _ => none
  | op :: ops, seen => if op.path ∈ seen then some op.path else findDuplicatePath ops (op.path :: seen)

def checkDuplicatePath (raw : RawCommit) : Except VerifierError Unit :=
  match findDuplicatePath raw.ops [] with
  | some path => .error (.duplicatePath raw.repo raw.rev.format path)
  | none => .ok ()

/-! ### Inversion -/

/-- Put a new node beside the blocks of a CAR. -/
def putBlock (blocks generated : Blocks) (cid : Cid) (data : Bytes) : Except String Blocks :=
  match blocks cid with
  | some existing =>
      if existing ≠ data then
        .error ("internal error: attempted to overwrite CAR block " ++ texts.cid cid)
      else .ok generated
  | none =>
      match generated cid with
      | some existing =>
          if existing ≠ data then
            .error ("internal error: attempted to overwrite generated block " ++ texts.cid cid)
          else .ok generated
      | none => .ok (Function.update generated cid (some data))

/-- The root of a tree over the blocks of a CAR, whose new nodes are put beside them. -/
def treeRootCid (blocks : Blocks) (tree : DetachedTree) : Except String Cid := do
  let write ← tree.flush.1.mapError texts.mst
  let _ ← write.newBlocks.reverse.foldlM
    (fun generated node => putBlock texts blocks generated node.1 node.2) (fun _ => none)
  return write.root

def mstInversionError (raw : RawCommit) (source : String) : VerifierError :=
  inversionError raw ("MST error: " ++ source)

/-- Undo one operation. -/
def undoOp (raw : RawCommit) (blocks : Blocks) (tree : DetachedTree) (op : RawRepoOp) :
    Except VerifierError DetachedTree :=
  if op.action = ascii "create" then
    match tree.remove blocks.source op.path with
    | (.error e, _) => .error (mstInversionError raw (texts.mst e))
    | (.ok _, tree) => .ok tree
  else if op.action = ascii "update" ∨ op.action = ascii "delete" then
    match op.prev with
    | none => .error (inversionError raw
        ("missing prev for " ++ texts.text op.action ++ " op at " ++ texts.text op.path))
    | some prev =>
        match tree.insert blocks.source op.path prev with
        | (.error e, _) => .error (mstInversionError raw (texts.mst e))
        | (.ok _, tree) => .ok tree
  else .error (inversionError raw
    ("unknown repo op action " ++ texts.debug op.action ++ " at " ++ texts.text op.path))

/-- The root before a commit: that of its tree with its operations undone, the last one first. -/
def invertDecodedCommit (raw : RawCommit) (inner : Commit) (store : Blocks) :
    Except VerifierError Cid := do
  checkDuplicatePath raw
  let tree ← raw.ops.reverse.foldlM (undoOp texts raw store) (DetachedTree.load inner.data)
  (treeRootCid texts store tree).mapError (mstInversionError raw)

/-! ### The values of operations -/

/-- The value that the tree of a commit should have at the path of an operation. -/
def expectedValue (raw : RawCommit) (op : RawRepoOp) : Except VerifierError (Option Cid) :=
  if op.action = ascii "create" ∨ op.action = ascii "update" then
    match op.cid with
    | none => .error (.opCidMismatch raw.repo raw.rev.format op.path none none)
    | some expected => .ok (some expected)
  else if op.action = ascii "delete" then
    match op.cid with
    | some claimed => .error (.opCidMismatch raw.repo raw.rev.format op.path none (some claimed))
    | none => .ok none
  else .error (inversionError raw
    ("unknown repo op action " ++ texts.debug op.action ++ " at " ++ texts.text op.path))

/-- Check that operations say what the tree has at their paths. -/
def checkOpCidsFrom (raw : RawCommit) (store : Blocks) :
    DetachedTree → List RawRepoOp → Except VerifierError Unit
  | _, [] => .ok ()
  | tree, op :: ops => do
      let expected ← expectedValue texts raw op
      match tree.get store.source op.path with
      | (.error _, _) => .error (.opCidMismatch raw.repo raw.rev.format op.path expected none)
      | (.ok actual, tree) =>
          Except.refuse (actual ≠ expected)
            (.opCidMismatch raw.repo raw.rev.format op.path expected actual)
          checkOpCidsFrom raw store tree ops

/-- Check the operations of a commit against its tree. -/
def checkOpCids (raw : RawCommit) (data : Cid) (store : Blocks) : Except VerifierError Unit :=
  checkOpCidsFrom texts raw store (DetachedTree.load data) raw.ops

end Shrike.Sync
