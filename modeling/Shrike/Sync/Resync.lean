import Shrike.Sync.Verifier

/-!
# Fetching a repository

How the CAR of a whole repository is read while it arrives, and what is checked about the repository
it holds.
-/

namespace Shrike.Sync

open Cbor Syntax Mst Car Repo Bytes Streaming

variable [Hashing]

/-- A repository that was fetched. -/
structure LoadedRepo where
  commit : Commit
  ops : List VerifierOp

/-- A CAR that is being read. -/
structure RepoCarLoader where
  did : Did
  limits : RepoLoadLimits
  reader : IncrementalReader
  carBytes : ℕ
  blockCount : ℕ
  blockBytes : ℕ
  blocks : Blocks

namespace RepoCarLoader

def new (did : Did) (limits : RepoLoadLimits) : RepoCarLoader where
  did := did
  limits := limits
  reader := .new
  carBytes := 0
  blockCount := 0
  blockBytes := 0
  blocks := fun _ => none

def oversized (loader : RepoCarLoader) (field : String) (bytes limit : ℕ) : VerifierError :=
  .oversizedCommit loader.did none field bytes limit

def carErr (loader : RepoCarLoader) (source : CarError) : VerifierError :=
  .car (some loader.did) none source

/-- Take the blocks that have arrived, at most `n`, refusing one that crosses a limit before its
data is read. -/
def takeBlocks : ℕ → RepoCarLoader → Except VerifierError RepoCarLoader
  | 0, loader => .ok loader
  | n + 1, loader =>
      match loader.reader.nextBlockDataLen with
      | (.error e, _) => .error (loader.carErr e)
      | (.ok none, reader) => .ok { loader with reader }
      | (.ok (some len), reader) => do
          let blockCount := loader.blockCount + 1
          Except.refuse (loader.limits.maxBlocks < blockCount)
            (loader.oversized "repo_blocks" blockCount loader.limits.maxBlocks)
          let blockBytes := loader.blockBytes + len
          Except.refuse (loader.limits.maxBlockBytes < blockBytes)
            (loader.oversized "repo_block_bytes" blockBytes loader.limits.maxBlockBytes)
          match reader.nextBlock with
          | (.error e, _) => .error (loader.carErr e)
          | (.ok none, reader) => .ok { loader with reader }
          | (.ok (some block), reader) => do
              let blocks ← (addCarBlock loader.blocks block).mapError loader.carErr
              takeBlocks n { loader with reader, blockCount, blockBytes, blocks }

/-- Read a chunk. -/
def push (loader : RepoCarLoader) (chunk : Bytes) : Except VerifierError RepoCarLoader := do
  let carBytes := loader.carBytes + chunk.length
  Except.refuse (loader.limits.maxCarBytes < carBytes)
    (loader.oversized "repo_car_bytes" carBytes loader.limits.maxCarBytes)
  let reader := loader.reader.push chunk
  takeBlocks (reader.buf.length + 1) { loader with reader, carBytes }

end RepoCarLoader

variable (texts : Texts)

/-- The operation that puts a record of a fetched repository in place. -/
def resyncOp (did : Did) (rev : Tid) (store : Blocks) (entry : Key × Cid) :
    Except VerifierError VerifierOp := do
  let record ← Except.ofOption
    (.opCidMismatch did rev.format entry.1 (some entry.2) none) (store entry.2)
  return {
    repo := did, rev, action := ascii "resync", path := entry.1, cid := some entry.2, prev := none,
    record }

/-- The operations that put all records of a fetched repository in place. -/
def repoOps (did : Did) (rev : Tid) (data : Cid) (store : Blocks) (limits : RepoLoadLimits) :
    Except VerifierError (List VerifierOp) := do
  let entries ← ((DetachedTree.load data).entries store.source).1.mapError fun e =>
    VerifierError.inversion did rev.format ("MST error: " ++ texts.mst e)
  Except.refuse (limits.maxRecords < entries.length)
    (.oversizedCommit did (some rev.format) "repo_records" entries.length limits.maxRecords)
  entries.mapM (resyncOp did rev store)

/-- The repository that a set of blocks holds. -/
def loadRepo (did : Did) (commitCid : Cid) (store : Blocks) (limits : RepoLoadLimits) :
    Except VerifierError LoadedRepo := do
  let commitBlock ← Except.ofOption (.inversion did (ascii "<unknown>")
    ("commit block " ++ texts.cid commitCid ++ " missing from CAR")) (store commitCid)
  let commit ← (Commit.fromCbor commitBlock).mapError (.repo (some did) none)
  Except.refuse (commit.did ≠ did)
    (.fieldMismatch did (some commit.rev.format) "did" did.raw commit.did.raw)
  Except.refuse (commit.version ≠ 3) (.fieldMismatch did (some commit.rev.format) "version"
    (ascii "3") (ascii (toString commit.version)))
  let ops ← repoOps texts did commit.rev commit.data store limits
  return { commit, ops }

/-- The repository of a CAR that was read. -/
def RepoCarLoader.finish (loader : RepoCarLoader) : Except VerifierError LoadedRepo := do
  loader.reader.finish.mapError loader.carErr
  let commitCid ← Except.ofOption
    (.inversion loader.did (ascii "<unknown>") "CAR has no roots")
    (loader.reader.roots.bind List.head?)
  loadRepo texts loader.did commitCid loader.blocks loader.limits

/-- What the source of repositories answers: a CAR in chunks, which may break off. -/
abbrev RepoCarStream := Except String (List (Except String Bytes))

/-- Read a repository from what its source answers. -/
def fetchRepo (opts : VerifierOptions) (did : Did) (stream : RepoCarStream) :
    Except VerifierError LoadedRepo := do
  Except.refuse (opts.hasRepoSource = false)
    (.resyncRequired did "no sync repo source configured")
  let chunks ← stream.mapError (VerifierError.resyncRequired did)
  let loader ← chunks.foldlM (fun (loader : RepoCarLoader) chunk => do
    let chunk ← chunk.mapError (VerifierError.resyncRequired did)
    loader.push chunk) (.new did opts.repoLoadLimits)
  loader.finish texts

/-- Verify a repository that was fetched. -/
def verifyLoadedRepo (did : Did) (loaded : LoadedRepo) (answer : ResolverAnswer) :
    Except VerifierError Unit := do
  Except.refuse (loaded.commit.did ≠ did) (.fieldMismatch did (some loaded.commit.rev.format) "did"
    did.raw loaded.commit.did.raw)
  verifySignature texts did loaded.commit.rev loaded.commit answer

/-- Check that a repository that was fetched is not older than the stored state. -/
def checkRegression (did : Did) (loaded : LoadedRepo) (chain : Option ChainState) :
    Except VerifierError Unit :=
  match chain with
  | none => .ok ()
  | some chain => do
      let current ← chainRev did loaded.commit.rev chain
      Except.refuse (loaded.commit.rev.value < current.value ∨
          (loaded.commit.rev = current ∧ loaded.commit.data ≠ chain.data))
        (.revRegression did chain.rev loaded.commit.rev.format)

/-- The error of a resync. -/
def wrapResyncError (did : Did) : VerifierError → VerifierError
  | .resyncRateLimited d => .resyncRateLimited d
  | .resyncFailed d source => .resyncFailed d source
  | e => .resyncFailed did e

end Shrike.Sync
