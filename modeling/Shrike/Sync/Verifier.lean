import Shrike.Streaming.Event
import Shrike.Sync.Inversion

/-!
# The checks of the verifier

What the verifier checks about commits and repository states against the state that it stored of a
repository: the checks themselves, from the moment at which the stored state is loaded to the moment
at which a new one is saved.
-/

namespace Shrike.Sync

open Cbor Syntax Mst Car Repo Bytes Streaming

/-! ### Options and states -/

/-- What happens to a commit that does not continue the stored state. -/
inductive VerifierPolicy where
  | resync
  | error
  deriving DecidableEq

/-- Whether commits of inactive accounts are refused. -/
inductive HostingPolicy where
  | track
  | gate
  deriving DecidableEq

/-- Whether commits of the old shape are accepted without an inversion. -/
inductive LegacyCommitPolicy where
  | accept
  | reject
  deriving DecidableEq

/-- The limits of a repository that is fetched. -/
structure RepoLoadLimits where
  maxCarBytes : ℕ
  maxBlocks : ℕ
  maxBlockBytes : ℕ
  maxRecords : ℕ

/-- The options of a verifier. -/
structure VerifierOptions where
  hasRepoSource : Bool
  verifierPolicy : VerifierPolicy
  hostingPolicy : HostingPolicy
  legacyCommitPolicy : LegacyCommitPolicy
  repoLoadLimits : RepoLoadLimits
  asyncResyncWorkers : ℕ
  pendingQueueCapacity : ℕ
  lenientInversion : Bool
  futureRevTolerance : ℕ

/-- The stored head of a repository. -/
structure ChainState where
  rev : Bytes
  data : Cid

/-- The stored status of an account. -/
structure HostingState where
  active : Bool
  status : Option Bytes
  seq : ℤ
  time : Bytes

/-- Whether an account is active: yes, until an event says otherwise. -/
def HostingState.isActive (hosting : Option HostingState) : Bool :=
  (hosting.map HostingState.active).getD true

/-- The size that the blocks of a commit may have. -/
def maxCommitBlocksBytes : ℕ := 2000000

/-- The operations that a commit may have. -/
def maxCommitOps : ℕ := 200

/-! ### Before the lock -/

/-- The time of a revision in microseconds. -/
def timestampMicros (rev : Tid) : ℕ := (rev.value >>> 10).toNat

/-- Whether a revision is further in the future than is tolerated. -/
def isFutureRev (opts : VerifierOptions) (now : ℕ) (rev : Tid) : Bool :=
  min (now + opts.futureRevTolerance) (2 ^ 64 - 1) < timestampMicros rev

def rejectFutureRev (opts : VerifierOptions) (now : ℕ) (raw : RawCommit) :
    Except VerifierError Unit :=
  Except.refuse (isFutureRev opts now raw.rev) (.futureRev raw.repo raw.rev.format)

def rejectOversized (raw : RawCommit) : Except VerifierError Unit := do
  Except.refuse (maxCommitBlocksBytes < raw.blocks.length)
    (.oversizedCommit raw.repo (some raw.rev.format) "blocks" raw.blocks.length maxCommitBlocksBytes)
  Except.refuse (maxCommitOps < raw.ops.length)
    (.oversizedCommit raw.repo (some raw.rev.format) "ops" raw.ops.length maxCommitOps)

/-- The revision of an event with the state of a repository. -/
def parseSyncRev (raw : RawSync) : Except VerifierError Tid :=
  (Tid.tryFrom raw.rev).mapError fun _ =>
    .fieldMismatch raw.did (some raw.rev) "rev" (ascii "valid TID") raw.rev

def rejectFutureSyncRev (opts : VerifierOptions) (now : ℕ) (raw : RawSync) (rev : Tid) :
    Except VerifierError Unit :=
  Except.refuse (isFutureRev opts now rev) (.futureRev raw.did raw.rev)

/-- Refuse what comes from an account that is not active, if the policy says so. -/
def checkHostingGate (opts : VerifierOptions) (did : Did) (hosting : Option HostingState) :
    Except VerifierError Unit :=
  Except.refuse (opts.hostingPolicy = .gate ∧ HostingState.isActive hosting = false)
    (.repoInactive did (hosting.bind HostingState.status) (hosting.map HostingState.seq)
      (hosting.map HostingState.time))

/-! ### The chain -/

/-- The revision of a stored state. -/
def chainRev (did : Did) (rev : Tid) (chain : ChainState) : Except VerifierError Tid :=
  (Tid.tryFrom chain.rev).mapError fun _ =>
    .fieldMismatch did (some rev.format) "chain.rev" (ascii "valid TID") chain.rev

/-- Whether a revision is not after the stored one. -/
def isRevReplay (did : Did) (rev : Tid) (chain : Option ChainState) : Except VerifierError Bool :=
  match chain with
  | none => .ok false
  | some chain => (chainRev did rev chain).map fun current => rev.value ≤ current.value

/-- Whether a commit has the shape it had before operations named previous values. -/
def isLegacyShape (raw : RawCommit) (chain : Option ChainState) : Bool :=
  chain.isSome && raw.prevData.isNone && !raw.ops.isEmpty &&
    (raw.ops.filter fun op => op.action = ascii "update" ∨ op.action = ascii "delete").all
      fun op => op.prev.isNone

/-- The revision of the error of a decoding says that the CAR is of another commit. -/
def isCarRootMismatch : VerifierError → Bool
  | .fieldMismatch _ _ field _ _ => field = "commit"
  | _ => false

/-- What a check that fails is turned into by the policy: an error that is reported after the state
is saved, or one that asks for the repository. -/
def chainBroken (texts : Texts) (opts : VerifierOptions) (raw : RawCommit) (err : VerifierError) :
    Except VerifierError (Option VerifierError) :=
  match opts.verifierPolicy with
  | .error => .ok (some err)
  | .resync => .error (.resyncRequired raw.repo (texts.verifier err))

/-- Check that a commit continues the stored state. -/
def checkChain (texts : Texts) (opts : VerifierOptions) (raw : RawCommit)
    (chain : Option ChainState) (previousRoot : Option Cid) :
    Except VerifierError (Option VerifierError) :=
  match chain with
  | none => .ok none
  | some chain =>
      if previousRoot = none then .ok none
      else
        let expected := some chain.data
        if raw.prevData = expected ∧ previousRoot ≠ expected then
          if opts.lenientInversion then .ok none
          else chainBroken texts opts raw
            (.chainBreak raw.repo raw.rev.format expected previousRoot)
        else if raw.prevData = expected ∧ previousRoot = expected then .ok none
        else chainBroken texts opts raw
          (.chainBreak raw.repo raw.rev.format expected (raw.prevData.or previousRoot))

/-- Check the fields of a commit against those of its event. -/
def checkFields (did : Did) (rev : Bytes) (expectedRev : Tid) (inner : Commit) :
    Except VerifierError Unit := do
  Except.refuse (inner.did ≠ did) (.fieldMismatch did (some rev) "did" did.raw inner.did.raw)
  Except.refuse (inner.rev ≠ expectedRev)
    (.fieldMismatch did (some rev) "rev" rev inner.rev.format)
  Except.refuse (inner.version ≠ 3)
    (.fieldMismatch did (some rev) "version" (ascii "3") (ascii (toString inner.version)))

/-! ### Signatures -/

/-- What the resolver of identities answers: the signing key in the document of a DID, again after
the document was dropped from its cache. -/
structure ResolverAnswer where
  first : Except String (Option VerifyingKey)
  purge : Except String Unit
  second : Except String (Option VerifyingKey)

/-- Why a signature was not verified. -/
inductive SignatureAttemptError where
  | identity (e : VerifierError)
  | invalid (reason : String)

def verifySignatureOnce (texts : Texts) (did : Did) (inner : Commit)
    (answer : Except String (Option VerifyingKey)) : Except SignatureAttemptError Unit := do
  let key ← answer.mapError fun source => .identity (.identity did source)
  let key ← Except.ofOption (.invalid "identity has no #atproto signing key") key
  (inner.verify key).mapError fun e => .invalid (texts.repo e)

/-- Verify a signature, a second time with a fresh key if it is not valid. -/
def verifySignature (texts : Texts) (did : Did) (rev : Tid) (inner : Commit)
    (answer : ResolverAnswer) : Except VerifierError Unit :=
  match verifySignatureOnce texts did inner answer.first with
  | .ok () => .ok ()
  | .error (.identity e) => .error e
  | .error (.invalid firstReason) => do
      answer.purge.mapError (VerifierError.identity did)
      match verifySignatureOnce texts did inner answer.second with
      | .ok () => .ok ()
      | .error (.identity e) => .error e
      | .error (.invalid secondReason) => .error (.signatureInvalid did rev.format
          (firstReason ++ "; after refresh: " ++ secondReason))

section

variable [Hashing] (texts : Texts) (opts : VerifierOptions)

/-- The root before a commit, if there is a stored state to compare it to. -/
def previousRoot (raw : RawCommit) (inner : Commit) (store : Blocks) (chain : Option ChainState) :
    Except VerifierError (Option Cid) :=
  if chain = none then .ok none
  else if isLegacyShape raw chain then
    if opts.legacyCommitPolicy = .reject then
      .error (.legacyCommit raw.repo raw.rev.format (chain.map ChainState.rev)
        (chain.map ChainState.data))
    else .ok none
  else (invertDecodedCommit texts raw inner store).map some

/-- The verified operations of a commit, with the records that came with it. -/
def verifierOps (raw : RawCommit) (store : Blocks) : List VerifierOp :=
  raw.ops.map fun op => {
    repo := raw.repo, rev := raw.rev, action := op.action, path := op.path, cid := op.cid,
    prev := op.prev, record := (op.cid.bind store).getD [] }

/-! ### Checking an event -/

/-- What becomes of a commit: it is dropped, it fails for good or in a way that fetching the
repository may help with, or the state after it is saved. -/
inductive CommitCheck where
  | replay
  | failed (e : VerifierError)
  | recoverable (e : VerifierError)
  | accepted (decoded : DecodedCommitCar) (chainError : Option VerifierError)

/-- The checks of a commit after its signature. -/
def checkSigned (raw : RawCommit) (decoded : DecodedCommitCar)
    (chainError : Option VerifierError) : CommitCheck :=
  match checkOpCids texts raw decoded.inner.data decoded.store with
  | .error e => .recoverable e
  | .ok () => .accepted decoded chainError

/-- The checks of a commit whose CAR could be read. -/
def checkDecoded (raw : RawCommit) (chain : Option ChainState) (answer : ResolverAnswer)
    (decoded : DecodedCommitCar) : CommitCheck :=
  match previousRoot texts opts raw decoded.inner decoded.store chain with
  | .error e => .recoverable e
  | .ok root =>
      match checkChain texts opts raw chain root with
      | .error e => .recoverable e
      | .ok chainError =>
          match checkFields raw.repo raw.rev.format raw.rev decoded.inner with
          | .error e => .failed e
          | .ok () =>
              match verifySignature texts raw.repo raw.rev decoded.inner answer with
              | .error e => .failed e
              | .ok () => checkSigned texts raw decoded chainError

/-- The checks of a commit against the stored state. -/
def checkCommit (raw : RawCommit) (chain : Option ChainState) (answer : ResolverAnswer) :
    CommitCheck :=
  match isRevReplay raw.repo raw.rev chain with
  | .error e => .failed e
  | .ok true => .replay
  | .ok false =>
      match findDuplicatePath raw.ops [] with
      | some path => .recoverable (.duplicatePath raw.repo raw.rev.format path)
      | none =>
          match decodeCommitCar texts raw with
          | .error e => if isCarRootMismatch e then .failed e else .recoverable e
          | .ok decoded => checkDecoded texts opts raw chain answer decoded

/-- What becomes of the state of a repository. -/
inductive SyncCheck where
  | replay
  | failed (e : VerifierError)
  | confirmed (inner : Commit)
  | resync

/-- The checks of the state of a repository against the stored state. -/
def checkSync (raw : RawSync) (rev : Tid) (chain : Option ChainState) (answer : ResolverAnswer) :
    SyncCheck :=
  match isRevReplay raw.did rev chain with
  | .error e => .failed e
  | .ok true => .replay
  | .ok false =>
      match chain with
      | none => .resync
      | some chain =>
          if raw.blocks = [] ∨ maxCommitBlocksBytes < raw.blocks.length then .resync
          else match decodeSyncCommit texts raw.did raw.rev raw.blocks with
            | .error _ => .resync
            | .ok inner =>
                if inner.data ≠ chain.data then .resync
                else match checkFields raw.did raw.rev rev inner with
                  | .error e => .failed e
                  | .ok () =>
                      match verifySignature texts raw.did inner.rev inner answer with
                      | .error e => .failed e
                      | .ok () => .confirmed inner

end

end Shrike.Sync
