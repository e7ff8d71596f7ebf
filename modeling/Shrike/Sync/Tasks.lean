import Shrike.Sync.Resync

/-!
# The verifier

The calls of the verifier and its background jobs as tasks that interleave at every point where they
wait: for the lock of a repository, for the stored state, for identities and for repositories.
-/

namespace Shrike.Sync

open Cbor Syntax Mst Car Repo Bytes Streaming

/-! ### Phases -/

/-- Where a commit is being verified, or what came of it. -/
inductive CommitPhase where
  | starting
  | buffering
  | locking
  | gating
  | checking
  | recovering (e : VerifierError) (chain : Option ChainState)
  | registering (job : ℕ)
  | saving (chain : Option ChainState) (decoded : DecodedCommitCar)
      (chainError : Option VerifierError)
  | returned (result : Answer)

/-- Where a repository is being fetched anew, or what came of it. -/
inductive ResyncPhase where
  | lockingFirst
  | gatingFirst
  | limiting
  | fetching
  | locking (loaded : LoadedRepo)
  | gating (loaded : LoadedRepo)
  | checking (loaded : LoadedRepo)
  | saving (chain : Option ChainState) (loaded : LoadedRepo)
  | returned (result : Except VerifierError (List VerifierOp))

/-- Where the state of a repository is being verified, or what came of it. -/
inductive SyncPhase where
  | starting
  | locking (rev : Tid)
  | gating (rev : Tid)
  | checking (rev : Tid)
  | saving (chain : Option ChainState) (rev : Tid) (inner : Commit)
  | resyncing (phase : ResyncPhase)
  | returned (result : Answer)

/-- Where a background job is. -/
inductive JobPhase where
  | reading
  | resyncing (oldRev : Option Bytes) (reason : String) (phase : ResyncPhase)
  | failing (e : VerifierError)
  | draining (oldRev : Option Bytes) (reason : String) (ops : List VerifierOp)
  | settling (oldRev : Option Bytes) (reason : String) (ops : List VerifierOp)
  | verifying (oldRev : Option Bytes) (reason : String) (ops : List VerifierOp) (raw : RawCommit)
      (phase : CommitPhase) (rest : List RawCommit)
  | finishing (oldRev : Option Bytes) (reason : String) (ops : List VerifierOp)
  | sending (event : ResyncEvent)
  | returned

/-- Where the status of an account is being stored. -/
inductive AccountPhase where
  | locking
  | loading
  | saving
  | returned (result : Except VerifierError Unit)

/-- A call or a job. -/
inductive Task where
  | verifyCommit (raw : RawCommit) (phase : CommitPhase)
  | verifySync (raw : RawSync) (phase : SyncPhase)
  | resync (did : Did) (phase : ResyncPhase)
  | job (did : Did) (phase : JobPhase)
  | account (raw : RawAccount) (phase : AccountPhase)

/-- What a caller can ask for. -/
inductive Call where
  | verifyCommit (raw : RawCommit)
  | verifySync (raw : RawSync)
  | resync (did : Did)
  | account (raw : RawAccount)

/-- The task of a call, before its first step. -/
def Call.start : Call → Task
  | .verifyCommit raw => .verifyCommit raw .starting
  | .verifySync raw => .verifySync raw .starting
  | .resync did => .resync did .lockingFirst
  | .account raw => .account raw .locking

/-- The repository of a task. -/
def Task.did : Task → Did
  | .verifyCommit raw _ => raw.repo
  | .verifySync raw _ => raw.did
  | .resync did _ => did
  | .job did _ => did
  | .account raw _ => raw.did

/-- Whether the lock is held. -/
def CommitPhase.holds : CommitPhase → Bool
  | .gating => true
  | .checking => true
  | .recovering _ _ => true
  | .registering _ => true
  | .saving _ _ _ => true
  | _ => false

/-- Whether the lock is held. -/
def ResyncPhase.holds : ResyncPhase → Bool
  | .gatingFirst => true
  | .gating _ => true
  | .checking _ => true
  | .saving _ _ => true
  | _ => false

/-- Whether the lock is held. -/
def SyncPhase.holds : SyncPhase → Bool
  | .gating _ => true
  | .checking _ => true
  | .saving _ _ _ => true
  | .resyncing phase => phase.holds
  | _ => false

/-- Whether the lock is held. -/
def JobPhase.holds : JobPhase → Bool
  | .resyncing _ _ phase => phase.holds
  | .verifying _ _ _ _ phase _ => phase.holds
  | _ => false

/-- Whether the lock is held. -/
def AccountPhase.holds : AccountPhase → Bool
  | .loading => true
  | .saving => true
  | _ => false

/-- Whether a task holds the lock of its repository. -/
def Task.holds : Task → Bool
  | .verifyCommit _ phase => phase.holds
  | .verifySync _ phase => phase.holds
  | .resync _ phase => phase.holds
  | .job _ phase => phase.holds
  | .account _ phase => phase.holds

/-! ### States -/

/-- A repository that is being fetched in the background, with the commits that wait for it. -/
structure PendingResync where
  oldRev : Option Bytes
  reason : String
  commits : List RawCommit

/-- What happened: a state was saved over another one, the operations of a commit were let through,
the event of a fetched repository was sent, or an error. -/
inductive Entry where
  | saved (did : Did) (prior : Option ChainState) (state : ChainState)
  | verified (task : ℕ) (raw : RawCommit) (ops : List VerifierOp)
  | event (event : ResyncEvent)
  | asyncError (e : VerifierError)

/-- The verifier: the stored states, the locks, the repositories that are being fetched, the jobs
whose handles are kept, those that were aborted, the tasks, and what happened so far, the latest
first. -/
structure State where
  chains : Did → Option ChainState
  hostings : Did → Option HostingState
  locks : ℕ → Option ℕ
  pending : Did → Option PendingResync
  closed : Bool
  handles : List ℕ
  aborted : List ℕ
  tasks : ℕ → Option Task
  log : List Entry

/-- What a task is given when it goes on: the time, failures of the store, keys, a repository,
whether the limit of fetches allows one more, and the number of a new job. -/
structure Input where
  now : ℕ
  loadError : Option String
  saveError : Option String
  answer : ResolverAnswer
  stream : RepoCarStream
  allowed : Bool
  spawned : ℕ

/-- A verifier: its options, and the lock of each repository. -/
structure VerifierConfig where
  texts : Texts
  opts : VerifierOptions
  lockStripe : Did → ℕ

variable (config : VerifierConfig)

namespace State

/-- A task goes on. When it stops holding its lock, the lock is released. -/
def put (s : State) (t : ℕ) (task : Task) : State :=
  { s with
    tasks := Function.update s.tasks t (some task)
    locks :=
      if s.locks (config.lockStripe task.did) = some t ∧ task.holds = false then
        Function.update s.locks (config.lockStripe task.did) none
      else s.locks }

/-- Take the lock of a repository. -/
def lock (s : State) (did : Did) (t : ℕ) : State :=
  { s with locks := Function.update s.locks (config.lockStripe did) (some t) }

/-- Something happens. -/
def record (s : State) (entries : List Entry) : State := { s with log := entries ++ s.log }

/-- Load the stored state of a repository. -/
def loadChain (s : State) (did : Did) (input : Input) : Except VerifierError (Option ChainState) :=
  match input.loadError with
  | some e => .error (.stateStore e)
  | none => .ok (s.chains did)

/-- Store the state of a repository. -/
def store (s : State) (did : Did) (chain : ChainState) : State :=
  { s with
    chains := Function.update s.chains did (some chain)
    log := .saved did (s.chains did) chain :: s.log }

/-- Save the state of a repository. -/
def saveChain (s : State) (did : Did) (chain : ChainState) (input : Input) :
    Except VerifierError State :=
  match input.saveError with
  | some e => .error (.stateStore e)
  | none => .ok (s.store did chain)

/-- Refuse what comes from an inactive account, whose status is only loaded if the policy asks for
it. -/
def checkGate (s : State) (did : Did) (input : Input) : Except VerifierError Unit :=
  if config.opts.hostingPolicy ≠ .gate then .ok ()
  else match input.loadError with
    | some e => .error (.stateStore e)
    | none => checkHostingGate config.opts did (s.hostings did)

/-- Let a commit wait for the repository that is being fetched. -/
def pushPending (s : State) (pending : PendingResync) (raw : RawCommit) : State :=
  if config.opts.pendingQueueCapacity ≤ pending.commits.length then
    s.record [.asyncError (.bufferOverflow raw.repo pending.commits.length
      config.opts.pendingQueueCapacity)]
  else { s with
    pending := Function.update s.pending raw.repo
      (some { pending with commits := pending.commits ++ [raw] }) }

/-- Fetch a repository in the background, after a commit that failed. -/
def enqueueResync (s : State) (raw : RawCommit) (oldRev : Option Bytes) (e : VerifierError)
    (input : Input) : State :=
  match s.pending raw.repo with
  | some pending => s.pushPending config pending raw
  | none => { s with
      pending := Function.update s.pending raw.repo
        (some { oldRev, reason := config.texts.verifier e, commits := [] })
      tasks := Function.update s.tasks input.spawned (some (.job raw.repo .reading)) }

/-- Whether there is no more to do for a task. -/
def isFinished (s : State) (t : ℕ) : Bool :=
  match s.tasks t with
  | some (.job _ .returned) => true
  | some _ => false
  | none => true

/-- Keep the handle of a job, and no more those of jobs that are finished. -/
def register (s : State) (job : ℕ) : State :=
  { s with handles := s.handles.filter (fun t => !s.isFinished t) ++ [job] }

end State

/-! ### Steps -/

section

variable [Hashing]

/-- A step of the verification of a commit. Only a commit that comes from outside is put aside, or
lets its repository be fetched. -/
def stepCommit (s : State) (t : ℕ) (wrap : CommitPhase → Task) (raw : RawCommit)
    (allowAsyncResync : Bool) (phase : CommitPhase) (input : Input) : State :=
  match phase with
  | .starting =>
      match rejectFutureRev config.opts input.now raw >>= fun _ => rejectOversized raw with
      | .error e => s.put config t (wrap (.returned (.error e)))
      | .ok () =>
          if allowAsyncResync then s.put config t (wrap .buffering)
          else s.put config t (wrap .locking)
  | .buffering =>
      if config.opts.asyncResyncWorkers = 0 ∨ s.closed = true then s.put config t (wrap .locking)
      else match s.pending raw.repo with
        | none => s.put config t (wrap .locking)
        | some pending =>
            (s.pushPending config pending raw).put config t (wrap (.returned (.ok none)))
  | .locking => (s.lock config raw.repo t).put config t (wrap .gating)
  | .gating =>
      match s.checkGate config raw.repo input with
      | .error e => s.put config t (wrap (.returned (.error e)))
      | .ok () => s.put config t (wrap .checking)
  | .checking =>
      match s.loadChain raw.repo input with
      | .error e => s.put config t (wrap (.returned (.error e)))
      | .ok chain =>
          match checkCommit config.texts config.opts raw chain input.answer with
          | .replay => s.put config t (wrap (.returned (.ok none)))
          | .failed e => s.put config t (wrap (.returned (.error e)))
          | .recoverable e => s.put config t (wrap (.recovering e chain))
          | .accepted decoded chainError =>
              s.put config t (wrap (.saving chain decoded chainError))
  | .recovering e chain =>
      if config.opts.verifierPolicy = .resync ∧ allowAsyncResync = true ∧
          0 < config.opts.asyncResyncWorkers ∧ s.closed = false then
        -- a job that is new may run before its handle is kept
        let next : CommitPhase := match s.pending raw.repo with
          | some _ => .returned (.ok none)
          | none => .registering input.spawned
        (s.enqueueResync config raw (chain.map ChainState.rev) e input).put config t (wrap next)
      else s.put config t (wrap (.returned (.error e)))
  | .registering job => (s.register job).put config t (wrap (.returned (.ok none)))
  | .saving _ decoded chainError =>
      match s.saveChain raw.repo ⟨raw.rev.format, decoded.inner.data⟩ input with
      | .error e => s.put config t (wrap (.returned (.error (chainError.getD e))))
      | .ok s =>
          match chainError with
          | some e => s.put config t (wrap (.returned (.error e)))
          | none =>
              let ops := verifierOps raw decoded.store
              (s.put config t (wrap (.returned (.ok (some ops))))).record [.verified t raw ops]
  | .returned _ => s

/-- A step of the fetch of a repository. -/
def stepResync (s : State) (t : ℕ) (wrap : ResyncPhase → Task) (did : Did) (phase : ResyncPhase)
    (input : Input) : State :=
  let fail (e : VerifierError) : State :=
    s.put config t (wrap (.returned (.error (wrapResyncError did e))))
  match phase with
  | .lockingFirst => (s.lock config did t).put config t (wrap .gatingFirst)
  | .gatingFirst =>
      match s.checkGate config did input with
      | .error e => fail e
      | .ok () => s.put config t (wrap .limiting)
  | .limiting =>
      if input.allowed then s.put config t (wrap .fetching)
      else fail (.resyncRateLimited did)
  | .fetching =>
      match fetchRepo config.texts config.opts did input.stream with
      | .error e => fail e
      | .ok loaded =>
          match verifyLoadedRepo config.texts did loaded input.answer with
          | .error e => fail e
          | .ok () => s.put config t (wrap (.locking loaded))
  | .locking loaded => (s.lock config did t).put config t (wrap (.gating loaded))
  | .gating loaded =>
      match s.checkGate config did input with
      | .error e => fail e
      | .ok () => s.put config t (wrap (.checking loaded))
  | .checking loaded =>
      match s.loadChain did input with
      | .error e => fail e
      | .ok chain =>
          match checkRegression did loaded chain with
          | .error e => fail e
          | .ok () => s.put config t (wrap (.saving chain loaded))
  | .saving _ loaded =>
      match s.saveChain did ⟨loaded.commit.rev.format, loaded.commit.data⟩ input with
      | .error e => fail e
      | .ok s => s.put config t (wrap (.returned (.ok loaded.ops)))
  | .returned _ => s

/-- A step of the verification of the state of a repository. -/
def stepSync (s : State) (t : ℕ) (raw : RawSync) (phase : SyncPhase) (input : Input) : State :=
  let next (phase : SyncPhase) : State := s.put config t (.verifySync raw phase)
  match phase with
  | .starting =>
      match parseSyncRev raw with
      | .error e => next (.returned (.error e))
      | .ok rev =>
          match rejectFutureSyncRev config.opts input.now raw rev with
          | .error e => next (.returned (.error e))
          | .ok () => next (.locking rev)
  | .locking rev => (s.lock config raw.did t).put config t (.verifySync raw (.gating rev))
  | .gating rev =>
      match s.checkGate config raw.did input with
      | .error e => next (.returned (.error e))
      | .ok () => next (.checking rev)
  | .checking rev =>
      match s.loadChain raw.did input with
      | .error e => next (.returned (.error e))
      | .ok chain =>
          match checkSync config.texts raw rev chain input.answer with
          | .replay => next (.returned (.ok none))
          | .failed e => next (.returned (.error e))
          | .resync => next (.resyncing .lockingFirst)
          | .confirmed inner => next (.saving chain rev inner)
  | .saving _ rev inner =>
      match s.saveChain raw.did ⟨rev.format, inner.data⟩ input with
      | .error e => next (.returned (.error e))
      | .ok s => s.put config t (.verifySync raw (.returned (.ok none)))
  | .resyncing (.returned result) => next (.returned (result.map some))
  | .resyncing phase =>
      stepResync config s t (fun phase => .verifySync raw (.resyncing phase)) raw.did phase input
  | .returned _ => s

/-- A step of a background job. -/
def stepJob (s : State) (t : ℕ) (did : Did) (phase : JobPhase) (input : Input) : State :=
  let next (phase : JobPhase) : State := s.put config t (.job did phase)
  match phase with
  | .reading =>
      match s.pending did with
      | none => next .returned
      | some pending => next (.resyncing pending.oldRev pending.reason .lockingFirst)
  | .resyncing oldRev reason (.returned (.ok ops)) => next (.draining oldRev reason ops)
  | .resyncing _ _ (.returned (.error e)) => next (.failing e)
  | .resyncing oldRev reason phase =>
      stepResync config s t (fun phase => .job did (.resyncing oldRev reason phase)) did phase input
  | .failing e =>
      ({ s with pending := Function.update s.pending did none }.put config t
        (.job did .returned)).record [.asyncError e]
  | .draining oldRev reason ops =>
      match s.pending did with
      | none => next (.settling oldRev reason ops)
      | some pending =>
          match pending.commits with
          | [] => next (.settling oldRev reason ops)
          | raw :: rest =>
              let drained : PendingResync := { pending with commits := [] }
              let s := { s with pending := Function.update s.pending did (some drained) }
              s.put config t (.job did (.verifying oldRev reason ops raw .starting rest))
  | .settling oldRev reason ops =>
      match s.pending did with
      | none => next (.draining oldRev reason ops)
      | some pending =>
          if pending.commits = [] then
            { s with pending := Function.update s.pending did none }.put config t
              (.job did (.finishing oldRev reason ops))
          else next (.draining oldRev reason ops)
  | .verifying oldRev reason ops _ (.returned result) rest =>
      let s := match result with
        | .error e => s.record [.asyncError e]
        | .ok _ => s
      let ops := match result with
        | .ok (some more) => ops ++ more
        | _ => ops
      match rest with
      | [] => s.put config t (.job did (.draining oldRev reason ops))
      | raw :: rest => s.put config t (.job did (.verifying oldRev reason ops raw .starting rest))
  | .verifying oldRev reason ops raw phase rest =>
      stepCommit config s t (fun phase => .job did (.verifying oldRev reason ops raw phase rest)) raw
        false phase input
  | .finishing oldRev reason ops =>
      match s.loadChain did input with
      | .error e => (next (.sending { did, oldRev, newRev := [], reason, ops })).record [.asyncError e]
      | .ok chain =>
          next (.sending { did, oldRev, newRev := (chain.map ChainState.rev).getD [], reason, ops })
  | .sending event => (next .returned).record [.event event]
  | .returned => s

/-- A step of the storage of the status of an account. -/
def stepAccount (s : State) (t : ℕ) (raw : RawAccount) (phase : AccountPhase) (input : Input) :
    State :=
  let next (phase : AccountPhase) : State := s.put config t (.account raw phase)
  match phase with
  | .locking => (s.lock config raw.did t).put config t (.account raw .loading)
  | .loading =>
      match input.loadError with
      | some e => next (.returned (.error (.stateStore e)))
      | none =>
          if ((s.hostings raw.did).map fun state => decide (raw.seq ≤ state.seq)).getD false then
            next (.returned (.ok ()))
          else next .saving
  | .saving =>
      match input.saveError with
      | some e => next (.returned (.error (.stateStore e)))
      | none =>
          let hosting : HostingState := ⟨raw.active, raw.status, raw.seq, raw.time⟩
          let s := { s with hostings := Function.update s.hostings raw.did (some hosting) }
          s.put config t (.account raw (.returned (.ok ())))
  | .returned _ => s

/-- A step of a task. -/
def stepTask (s : State) (t : ℕ) (task : Task) (input : Input) : State :=
  match task with
  | .verifyCommit raw phase => stepCommit config s t (.verifyCommit raw) raw true phase input
  | .verifySync raw phase => stepSync config s t raw phase input
  | .resync did phase => stepResync config s t (.resync did) did phase input
  | .job did phase => stepJob config s t did phase input
  | .account raw phase => stepAccount config s t raw phase input

end

/-! ### Runs -/

def CommitPhase.isLocking : CommitPhase → Bool
  | .locking => true
  | _ => false

def ResyncPhase.isLocking : ResyncPhase → Bool
  | .lockingFirst => true
  | .locking _ => true
  | _ => false

def SyncPhase.isLocking : SyncPhase → Bool
  | .locking _ => true
  | .resyncing phase => phase.isLocking
  | _ => false

def JobPhase.isLocking : JobPhase → Bool
  | .resyncing _ _ phase => phase.isLocking
  | .verifying _ _ _ _ phase _ => phase.isLocking
  | _ => false

def AccountPhase.isLocking : AccountPhase → Bool
  | .locking => true
  | _ => false

/-- Whether a task waits for the lock of its repository. -/
def Task.isLocking : Task → Bool
  | .verifyCommit _ phase => phase.isLocking
  | .verifySync _ phase => phase.isLocking
  | .resync _ phase => phase.isLocking
  | .job _ phase => phase.isLocking
  | .account _ phase => phase.isLocking

namespace State

/-- Some tasks are given up. They release their locks, and their handles are those of no task. -/
def drop (s : State) (given : ℕ → Prop) [DecidablePred given] : State :=
  { s with
    handles := s.handles.filter fun t => ¬given t
    aborted := s.aborted.filter fun t => ¬given t
    tasks := fun t => if given t then none else s.tasks t
    locks := fun stripe => (s.locks stripe).filter fun t => ¬given t }

/-- The verifier is closed: nothing waits for repositories any more, and the jobs whose handles are
kept are aborted. Where an aborted job next has to wait, it is given up. -/
def close (s : State) : State :=
  { s with
    closed := true
    pending := fun _ => none
    aborted := s.handles ++ s.aborted
    handles := [] }

/-- The verifier before its first call. -/
structure Initial (s : State) : Prop where
  locks : ∀ stripe, s.locks stripe = none
  pending : ∀ did, s.pending did = none
  handles : s.handles = []
  aborted : s.aborted = []
  tasks : ∀ t, s.tasks t = none
  log : s.log = []

end State

variable [Hashing]

/-- The steps of the verifier: a call, a step of a task that does not wait for a lock that is taken
and for which the input is one of the `allowed`, calls and jobs that are given up, and the end. -/
inductive Step (allowed : Task → Input → Prop) : State → State → Prop where
  | call {s : State} {t : ℕ} (call : Call) (new : s.tasks t = none) :
      Step allowed s (s.put config t call.start)
  | task {s : State} {t : ℕ} {task : Task} (input : Input) (running : s.tasks t = some task)
      (ready : task.isLocking = true → s.locks (config.lockStripe task.did) = none)
      (spawned : s.tasks input.spawned = none) (ok : allowed task input) :
      Step allowed s (stepTask config s t task input)
  | drop {s : State} (given : ℕ → Prop) [DecidablePred given] : Step allowed s (s.drop given)
  | close {s : State} : Step allowed s s.close

/-- The runs of the verifier. -/
abbrev Steps (allowed : Task → Input → Prop) : State → State → Prop :=
  Relation.ReflTransGen (Step config allowed)

end Shrike.Sync
