import Shrike.Data.History
import Shrike.Sync.Tasks

/-!
# The moves of tasks

What each step of a task does, one case for each way to go on, and the runs of the verifier with all
steps they consist of.
-/

namespace Shrike.Sync

open Cbor Syntax Mst Car Repo Bytes Streaming

variable (config : VerifierConfig) (s : State) (t : ℕ)

/-! ### Moves -/

/-- What the storage of the status of an account does. -/
inductive AccountMove (raw : RawAccount) (input : Input) :
    AccountPhase → AccountPhase → State → Prop where
  | locked : AccountMove raw input .locking .loading (s.lock config raw.did t)
  | done {phase : AccountPhase} (result : Except VerifierError Unit)
      (waiting : phase.isLocking = false) (running : ∀ result, phase ≠ .returned result) :
      AccountMove raw input phase (.returned result) s
  | loaded : AccountMove raw input .loading .saving s
  | saved (h : input.saveError = none) :
      AccountMove raw input .saving (.returned (.ok ())) { s with
        hostings := Function.update s.hostings raw.did
          (some ⟨raw.active, raw.status, raw.seq, raw.time⟩) }

/-- A step of the storage of the status of an account that has not returned is a move. -/
theorem stepAccount_move (raw : RawAccount) (phase : AccountPhase) (input : Input) :
  (∃ result, phase = .returned result) ∨ ∃ next s₁,
    AccountMove config s t raw input phase next s₁ ∧
      stepAccount config s t raw phase input = s₁.put config t (.account raw next)
  := by
  cases phase with
  | locking => exact .inr ⟨_, _, .locked, rfl⟩
  | loading =>
      right
      rw [stepAccount]
      split
      · exact ⟨_, _, .done _ rfl nofun, rfl⟩
      · split_ifs
        · exact ⟨_, _, .done _ rfl nofun, rfl⟩
        · exact ⟨_, _, .loaded, rfl⟩
  | saving =>
      right
      rw [stepAccount]
      split
      · exact ⟨_, _, .done _ rfl nofun, rfl⟩
      · rename_i h
        exact ⟨_, _, .saved h, rfl⟩
  | returned result => exact .inl ⟨result, rfl⟩

variable [Hashing]

/-- What the verification of a commit does: where it goes on, what it changes besides itself, and
what happens. -/
inductive CommitMove (raw : RawCommit) (allowAsyncResync : Bool) (input : Input) :
    CommitPhase → CommitPhase → State → List Entry → Prop where
  | refused {e} (h : (rejectFutureRev config.opts input.now raw >>= fun _ => rejectOversized raw) =
        .error e) :
      CommitMove raw allowAsyncResync input .starting (.returned (.error e)) s []
  | admitted
      (h : (rejectFutureRev config.opts input.now raw >>= fun _ => rejectOversized raw) = .ok ()) :
      CommitMove raw allowAsyncResync input .starting
        (if allowAsyncResync then .buffering else .locking) s []
  | passed (h : config.opts.asyncResyncWorkers = 0 ∨ s.closed = true ∨ s.pending raw.repo = none) :
      CommitMove raw allowAsyncResync input .buffering .locking s []
  | buffered {pending} (workers : config.opts.asyncResyncWorkers ≠ 0)
      (opened : s.closed = false) (h : s.pending raw.repo = some pending) :
      CommitMove raw allowAsyncResync input .buffering (.returned (.ok none))
        (s.pushPending config pending raw) []
  | locked : CommitMove raw allowAsyncResync input .locking .gating (s.lock config raw.repo t) []
  | inactive {e} (h : s.checkGate config raw.repo input = .error e) :
      CommitMove raw allowAsyncResync input .gating (.returned (.error e)) s []
  | active (h : s.checkGate config raw.repo input = .ok ()) :
      CommitMove raw allowAsyncResync input .gating .checking s []
  | unloaded {e} (h : s.loadChain raw.repo input = .error e) :
      CommitMove raw allowAsyncResync input .checking (.returned (.error e)) s []
  | replayed {chain} (h : s.loadChain raw.repo input = .ok chain)
      (check : checkCommit config.texts config.opts raw chain input.answer = .replay) :
      CommitMove raw allowAsyncResync input .checking (.returned (.ok none)) s []
  | failed {chain e} (h : s.loadChain raw.repo input = .ok chain)
      (check : checkCommit config.texts config.opts raw chain input.answer = .failed e) :
      CommitMove raw allowAsyncResync input .checking (.returned (.error e)) s []
  | diverged {chain e} (h : s.loadChain raw.repo input = .ok chain)
      (check : checkCommit config.texts config.opts raw chain input.answer = .recoverable e) :
      CommitMove raw allowAsyncResync input .checking (.recovering e chain) s []
  | accepted {chain decoded chainError} (h : s.loadChain raw.repo input = .ok chain)
      (check : checkCommit config.texts config.opts raw chain input.answer =
        .accepted decoded chainError) :
      CommitMove raw allowAsyncResync input .checking (.saving chain decoded chainError) s []
  | enqueued {e} {chain : Option ChainState} {pending}
      (outside : allowAsyncResync = true) (workers : config.opts.asyncResyncWorkers ≠ 0)
      (opened : s.closed = false) (h : s.pending raw.repo = some pending) :
      CommitMove raw allowAsyncResync input (.recovering e chain) (.returned (.ok none))
        (s.enqueueResync config raw (chain.map ChainState.rev) e input) []
  | spawned {e} {chain : Option ChainState} (outside : allowAsyncResync = true)
      (workers : config.opts.asyncResyncWorkers ≠ 0) (opened : s.closed = false)
      (h : s.pending raw.repo = none) :
      CommitMove raw allowAsyncResync input (.recovering e chain) (.registering input.spawned)
        (s.enqueueResync config raw (chain.map ChainState.rev) e input) []
  | registered {job} :
      CommitMove raw allowAsyncResync input (.registering job) (.returned (.ok none))
        (s.register job) []
  | unrecovered {e chain} :
      CommitMove raw allowAsyncResync input (.recovering e chain) (.returned (.error e)) s []
  | unsaved {e chain decoded} {chainError : Option VerifierError} (h : input.saveError = some e) :
      CommitMove raw allowAsyncResync input (.saving chain decoded chainError)
        (.returned (.error (chainError.getD (.stateStore e)))) s []
  | broken {e chain} {decoded : DecodedCommitCar} (h : input.saveError = none) :
      CommitMove raw allowAsyncResync input (.saving chain decoded (some e))
        (.returned (.error e)) (s.store raw.repo ⟨raw.rev.format, decoded.inner.data⟩) []
  | saved {chain} {decoded : DecodedCommitCar} (h : input.saveError = none) :
      CommitMove raw allowAsyncResync input (.saving chain decoded none)
        (.returned (.ok (some (verifierOps raw decoded.store))))
        (s.store raw.repo ⟨raw.rev.format, decoded.inner.data⟩)
        [.verified t raw (verifierOps raw decoded.store)]

/-- What the fetch of a repository does. -/
inductive ResyncMove (did : Did) (input : Input) : ResyncPhase → ResyncPhase → State → Prop where
  | lockedFirst : ResyncMove did input .lockingFirst .gatingFirst (s.lock config did t)
  | activeFirst (h : s.checkGate config did input = .ok ()) :
      ResyncMove did input .gatingFirst .limiting s
  | allowed (h : input.allowed = true) : ResyncMove did input .limiting .fetching s
  | fetched {loaded} (fetch : fetchRepo config.texts config.opts did input.stream = .ok loaded)
      (verify : verifyLoadedRepo config.texts did loaded input.answer = .ok ()) :
      ResyncMove did input .fetching (.locking loaded) s
  | locked {loaded} : ResyncMove did input (.locking loaded) (.gating loaded) (s.lock config did t)
  | active {loaded} (h : s.checkGate config did input = .ok ()) :
      ResyncMove did input (.gating loaded) (.checking loaded) s
  | checked {loaded chain}
      (h : s.loadChain did input = .ok chain) (check : checkRegression did loaded chain = .ok ()) :
      ResyncMove did input (.checking loaded) (.saving chain loaded) s
  | saved {loaded : LoadedRepo} {chain} (h : input.saveError = none) :
      ResyncMove did input (.saving chain loaded) (.returned (.ok loaded.ops))
        (s.store did ⟨loaded.commit.rev.format, loaded.commit.data⟩)
  | failed {phase : ResyncPhase} (e : VerifierError) (waiting : phase.isLocking = false)
      (running : ∀ result, phase ≠ .returned result) :
      ResyncMove did input phase (.returned (.error (wrapResyncError did e))) s

/-- What the verification of the state of a repository does. -/
inductive SyncMove (raw : RawSync) (input : Input) : SyncPhase → SyncPhase → State → Prop where
  | admitted {rev} (parse : parseSyncRev raw = .ok rev)
      (h : rejectFutureSyncRev config.opts input.now raw rev = .ok ()) :
      SyncMove raw input .starting (.locking rev) s
  | locked {rev} : SyncMove raw input (.locking rev) (.gating rev) (s.lock config raw.did t)
  | active {rev} (h : s.checkGate config raw.did input = .ok ()) :
      SyncMove raw input (.gating rev) (.checking rev) s
  | replayed {rev} : SyncMove raw input (.checking rev) (.returned (.ok none)) s
  | diverged {rev} : SyncMove raw input (.checking rev) (.resyncing .lockingFirst) s
  | confirmed {rev chain inner} (h : s.loadChain raw.did input = .ok chain)
      (check : checkSync config.texts raw rev chain input.answer = .confirmed inner) :
      SyncMove raw input (.checking rev) (.saving chain rev inner) s
  | saved {rev : Tid} {chain} {inner : Commit} (h : input.saveError = none) :
      SyncMove raw input (.saving chain rev inner) (.returned (.ok none))
        (s.store raw.did ⟨rev.format, inner.data⟩)
  | resync {phase next s₁} (move : ResyncMove config s t raw.did input phase next s₁) :
      SyncMove raw input (.resyncing phase) (.resyncing next) s₁
  | resynced {result : Except VerifierError (List VerifierOp)} :
      SyncMove raw input (.resyncing (.returned result)) (.returned (result.map some)) s
  | failed {phase : SyncPhase} (e : VerifierError) (waiting : phase.isLocking = false)
      (own : ∀ inner, phase ≠ .resyncing inner) (running : ∀ result, phase ≠ .returned result) :
      SyncMove raw input phase (.returned (.error e)) s

/-- The entry of a repository that is being fetched is removed. -/
def State.removePending (s : State) (did : Did) : State :=
  { s with pending := Function.update s.pending did none }

/-- The commits that wait for a repository are taken. -/
def State.drainPending (s : State) (did : Did) (pending : PendingResync) : State :=
  { s with pending := Function.update s.pending did (some { pending with commits := [] }) }

/-- What the verification of a waiting commit leaves in the log. -/
def State.recordAnswer (s : State) : Answer → State
  | .error e => s.record [.asyncError e]
  | .ok _ => s

/-- The operations of a job after the verification of a waiting commit. -/
def addOps (ops : List VerifierOp) : Answer → List VerifierOp
  | .ok (some more) => ops ++ more
  | _ => ops

/-- What a background job does. -/
inductive JobMove (did : Did) (input : Input) :
    JobPhase → JobPhase → State → List Entry → Prop where
  | absent (h : s.pending did = none) : JobMove did input .reading .returned s []
  | read {pending : PendingResync} (h : s.pending did = some pending) :
      JobMove did input .reading (.resyncing pending.oldRev pending.reason .lockingFirst) s []
  | resync {oldRev reason phase next s₁} (move : ResyncMove config s t did input phase next s₁) :
      JobMove did input (.resyncing oldRev reason phase) (.resyncing oldRev reason next) s₁ []
  | resynced {oldRev reason ops} :
      JobMove did input (.resyncing oldRev reason (.returned (.ok ops)))
        (.draining oldRev reason ops) s []
  | unsynced {oldRev reason e} :
      JobMove did input (.resyncing oldRev reason (.returned (.error e))) (.failing e) s []
  | gaveUp {e} : JobMove did input (.failing e) .returned (s.removePending did) [.asyncError e]
  | drained {oldRev reason ops} {pending : PendingResync} {raw rest}
      (h : s.pending did = some pending) (commits : pending.commits = raw :: rest) :
      JobMove did input (.draining oldRev reason ops)
        (.verifying oldRev reason ops raw .starting rest) (s.drainPending did pending) []
  | idle {oldRev reason ops} (h : ∀ pending, s.pending did = some pending → pending.commits = []) :
      JobMove did input (.draining oldRev reason ops) (.settling oldRev reason ops) s []
  | settled {oldRev reason ops}
      {pending : PendingResync} (h : s.pending did = some pending) (commits : pending.commits = []) :
      JobMove did input (.settling oldRev reason ops) (.finishing oldRev reason ops)
        (s.removePending did) []
  | again {oldRev reason ops} (h : ∀ pending, s.pending did = some pending → pending.commits ≠ []) :
      JobMove did input (.settling oldRev reason ops) (.draining oldRev reason ops) s []
  | verify {oldRev reason ops raw phase next rest s₁ entries}
      (move : CommitMove config s t raw false input phase next s₁ entries) :
      JobMove did input (.verifying oldRev reason ops raw phase rest)
        (.verifying oldRev reason ops raw next rest) s₁ entries
  | verifiedLast {oldRev reason ops raw result} :
      JobMove did input (.verifying oldRev reason ops raw (.returned result) [])
        (.draining oldRev reason (addOps ops result)) (s.recordAnswer result) []
  | verified {oldRev reason ops raw raw' result rest} :
      JobMove did input (.verifying oldRev reason ops raw (.returned result) (raw' :: rest))
        (.verifying oldRev reason (addOps ops result) raw' .starting rest)
        (s.recordAnswer result) []
  | finished {oldRev reason ops} (event : ResyncEvent) (errors : List VerifierError) :
      JobMove did input (.finishing oldRev reason ops) (.sending event) s
        (errors.map Entry.asyncError)
  | sent {event} : JobMove did input (.sending event) .returned s [.event event]

/-- What a task does. -/
inductive TaskMove (input : Input) : Task → Task → State → List Entry → Prop where
  | commit {raw phase next s₁ entries}
      (move : CommitMove config s t raw true input phase next s₁ entries) :
      TaskMove input (.verifyCommit raw phase) (.verifyCommit raw next) s₁ entries
  | sync {raw phase next s₁} (move : SyncMove config s t raw input phase next s₁) :
      TaskMove input (.verifySync raw phase) (.verifySync raw next) s₁ []
  | resync {did phase next s₁} (move : ResyncMove config s t did input phase next s₁) :
      TaskMove input (.resync did phase) (.resync did next) s₁ []
  | job {did phase next s₁ entries} (move : JobMove config s t did input phase next s₁ entries) :
      TaskMove input (.job did phase) (.job did next) s₁ entries
  | account {raw phase next s₁} (move : AccountMove config s t raw input phase next s₁) :
      TaskMove input (.account raw phase) (.account raw next) s₁ []

/-! ### Steps are moves -/

/-- A step of the verification of a commit that has not returned is a move. -/
theorem stepCommit_move (wrap : CommitPhase → Task) (raw : RawCommit) (allowAsyncResync : Bool)
    (phase : CommitPhase) (input : Input) :
  (∃ result, phase = .returned result) ∨ ∃ next s₁ entries,
    CommitMove config s t raw allowAsyncResync input phase next s₁ entries ∧
      stepCommit config s t wrap raw allowAsyncResync phase input =
        (s₁.put config t (wrap next)).record entries
  := by
  cases phase with
  | starting =>
      right
      rw [stepCommit]
      split
      · rename_i e h
        exact ⟨_, _, _, .refused h, rfl⟩
      · rename_i h
        refine ⟨_, _, _, .admitted h, ?_⟩
        split_ifs
        · rfl
        · rfl
  | buffering =>
      right
      rw [stepCommit]
      split_ifs with hpass
      · exact ⟨_, _, _, .passed (hpass.imp_right .inl), rfl⟩
      · rw [not_or, Bool.not_eq_true] at hpass
        split
        · rename_i h
          exact ⟨_, _, _, .passed (.inr (.inr h)), rfl⟩
        · rename_i pending h
          exact ⟨_, _, _, .buffered hpass.1 hpass.2 h, rfl⟩
  | locking => exact .inr ⟨_, _, _, .locked, rfl⟩
  | gating =>
      right
      rw [stepCommit]
      split
      · rename_i e h
        exact ⟨_, _, _, .inactive h, rfl⟩
      · rename_i h
        exact ⟨_, _, _, .active h, rfl⟩
  | checking =>
      right
      rw [stepCommit]
      split
      · rename_i e h
        exact ⟨_, _, _, .unloaded h, rfl⟩
      · rename_i chain h
        split
        · rename_i check
          exact ⟨_, _, _, .replayed h check, rfl⟩
        · rename_i e check
          exact ⟨_, _, _, .failed h check, rfl⟩
        · rename_i e check
          exact ⟨_, _, _, .diverged h check, rfl⟩
        · rename_i decoded chainError check
          exact ⟨_, _, _, .accepted h check, rfl⟩
  | recovering e chain =>
      right
      rw [stepCommit]
      split_ifs with hqueue
      · dsimp only
        split
        · rename_i pending h
          exact ⟨_, _, _, .enqueued hqueue.2.1 hqueue.2.2.1.ne' hqueue.2.2.2 h, rfl⟩
        · rename_i h
          exact ⟨_, _, _, .spawned hqueue.2.1 hqueue.2.2.1.ne' hqueue.2.2.2 h, rfl⟩
      · exact ⟨_, _, _, .unrecovered, rfl⟩
  | registering job => exact .inr ⟨_, _, _, .registered, rfl⟩
  | saving chain decoded chainError =>
      right
      rw [stepCommit, State.saveChain]
      cases hsave : input.saveError with
      | some e => exact ⟨_, _, _, .unsaved hsave, rfl⟩
      | none =>
          cases chainError with
          | some e => exact ⟨_, _, _, .broken hsave, rfl⟩
          | none => exact ⟨_, _, _, .saved hsave, rfl⟩
  | returned result => exact .inl ⟨result, rfl⟩

/-- A step of the fetch of a repository that has not returned is a move. -/
theorem stepResync_move (wrap : ResyncPhase → Task) (did : Did) (phase : ResyncPhase)
    (input : Input) :
  (∃ result, phase = .returned result) ∨ ∃ next s₁,
    ResyncMove config s t did input phase next s₁ ∧
      stepResync config s t wrap did phase input = s₁.put config t (wrap next)
  := by
  cases phase with
  | lockingFirst => exact .inr ⟨_, _, .lockedFirst, rfl⟩
  | gatingFirst =>
      right
      rw [stepResync]
      split
      · exact ⟨_, _, .failed _ rfl nofun, rfl⟩
      · rename_i h
        exact ⟨_, _, .activeFirst h, rfl⟩
  | limiting =>
      right
      rw [stepResync]
      split_ifs with h
      · exact ⟨_, _, .allowed h, rfl⟩
      · exact ⟨_, _, .failed _ rfl nofun, rfl⟩
  | fetching =>
      right
      rw [stepResync]
      split
      · exact ⟨_, _, .failed _ rfl nofun, rfl⟩
      · rename_i loaded fetch
        split
        · exact ⟨_, _, .failed _ rfl nofun, rfl⟩
        · rename_i verify
          exact ⟨_, _, .fetched fetch verify, rfl⟩
  | locking loaded => exact .inr ⟨_, _, .locked, rfl⟩
  | gating loaded =>
      right
      rw [stepResync]
      split
      · exact ⟨_, _, .failed _ rfl nofun, rfl⟩
      · rename_i h
        exact ⟨_, _, .active h, rfl⟩
  | checking loaded =>
      right
      rw [stepResync]
      split
      · exact ⟨_, _, .failed _ rfl nofun, rfl⟩
      · rename_i chain h
        split
        · exact ⟨_, _, .failed _ rfl nofun, rfl⟩
        · rename_i check
          exact ⟨_, _, .checked h check, rfl⟩
  | saving chain loaded =>
      right
      rw [stepResync, State.saveChain]
      cases hsave : input.saveError with
      | some e => exact ⟨_, _, .failed _ rfl nofun, rfl⟩
      | none => exact ⟨_, _, .saved hsave, rfl⟩
  | returned result => exact .inl ⟨result, rfl⟩

/-- A step of the verification of the state of a repository that has not returned is a move. -/
theorem stepSync_move (raw : RawSync) (phase : SyncPhase) (input : Input) :
  (∃ result, phase = .returned result) ∨ ∃ next s₁,
    SyncMove config s t raw input phase next s₁ ∧
      stepSync config s t raw phase input = s₁.put config t (.verifySync raw next)
  := by
  cases phase with
  | starting =>
      right
      rw [stepSync]
      split
      · exact ⟨_, _, .failed _ rfl nofun nofun, rfl⟩
      · rename_i rev parse
        split
        · exact ⟨_, _, .failed _ rfl nofun nofun, rfl⟩
        · rename_i h
          exact ⟨_, _, .admitted parse h, rfl⟩
  | locking rev => exact .inr ⟨_, _, .locked, rfl⟩
  | gating rev =>
      right
      rw [stepSync]
      split
      · exact ⟨_, _, .failed _ rfl nofun nofun, rfl⟩
      · rename_i h
        exact ⟨_, _, .active h, rfl⟩
  | checking rev =>
      right
      rw [stepSync]
      split
      · exact ⟨_, _, .failed _ rfl nofun nofun, rfl⟩
      · rename_i chain h
        split
        · exact ⟨_, _, .replayed, rfl⟩
        · exact ⟨_, _, .failed _ rfl nofun nofun, rfl⟩
        · exact ⟨_, _, .diverged, rfl⟩
        · rename_i inner check
          exact ⟨_, _, .confirmed h check, rfl⟩
  | saving chain rev inner =>
      right
      rw [stepSync, State.saveChain]
      cases hsave : input.saveError with
      | some e => exact ⟨_, _, .failed _ rfl nofun nofun, rfl⟩
      | none => exact ⟨_, _, .saved hsave, rfl⟩
  | resyncing inner =>
      right
      have hstep := stepResync_move config s t
        (fun phase => .verifySync raw (.resyncing phase)) raw.did inner input
      rcases hstep with ⟨result, rfl⟩ | ⟨next, s₁, move, heq⟩
      · exact ⟨_, _, .resynced, rfl⟩
      · refine ⟨_, _, .resync move, ?_⟩
        rw [← heq]
        cases inner with
        | returned result =>
            cases move with
            | failed e waiting running => exact absurd rfl (running result)
        | _ => rfl
  | returned result => exact .inl ⟨result, rfl⟩

/-- A step of a background job that has not returned is a move. -/
theorem stepJob_move (did : Did) (phase : JobPhase) (input : Input) :
  phase = .returned ∨ ∃ next s₁ entries,
    JobMove config s t did input phase next s₁ entries ∧
      stepJob config s t did phase input = (s₁.put config t (.job did next)).record entries
  := by
  cases phase with
  | reading =>
      right
      rw [stepJob]
      split
      · rename_i h
        exact ⟨_, _, _, .absent h, rfl⟩
      · rename_i pending h
        exact ⟨_, _, _, .read h, rfl⟩
  | resyncing oldRev reason inner =>
      right
      have hstep := stepResync_move config s t
        (fun phase => .job did (.resyncing oldRev reason phase)) did inner input
      rcases hstep with ⟨result, rfl⟩ | ⟨next, s₁, move, heq⟩
      · cases result with
        | ok ops => exact ⟨_, _, _, .resynced, rfl⟩
        | error e => exact ⟨_, _, _, .unsynced, rfl⟩
      · refine ⟨_, _, _, .resync move, ?_⟩
        refine Eq.trans ?_ heq
        cases inner with
        | returned result =>
            cases move with
            | failed e waiting running => exact absurd rfl (running result)
        | _ => rfl
  | failing e => exact .inr ⟨_, _, _, .gaveUp, rfl⟩
  | draining oldRev reason ops =>
      right
      rw [stepJob]
      split
      · rename_i h
        refine ⟨_, _, _, .idle ?_, rfl⟩
        intro pending hpending
        rw [h] at hpending
        cases hpending
      · rename_i pending h
        split
        · rename_i commits
          refine ⟨_, _, _, .idle ?_, rfl⟩
          intro pending' hpending
          rw [h] at hpending
          cases hpending
          exact commits
        · rename_i raw rest commits
          exact ⟨_, _, _, .drained h commits, rfl⟩
  | settling oldRev reason ops =>
      right
      rw [stepJob]
      split
      · rename_i h
        refine ⟨_, _, _, .again ?_, rfl⟩
        intro pending hpending
        rw [h] at hpending
        cases hpending
      · rename_i pending h
        split_ifs with commits
        · exact ⟨_, _, _, .settled h commits, rfl⟩
        · refine ⟨_, _, _, .again ?_, rfl⟩
          intro pending' hpending
          rw [h] at hpending
          cases hpending
          exact commits
  | verifying oldRev reason ops raw inner rest =>
      right
      have hstep := stepCommit_move config s t
        (fun phase => .job did (.verifying oldRev reason ops raw phase rest)) raw false inner input
      rcases hstep with ⟨result, rfl⟩ | ⟨next, s₁, entries, move, heq⟩
      · cases rest with
        | nil =>
            refine ⟨_, _, _, .verifiedLast, ?_⟩
            rcases result with e | _ | more
            · rfl
            · rfl
            · rfl
        | cons raw' rest =>
            refine ⟨_, _, _, .verified, ?_⟩
            rcases result with e | _ | more
            · rfl
            · rfl
            · rfl
      · refine ⟨_, _, _, .verify move, ?_⟩
        refine Eq.trans ?_ heq
        cases inner with
        | returned result => nomatch move
        | _ => rfl
  | finishing oldRev reason ops =>
      right
      rw [stepJob]
      split
      · rename_i e h
        exact ⟨_, _, _, .finished _ [e], rfl⟩
      · exact ⟨_, _, _, .finished _ [], rfl⟩
  | sending event => exact .inr ⟨_, _, _, .sent, rfl⟩
  | returned => exact .inl rfl

/-- Whether a task has returned. -/
def Task.Finished : Task → Prop
  | .verifyCommit _ phase => ∃ result, phase = .returned result
  | .verifySync _ phase => ∃ result, phase = .returned result
  | .resync _ phase => ∃ result, phase = .returned result
  | .job _ phase => phase = .returned
  | .account _ phase => ∃ result, phase = .returned result

/-- A step of a task that has returned changes nothing, and every other one is a move. -/
theorem stepTask_move (task : Task) (input : Input) :
  (task.Finished ∧ stepTask config s t task input = s) ∨ ∃ next s₁ entries,
    TaskMove config s t input task next s₁ entries ∧
      stepTask config s t task input = (s₁.put config t next).record entries
  := by
  cases task with
  | verifyCommit raw phase =>
      rcases stepCommit_move config s t (.verifyCommit raw) raw true phase
        input with ⟨result, rfl⟩ | ⟨next, s₁, entries, move, heq⟩
      · exact .inl ⟨⟨result, rfl⟩, rfl⟩
      · exact .inr ⟨_, _, _, .commit move, heq⟩
  | verifySync raw phase =>
      rcases stepSync_move config s t raw phase input with
        ⟨result, rfl⟩ | ⟨next, s₁, move, heq⟩
      · exact .inl ⟨⟨result, rfl⟩, rfl⟩
      · exact .inr ⟨_, _, _, .sync move, heq⟩
  | resync did phase =>
      rcases stepResync_move config s t (.resync did) did phase input with
        ⟨result, rfl⟩ | ⟨next, s₁, move, heq⟩
      · exact .inl ⟨⟨result, rfl⟩, rfl⟩
      · exact .inr ⟨_, _, _, .resync move, heq⟩
  | job did phase =>
      rcases stepJob_move config s t did phase input with
        rfl | ⟨next, s₁, entries, move, heq⟩
      · exact .inl ⟨rfl, rfl⟩
      · exact .inr ⟨_, _, _, .job move, heq⟩
  | account raw phase =>
      rcases stepAccount_move config s t raw phase input with
        ⟨result, rfl⟩ | ⟨next, s₁, move, heq⟩
      · exact .inl ⟨⟨result, rfl⟩, rfl⟩
      · exact .inr ⟨_, _, _, .account move, heq⟩

end Shrike.Sync
