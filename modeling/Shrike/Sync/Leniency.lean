import Shrike.Repo.Soundness
import Shrike.Sync.ChainSafety

/-!
# Lenient inversions

What the verification of a commit answers when nothing else happens meanwhile, and which commits it
lets through although undoing their operations leads to another root than the stored one.
-/

namespace Shrike.Sync

open Cbor Syntax Mst Car Repo Bytes Streaming
open Except (bind_eq_ok map_eq_ok mapError_eq_ok ofOption ofOption_eq_ok refuse refuse_eq_ok)

/-! ### A task on its own -/

/-- A task that waits for no other one: it can take a step with the given input. -/
structure Alone (config : VerifierConfig) (allowed : Task → Input → Prop) (s : State) (t : ℕ)
    (raw : RawCommit) (phase : CommitPhase) (input : Input) : Prop where
  running : s.tasks t = some (.verifyCommit raw phase)
  free : phase.holds = false → s.locks (config.lockStripe raw.repo) = none
  spawned : s.tasks input.spawned = none
  further : ∃ input' : Input, input'.spawned ≠ input.spawned ∧ s.tasks input'.spawned = none ∧
    ∀ phase, allowed (.verifyCommit raw phase) input'
  allowed : ∀ phase, allowed (.verifyCommit raw phase) input

section

variable {config : VerifierConfig} {allowed : Task → Input → Prop} {s : State} {t : ℕ}
  {raw : RawCommit} {phase : CommitPhase} {input : Input}

theorem Alone.ne (h : Alone config allowed s t raw phase input) {u : ℕ} (hu : s.tasks u = none) :
  u ≠ t
  := by
  rintro rfl
  rw [h.running] at hu
  cases hu

/-- The task goes on. -/
theorem Alone.put (h : Alone config allowed s t raw phase input) (s₁ : State) (next : CommitPhase)
    (htasks : s₁.tasks = s.tasks)
    (hfree : next.holds = false → s₁.locks (config.lockStripe raw.repo) = none) :
  Alone config allowed (s₁.put config t (.verifyCommit raw next)) t raw next input
  := by
  constructor
  · exact s₁.put_tasks_self config t _
  · intro hnext
    rw [State.put]
    dsimp only
    split_ifs
    · exact Function.update_self ..
    · exact hfree hnext
  · rw [s₁.put_tasks_of_ne config (h.ne h.spawned), htasks]
    exact h.spawned
  · obtain ⟨input', hne, hfree, hallowed⟩ := h.further
    refine ⟨input', hne, ?_, hallowed⟩
    rw [s₁.put_tasks_of_ne config (h.ne hfree), htasks]
    exact hfree
  · exact h.allowed

end

/-! ### The root before a commit -/

theorem checkChain_eq_none {raw : RawCommit} {chain : ChainState} {texts : Texts} {opts : VerifierOptions} {root : Cid} :
  checkChain texts opts raw (some chain) (some root) = .ok none ↔
    raw.prevData = some chain.data ∧ (root = chain.data ∨ opts.lenientInversion = true)
  := by
  have hbroken : ∀ e, chainBroken texts opts raw e ≠ .ok none := by
    intro e
    rw [chainBroken]
    split
    · simp
    · simp
  simp only [checkChain, reduceCtorEq, if_false, Option.some_inj, ne_eq]
  by_cases hprev : raw.prevData = some chain.data
  · by_cases hroot : root = chain.data
    · simp [hprev, hroot]
    · by_cases hlenient : opts.lenientInversion = true
      · simp [hprev, hroot, hlenient]
      · simp [hprev, hroot, hlenient, hbroken]
  · simp [hprev, hbroken]

section

variable [Hashing] (config : VerifierConfig)

/-! ### A commit on its own -/

/-- What is answered about a commit after its checks. -/
def checkAnswer (s : State) (raw : RawCommit) (input : Input) : CommitCheck → Answer
  | .replay => .ok none
  | .failed e => .error e
  | .recoverable e =>
      if config.opts.verifierPolicy = .resync ∧ 0 < config.opts.asyncResyncWorkers ∧
        s.closed = false then .ok none
      else .error e
  | .accepted decoded chainError =>
      match input.saveError with
      | some e => .error (chainError.getD (.stateStore e))
      | none =>
          match chainError with
          | some e => .error e
          | none => .ok (some (verifierOps raw decoded.store))

/-- What is answered about a commit under the lock of its repository. -/
def lockedAnswer (s : State) (raw : RawCommit) (input : Input) : Answer := do
  s.checkGate config raw.repo input
  let chain ← s.loadChain raw.repo input
  checkAnswer config s raw input (checkCommit config.texts config.opts raw chain input.answer)

/-- Whether a commit waits for its repository, which is being fetched. -/
def isBuffered (s : State) (raw : RawCommit) : Bool :=
  config.opts.asyncResyncWorkers ≠ 0 ∧ s.closed = false ∧ (s.pending raw.repo).isSome

/-- What is answered about a commit that is verified while nothing else happens. -/
def verifyCommit (s : State) (raw : RawCommit) (input : Input) : Answer := do
  rejectFutureRev config.opts input.now raw
  rejectOversized raw
  if isBuffered config s raw then .ok none else lockedAnswer config s raw input

section

variable {config} {allowed : Task → Input → Prop} {s : State} {t : ℕ} {raw : RawCommit}
  {input : Input}

/-- A task can go on until it returns an answer. -/
def Answers (config : VerifierConfig) (allowed : Task → Input → Prop) (s : State) (t : ℕ)
    (raw : RawCommit) (answer : Answer) : Prop :=
  ∃ s', Steps config allowed s s' ∧ s'.tasks t = some (.verifyCommit raw (.returned answer))

/-- A step puts the task into its next phase, and does nothing else. -/
def GoesOn (config : VerifierConfig) (s : State) (t : ℕ) (raw : RawCommit) (input : Input)
    (phase next : CommitPhase) : Prop :=
  stepCommit config s t (.verifyCommit raw) raw true phase input =
    s.put config t (.verifyCommit raw next)

namespace Alone

variable {phase : CommitPhase}

variable {answer : Answer}

/-- A step of the task. -/
theorem answers (h : Alone config allowed s t raw phase input) {s₁ : State}
    (hstep : stepCommit config s t (.verifyCommit raw) raw true phase input = s₁)
    (hnext : Answers config allowed s₁ t raw answer) :
  Answers config allowed s t raw answer
  := by
  obtain ⟨s', hsteps, hs'⟩ := hnext
  have hready : (Task.verifyCommit raw phase).isLocking = true →
      s.locks (config.lockStripe (Task.verifyCommit raw phase).did) = none := by
    intro hlocking
    apply h.free
    cases phase with
    | locking => rfl
    | _ => cases hlocking
  rw [← hstep] at hsteps
  exact ⟨s', .head (.task input h.running hready h.spawned (h.allowed phase)) hsteps, hs'⟩

/-- The last step of the task. -/
theorem returns (h : Alone config allowed s t raw phase input) {s₁ : State}
    (hstep : stepCommit config s t (.verifyCommit raw) raw true phase input = s₁)
    (hs₁ : s₁.tasks t = some (.verifyCommit raw (.returned answer))) :
  Answers config allowed s t raw answer
  := h.answers hstep ⟨s₁, .refl, hs₁⟩

theorem returned (h : Alone config allowed s t raw phase input)
    (hstep : GoesOn config s t raw input phase (.returned answer)) :
  Answers config allowed s t raw answer
  := h.returns hstep (s.put_tasks_self config t _)

theorem saving {chain : Option ChainState} {decoded : DecodedCommitCar}
    {chainError : Option VerifierError}
    (h : Alone config allowed s t raw (.saving chain decoded chainError) input) :
  Answers config allowed s t raw (checkAnswer config s raw input (.accepted decoded chainError))
  := by
  apply h.returns rfl
  rw [stepCommit, checkAnswer.eq_def, State.saveChain]
  dsimp only
  cases input.saveError with
  | some e => exact State.put_tasks_self ..
  | none =>
      cases chainError with
      | some e => exact State.put_tasks_self ..
      | none => exact State.put_tasks_self config _ t _

theorem recovering {e : VerifierError} {chain : Option ChainState}
    (h : Alone config allowed s t raw (.recovering e chain) input) :
  Answers config allowed s t raw (checkAnswer config s raw input (.recoverable e))
  := by
  by_cases hqueue : config.opts.verifierPolicy = .resync ∧ 0 < config.opts.asyncResyncWorkers ∧
      s.closed = false
  · rw [checkAnswer, if_pos hqueue]
    cases hpending : s.pending raw.repo with
    | some pending =>
        apply h.returns rfl
        rw [stepCommit, if_pos ⟨hqueue.1, rfl, hqueue.2⟩, hpending]
        exact State.put_tasks_self ..
    | none =>
        have hstep : stepCommit config s t (.verifyCommit raw) raw true (.recovering e chain)
            input = (s.enqueueResync config raw (chain.map ChainState.rev) e input).put config t
              (.verifyCommit raw (.registering input.spawned)) := by
          rw [stepCommit, if_pos ⟨hqueue.1, rfl, hqueue.2⟩, hpending]
        -- the number of the new job is taken
        obtain ⟨input', hne, hfree, hallowed⟩ := h.further
        apply h.answers hstep
        refine ⟨_, .single (.task input' (State.put_tasks_self ..) (by rintro ⟨⟩) ?_ (hallowed _)),
          State.put_tasks_self ..⟩
        rw [State.put_tasks_of_ne config _ (h.ne hfree), State.enqueueResync, hpending]
        exact (Function.update_of_ne hne ..).trans hfree
  · apply h.returns rfl
    rw [stepCommit, if_neg fun hall => hqueue ⟨hall.1, hall.2.2⟩, checkAnswer, if_neg hqueue]
    exact State.put_tasks_self ..

theorem checking (h : Alone config allowed s t raw .checking input) :
  Answers config allowed s t raw ((s.loadChain raw.repo input).bind fun chain =>
    checkAnswer config s raw input (checkCommit config.texts config.opts raw chain input.answer))
  := by
  have hnext : ∀ phase : CommitPhase, phase.holds = true →
      Alone config allowed (s.put config t (.verifyCommit raw phase)) t raw phase input := by
    intro phase hholds
    apply h.put s phase rfl
    rw [hholds]
    intro h
    cases h
  cases hload : s.loadChain raw.repo input with
  | error e =>
      have hstep : GoesOn config s t raw input .checking (.returned (.error e)) := by
        simp only [GoesOn, stepCommit, hload]
      exact h.returned hstep
  | ok chain =>
      dsimp only [Except.bind]
      cases hcheck : checkCommit config.texts config.opts raw chain input.answer with
      | replay =>
          have hstep : GoesOn config s t raw input .checking (.returned (.ok none)) := by
            simp only [GoesOn, stepCommit, hload, hcheck]
          exact h.returned hstep
      | failed e =>
          have hstep : GoesOn config s t raw input .checking (.returned (.error e)) := by
            simp only [GoesOn, stepCommit, hload, hcheck]
          exact h.returned hstep
      | recoverable e =>
          have hstep : GoesOn config s t raw input .checking (.recovering e chain) := by
            simp only [GoesOn, stepCommit, hload, hcheck]
          exact h.answers hstep (hnext (.recovering e chain) rfl).recovering
      | accepted decoded chainError =>
          have hstep : GoesOn config s t raw input .checking
              (.saving chain decoded chainError) := by
            simp only [GoesOn, stepCommit, hload, hcheck]
          exact h.answers hstep (hnext (.saving chain decoded chainError) rfl).saving

theorem gating (h : Alone config allowed s t raw .gating input) :
  Answers config allowed s t raw (lockedAnswer config s raw input)
  := by
  have hanswer : lockedAnswer config s raw input =
      (s.checkGate config raw.repo input).bind fun _ => (s.loadChain raw.repo input).bind fun chain =>
        checkAnswer config s raw input
          (checkCommit config.texts config.opts raw chain input.answer) := rfl
  rw [hanswer]
  cases hgate : s.checkGate config raw.repo input with
  | error e =>
      have hstep : GoesOn config s t raw input .gating (.returned (.error e)) := by
        simp only [GoesOn, stepCommit, hgate]
      exact h.returned hstep
  | ok u =>
      have hstep : GoesOn config s t raw input .gating .checking := by
        simp only [GoesOn, stepCommit, hgate]
      refine h.answers hstep (h.put s .checking rfl ?_).checking
      intro hholds
      cases hholds

theorem locking (h : Alone config allowed s t raw .locking input) :
  Answers config allowed s t raw (lockedAnswer config s raw input)
  := by
  refine h.answers rfl (h.put (s.lock config raw.repo t) .gating rfl ?_).gating
  intro hholds
  cases hholds

theorem buffering (h : Alone config allowed s t raw .buffering input) :
  Answers config allowed s t raw
    (if isBuffered config s raw then .ok none else lockedAnswer config s raw input)
  := by
  have hfree := h.free rfl
  have hlock : Alone config allowed (s.put config t (.verifyCommit raw .locking)) t raw .locking
      input := h.put s .locking rfl fun _ => hfree
  by_cases hidle : config.opts.asyncResyncWorkers = 0 ∨ s.closed = true
  · have hbuffered : isBuffered config s raw = false := by
      rw [isBuffered, decide_eq_false_iff_not]
      rintro ⟨hworkers, hclosed, -⟩
      rcases hidle with hidle | hidle
      · exact hworkers hidle
      · rw [hidle] at hclosed
        cases hclosed
    rw [hbuffered]
    apply h.answers _ hlock.locking
    rw [stepCommit, if_pos hidle]
  · obtain ⟨hworkers, hclosed⟩ := not_or.mp hidle
    rw [Bool.not_eq_true] at hclosed
    cases hpending : s.pending raw.repo with
    | none =>
        have hstep : GoesOn config s t raw input .buffering .locking := by
          rw [GoesOn, stepCommit, if_neg hidle, hpending]
        have hbuffered : isBuffered config s raw = false := by
          rw [isBuffered, hpending, decide_eq_false_iff_not]
          rintro ⟨-, -, hsome⟩
          cases hsome
        rw [hbuffered]
        exact h.answers hstep hlock.locking
    | some pending =>
        have hstep : stepCommit config s t (.verifyCommit raw) raw true .buffering input =
            (s.pushPending config pending raw).put config t
              (.verifyCommit raw (.returned (.ok none))) := by
          rw [stepCommit, if_neg hidle, hpending]
        have hbuffered : isBuffered config s raw = true := by
          rw [isBuffered, hpending, decide_eq_true_iff]
          exact ⟨hworkers, hclosed, rfl⟩
        rw [hbuffered]
        exact h.returns hstep (State.put_tasks_self ..)

/-- A task that is not disturbed returns the answer of the verification. -/
theorem starting (h : Alone config allowed s t raw .starting input) :
  Answers config allowed s t raw (verifyCommit config s raw input)
  := by
  have hanswer : verifyCommit config s raw input =
      (rejectFutureRev config.opts input.now raw >>= fun _ => rejectOversized raw).bind fun _ =>
        if isBuffered config s raw then .ok none else lockedAnswer config s raw input := by
    rw [verifyCommit]
    cases rejectFutureRev config.opts input.now raw <;> rfl
  rw [hanswer]
  cases hstart : rejectFutureRev config.opts input.now raw >>= fun _ => rejectOversized raw with
  | error e =>
      have hstep : GoesOn config s t raw input .starting (.returned (.error e)) := by
        simp only [GoesOn, stepCommit, hstart]
      exact h.returned hstep
  | ok u =>
      have hstep : GoesOn config s t raw input .starting .buffering := by
        simp only [GoesOn, stepCommit, hstart, if_true]
      exact h.answers hstep (h.put s .buffering rfl fun _ => h.free rfl).buffering

end Alone

end

/-! ### Commits that are let through -/

/-- Undoing the operations of a commit leads to a root. -/
def Inverts (texts : Texts) (raw : RawCommit) (root : Cid) : Prop :=
  ∃ decoded, decodeCommitCar texts raw = .ok decoded ∧
    invertDecodedCommit texts raw decoded.inner decoded.store = .ok root

/-- A commit passes everything that is checked besides the root before it. -/
structure Admitted (s : State) (raw : RawCommit) (input : Input) (chain : ChainState)
    (decoded : DecodedCommitCar) : Prop where
  future : rejectFutureRev config.opts input.now raw = .ok ()
  size : rejectOversized raw = .ok ()
  buffered : isBuffered config s raw = false
  gate : s.checkGate config raw.repo input = .ok ()
  loaded : input.loadError = none
  replay : isRevReplay raw.repo raw.rev (some chain) = .ok false
  decode : decodeCommitCar config.texts raw = .ok decoded
  fields : checkFields raw.repo raw.rev.format raw.rev decoded.inner = .ok ()
  signature : verifySignature config.texts raw.repo raw.rev decoded.inner input.answer = .ok ()
  opCids : checkOpCids config.texts raw decoded.inner.data decoded.store = .ok ()
  saved : input.saveError = none

/-- Leniency hides that undoing the operations of a commit leads to another root than the stored
one: the commit claims the stored root and passes everything else. -/
def Masked (s : State) (raw : RawCommit) (input : Input) (chain : ChainState) : Prop :=
  config.opts.lenientInversion = true ∧ raw.prevData = some chain.data ∧
    ∃ decoded root, Admitted config s raw input chain decoded ∧
      invertDecodedCommit config.texts raw decoded.inner decoded.store = .ok root ∧
        root ≠ chain.data

section

variable {config} {s : State} {raw : RawCommit} {input : Input} {chain : ChainState}

theorem findDuplicatePath_of_invert {texts : Texts} {decoded : DecodedCommitCar} {root : Cid}
    (h : invertDecodedCommit texts raw decoded.inner decoded.store = .ok root) :
  findDuplicatePath raw.ops [] = none
  := by
  obtain ⟨u, hpaths, -⟩ := bind_eq_ok.mp h
  rw [checkDuplicatePath] at hpaths
  split at hpaths
  · cases hpaths
  · assumption

theorem previousRoot_eq_ok {texts : Texts} {opts : VerifierOptions} {decoded : DecodedCommitCar}
    {root : Option Cid} (hshape : isLegacyShape raw (some chain) = false) :
  previousRoot texts opts raw decoded.inner decoded.store (some chain) = .ok root ↔
    ∃ root', invertDecodedCommit texts raw decoded.inner decoded.store = .ok root' ∧
      some root' = root
  := by
  rw [previousRoot, if_neg (Option.some_ne_none chain), hshape, if_neg Bool.false_ne_true]
  exact map_eq_ok

/-- A commit that is not of the old shape is let through exactly when it passes everything that is
checked, and claims the stored root, which its operations lead to unless that is not asked for. -/
theorem verifyCommit_eq_some (hchain : s.chains raw.repo = some chain)
    (hshape : isLegacyShape raw (some chain) = false) {ops : List VerifierOp} :
  verifyCommit config s raw input = .ok (some ops) ↔
    ∃ decoded root, Admitted config s raw input chain decoded ∧
      invertDecodedCommit config.texts raw decoded.inner decoded.store = .ok root ∧
        raw.prevData = some chain.data ∧
          (root = chain.data ∨ config.opts.lenientInversion = true) ∧
            verifierOps raw decoded.store = ops
  := by
  constructor
  · intro h
    obtain ⟨u, hfuture, h⟩ := bind_eq_ok.mp h
    obtain ⟨u, hsize, h⟩ := bind_eq_ok.mp h
    split_ifs at h with hbuffered
    · cases h
    · obtain ⟨u, hgate, h⟩ := bind_eq_ok.mp h
      obtain ⟨loaded, hload, h⟩ := bind_eq_ok.mp h
      have hloaded : input.loadError = none := by
        rw [State.loadChain] at hload
        split at hload
        · cases hload
        · assumption
      rw [loadChain_ok hload, hchain] at h
      rw [checkAnswer.eq_def] at h
      split at h
      · cases h
      · cases h
      · split_ifs at h
        cases h
      · rename_i decoded chainError hcheck
        split at h
        · cases h
        · rename_i hsaved
          split at h
          · cases h
          · cases h
            obtain ⟨hreplay, hpaths, hdecode, ⟨root, hroot, hchainOk⟩, hfields, hsignature, hcids⟩ :=
              checkCommit_eq_accepted.mp hcheck
            obtain ⟨root', hinvert, rfl⟩ := (previousRoot_eq_ok hshape).mp hroot
            obtain ⟨hprev, hroot'⟩ := checkChain_eq_none.mp hchainOk
            exact ⟨decoded, root', ⟨hfuture, hsize, Bool.eq_false_iff.mpr hbuffered, hgate, hloaded,
              hreplay, hdecode, hfields, hsignature, hcids, hsaved⟩, hinvert, hprev, hroot', rfl⟩
  · rintro ⟨decoded, root, h, hinvert, hprev, hroot, rfl⟩
    have hcheck : checkCommit config.texts config.opts raw (some chain) input.answer =
        .accepted decoded none := by
      apply checkCommit_eq_accepted.mpr
      exact ⟨h.replay, findDuplicatePath_of_invert hinvert, h.decode,
        ⟨some root, (previousRoot_eq_ok hshape).mpr ⟨root, hinvert, rfl⟩,
          checkChain_eq_none.mpr ⟨hprev, hroot⟩⟩, h.fields, h.signature, h.opCids⟩
    apply bind_eq_ok.mpr
    refine ⟨(), h.future, bind_eq_ok.mpr ⟨(), h.size, ?_⟩⟩
    rw [h.buffered, if_neg Bool.false_ne_true]
    refine bind_eq_ok.mpr ⟨(), h.gate, bind_eq_ok.mpr ⟨s.chains raw.repo, ?_, ?_⟩⟩
    · rw [State.loadChain, h.loaded]
    · rw [hchain, hcheck, checkAnswer, h.saved]

/-- A commit is only let through with the stored root and operations that lead to no other one,
unless leniency hides the other one. -/
theorem letThrough_iff (hchain : s.chains raw.repo = some chain)
    (hshape : isLegacyShape raw (some chain) = false) :
  (∀ ops, verifyCommit config s raw input = .ok (some ops) → raw.prevData = some chain.data ∧
      ∀ root, Inverts config.texts raw root → root = chain.data) ↔
    ¬Masked config s raw input chain
  := by
  constructor
  · rintro h ⟨hlenient, hprev, decoded, root, hadmitted, hinvert, hroot⟩
    have hok := (verifyCommit_eq_some hchain hshape).mpr
      ⟨decoded, root, hadmitted, hinvert, hprev, .inr hlenient, rfl⟩
    exact hroot ((h _ hok).2 root ⟨decoded, hadmitted.decode, hinvert⟩)
  · intro hmasked ops hok
    obtain ⟨decoded, root, hadmitted, hinvert, hprev, hroot, -⟩ :=
      (verifyCommit_eq_some hchain hshape).mp hok
    refine ⟨hprev, ?_⟩
    rintro root' ⟨decoded', hdecode, hinvert'⟩
    have hdecoded := hadmitted.decode.symm.trans hdecode
    cases hdecoded
    have hroots := hinvert.symm.trans hinvert'
    cases hroots
    by_contra hne
    rcases hroot with hroot | hlenient
    · exact hne hroot
    · exact hmasked ⟨hlenient, hprev, decoded, root, hadmitted, hinvert, hne⟩

end

end

namespace Sample

attribute [local instance] Hashing.checksum

/-- A verifier that is lenient and reports errors. -/
def config : VerifierConfig where
  texts :=
    { cid := fun _ => "", mst := fun _ => "", repo := fun _ => "", text := fun _ => ""
      debug := fun _ => "", verifier := fun _ => "" }
  opts :=
    { hasRepoSource := false, verifierPolicy := .error, hostingPolicy := .track
      legacyCommitPolicy := .reject, repoLoadLimits := ⟨1000, 1000, 1000, 1000⟩
      asyncResyncWorkers := 0, pendingQueueCapacity := 1, lenientInversion := true
      futureRevTolerance := 0 }
  lockStripe _ := 0

/-- The commit of a tree with one record. -/
def commit : Commit := { Repo.Sample.commit with data := Repo.Sample.leafCid "j0" }

/-- The CAR of the commit: all of its blocks. -/
def car : Bytes := Repo.Sample.carOf commit [Repo.Sample.leaf "j0", Repo.Sample.record]

/-- The head before the commit: a tree with another record. -/
def chain : ChainState := ⟨Tid.format ⟨3⟩, Repo.Sample.leafCid "l0"⟩

/-- The event of the commit. It has one operation, which creates the record of the tree. -/
def raw : RawCommit :=
  { repo := Repo.Sample.did, rev := ⟨5⟩, seq := 1, time := [], since := none
    commit := Cid.compute .drisl (Repo.Sample.block commit), blocks := car
    ops := [⟨ascii "create", ascii "a.b.c/j0", some Repo.Sample.recordCid, none⟩], blobs := []
    prevData := some chain.data, tooBig := false, rebase := false }

/-- The verifier that stored the head before the commit. -/
def start : State where
  chains did := if did = Repo.Sample.did then some chain else none
  hostings _ := none
  locks _ := none
  pending _ := none
  closed := false
  handles := []
  aborted := []
  tasks _ := none
  log := []

theorem start_initial :
  start.Initial
  := ⟨fun _ => rfl, fun _ => rfl, rfl, rfl, fun _ => rfl, rfl⟩

/-- A key that accepts the signature of the commit. -/
def key : VerifyingKey := Repo.Sample.keyOf commit

/-- The resolver knows the key. -/
def input : Input :=
  { now := 10, loadError := none, saveError := none, answer := ⟨.ok (some key), .ok (), .ok none⟩
    stream := .error "", allowed := true, spawned := 1 }

/-- The root before the operation of the commit: that of an empty tree. -/
def emptied : Cid := Cid.compute .drisl (encodeNodeData { left := none, entries := [] })

/-- What is computed of the commit: the root before its operation, that it is let through, and that
the root is not the stored one. -/
theorem raw_computed :
  ((decodeCommitCar config.texts raw).bind fun decoded =>
      invertDecodedCommit config.texts raw decoded.inner decoded.store) = .ok emptied ∧
    ((verifyCommit config start raw input).toOption.bind id).isSome ∧ emptied ≠ chain.data
  := by decide +kernel

theorem raw_inverts :
  Inverts config.texts raw emptied
  := bind_eq_ok.mp raw_computed.1

theorem raw_answer :
  ∃ ops, verifyCommit config start raw input = .ok (some ops)
  := by
  obtain ⟨ops, hops⟩ := Option.isSome_iff_exists.mp raw_computed.2.1
  refine ⟨ops, ?_⟩
  cases hanswer : verifyCommit config start raw input with
  | error e =>
      rw [hanswer] at hops
      cases hops
  | ok answer =>
      rw [hanswer] at hops
      exact congrArg _ hops

theorem start_chain :
  start.chains raw.repo = some chain
  := rfl

/-- A commit whose operations were all undone, and do not lead to the stored root, is let through:
the record that was stored before is gone without an operation. -/
theorem raw_letThrough :
  (∃ ops, verifyCommit config start raw input = .ok (some ops)) ∧
    isLegacyShape raw (some chain) = false ∧ start.chains raw.repo = some chain ∧
      Inverts config.texts raw emptied ∧ emptied ≠ chain.data
  := ⟨raw_answer, by decide, start_chain, raw_inverts, raw_computed.2.2⟩

/-- Leniency hides the root before the commit. -/
theorem raw_masked :
  Masked config start raw input chain
  := by
  by_contra h
  have hiff := (letThrough_iff start_chain (by decide)).mpr h
  obtain ⟨ops, hops⟩ := raw_answer
  have hroot := (hiff ops hops).2 emptied raw_inverts
  exact raw_computed.2.2 hroot

end Sample

end Shrike.Sync
