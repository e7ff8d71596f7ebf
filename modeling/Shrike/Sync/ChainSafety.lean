import Shrike.Sync.Authentic
import Shrike.Sync.Moves

/-!
# The stored states move forward

Whatever the tasks of a verifier interleave: the stored state of a repository is only replaced by a
later one, each is that of a signed commit, and a commit is let through when its state is saved. A
task that holds the lock of a repository finds the state that it loaded still stored when it saves
another one.
-/

namespace Shrike.Sync

open Cbor Syntax Mst Car Repo Bytes Streaming
open Except (bind_eq_ok map_eq_ok mapError_eq_ok ofOption ofOption_eq_ok refuse refuse_eq_ok)

variable {config : VerifierConfig} {owns : Did → VerifyingKey → Prop} {s : State} {t : ℕ}

/-! ### What is around a task -/

/-- The commits that wait for a repository are of that repository. -/
def Queued (pending : Did → Option PendingResync) : Prop :=
  ∀ did waiting, pending did = some waiting → ∀ raw ∈ waiting.commits, raw.repo = did

variable {value : Option PendingResync}

theorem Queued.update {pending : Did → Option PendingResync} (h : Queued pending) {did : Did}
    (hvalue : ∀ waiting, value = some waiting → ∀ raw ∈ waiting.commits, raw.repo = did) :
  Queued (Function.update pending did value)
  := by
  intro d waiting hwaiting
  by_cases hd : d = did
  · rw [hd, Function.update_self] at hwaiting
    rw [hd]
    exact hvalue waiting hwaiting
  · rw [Function.update_of_ne hd] at hwaiting
    exact h d waiting hwaiting

/-- Something that is neither a saved state nor a commit that is let through. -/
def Entry.Quiet : Entry → Prop
  | .saved _ _ _ => False
  | .verified _ _ _ => False
  | _ => True

theorem Entry.quiet_nil : ∀ e ∈ ([] : List Entry), e.Quiet
  := fun _ he => absurd he List.not_mem_nil

/-- The parts of the state that a task changes besides what it saves: the repositories that are
being fetched, the status of accounts, and a new job. -/
structure Around (s s₁ : State) (t : ℕ) : Prop where
  chains : s₁.chains = s.chains
  log : ∃ entries, s₁.log = entries ++ s.log ∧ ∀ e ∈ entries, e.Quiet
  tasks : ∀ u task, s₁.tasks u = some task → s.tasks u = some task ∨
    (u ≠ t ∧ ∃ did, task = .job did .reading)
  kept : ∀ u task, s.tasks u = some task → s₁.tasks u = some task
  pending : Queued s.pending → Queued s₁.pending

theorem Around.of_eq {s₁ : State} (chains : s₁.chains = s.chains) (log : s₁.log = s.log)
    (tasks : s₁.tasks = s.tasks) (pending : Queued s.pending → Queued s₁.pending) :
  Around s s₁ t
  := by
  constructor
  · exact chains
  · exact ⟨[], log, Entry.quiet_nil⟩
  · exact fun u task htask => .inl (tasks ▸ htask)
  · exact fun u task htask => tasks ▸ htask
  · exact pending

theorem Around.refl (s : State) (t : ℕ) :
  Around s s t
  := .of_eq rfl rfl rfl id

theorem around_register {job : ℕ} :
  Around s (s.register job) t
  := .of_eq rfl rfl rfl id

/-- A commit waits for the repository that is being fetched. -/
theorem around_pushPending {pending : PendingResync} {raw : RawCommit}
    (hpending : s.pending raw.repo = some pending) :
  Around s (s.pushPending config pending raw) t ∧ (s.pushPending config pending raw).locks = s.locks
  := by
  rw [State.pushPending]
  split_ifs with hfull
  · refine ⟨⟨rfl, ⟨_, rfl, ?_⟩, fun u task htask => .inl htask, fun u task htask => htask, id⟩, rfl⟩
    intro e he
    cases List.mem_singleton.mp he
    trivial
  · refine ⟨.of_eq rfl rfl rfl ?_, rfl⟩
    intro hqueued
    apply hqueued.update
    intro waiting hwaiting raw' hraw'
    cases hwaiting
    rcases List.mem_append.mp hraw' with hraw' | hraw'
    · exact hqueued raw.repo pending hpending raw' hraw'
    · rw [List.mem_singleton.mp hraw']

/-- A repository is fetched in the background. -/
theorem around_enqueueResync {raw : RawCommit} {oldRev : Option Bytes} {e : VerifierError}
    {input : Input} (hspawned : s.tasks input.spawned = none) {task : Task}
    (htask : s.tasks t = some task) :
  Around s (s.enqueueResync config raw oldRev e input) t ∧
    (s.enqueueResync config raw oldRev e input).locks = s.locks
  := by
  rw [State.enqueueResync]
  split
  · rename_i pending hpending
    exact around_pushPending hpending
  · refine ⟨⟨rfl, ⟨[], rfl, Entry.quiet_nil⟩, ?_, ?_, ?_⟩, rfl⟩
    · intro u task' htask'
      by_cases hu : u = input.spawned
      · right
        constructor
        · intro ht
          rw [← hu, ht, htask] at hspawned
          cases hspawned
        · have hself := (Function.update_self input.spawned
            (some (Task.job raw.repo .reading)) s.tasks).symm.trans (hu ▸ htask')
          cases hself
          exact ⟨raw.repo, rfl⟩
      · exact .inl ((Function.update_of_ne hu ..).symm.trans htask')
    · intro u task' htask'
      have hu : u ≠ input.spawned := by
        rintro rfl
        rw [hspawned] at htask'
        cases htask'
      exact (Function.update_of_ne hu ..).trans htask'
    · intro hqueued
      apply hqueued.update
      intro waiting hwaiting raw' hraw'
      cases hwaiting
      cases hraw'

/-- The commits that wait for a repository change. -/
theorem around_pending {did : Did}
    (hvalue : Queued s.pending → ∀ waiting, value = some waiting → ∀ raw ∈ waiting.commits,
      raw.repo = did) :
  Around s { s with pending := Function.update s.pending did value } t
  := .of_eq rfl rfl rfl fun hqueued => hqueued.update (hvalue hqueued)

theorem around_record {e : Entry} (he : e.Quiet) :
  Around s (s.record [e]) t
  := by
  constructor
  · rfl
  · refine ⟨[e], rfl, ?_⟩
    intro e' he'
    rwa [List.mem_singleton.mp he']
  · exact fun u task htask => .inl htask
  · exact fun u task htask => htask
  · exact id

theorem around_recordAnswer {result : Answer} :
  Around s (s.recordAnswer result) t ∧ (s.recordAnswer result).locks = s.locks
  := by
  cases result with
  | error e => exact ⟨around_record trivial, rfl⟩
  | ok answer => exact ⟨.refl s t, rfl⟩

variable {chain stored stored' : Option ChainState}

theorem loadChain_ok {did : Did} {input : Input} (h : s.loadChain did input = .ok chain) :
  chain = s.chains did
  := by
  rw [State.loadChain] at h
  split at h
  · cases h
  · cases h
    rfl

/-! ### Tasks that go on -/

theorem State.record_tasks (s : State) (entries : List Entry) :
  (s.record entries).tasks = s.tasks
  := rfl

theorem State.put_tasks_self (config : VerifierConfig) (s : State) (t : ℕ) (task : Task) :
  (s.put config t task).tasks t = some task
  := Function.update_self ..

theorem State.put_tasks_of_ne (config : VerifierConfig) (s : State) {t u : ℕ} (hu : u ≠ t)
    (task : Task) :
  (s.put config t task).tasks u = s.tasks u
  := Function.update_of_ne hu ..

/-- A lock that a task has stays with it, unless another task releases it. -/
theorem State.put_locks {u stripe : ℕ} {task : Task} (hlock : s.locks stripe = some u)
    (hu : u ≠ t ∨ task.holds = true) :
  (s.put config t task).locks stripe = some u
  := by
  rw [State.put]
  dsimp only
  split_ifs with hrelease
  · by_cases hstripe : stripe = config.lockStripe task.did
    · rw [hstripe, hrelease.1] at hlock
      cases hlock
      rcases hu with hu | hu
      · exact absurd rfl hu
      · rw [hrelease.2] at hu
        cases hu
    · rwa [Function.update_of_ne hstripe]
  · exact hlock

/-! ### What tasks know -/

/-- What a call that let a commit through returned. -/
def Task.letThrough : Task → Option (RawCommit × List VerifierOp)
  | .verifyCommit raw (.returned (.ok (some ops))) => some (raw, ops)
  | _ => none

/-- The state of a repository that was fetched. -/
def LoadedRepo.state (loaded : LoadedRepo) : ChainState :=
  ⟨loaded.commit.rev.format, loaded.commit.data⟩

/-- The repository is that of its owner, and may be saved over the stored state. -/
def ResyncPhase.Prepared (owns : Did → VerifyingKey → Prop) (did : Did)
    (stored : Option ChainState) : ResyncPhase → Prop
  | .locking loaded => Authentic owns did loaded.state
  | .gating loaded => Authentic owns did loaded.state
  | .checking loaded => Authentic owns did loaded.state
  | .saving chain loaded => chain = stored ∧ Advances chain loaded.state ∧
      Authentic owns did loaded.state
  | _ => True

/-- The state may be saved over the stored one. -/
def SyncPhase.Prepared (owns : Did → VerifyingKey → Prop) (did : Did)
    (stored : Option ChainState) : SyncPhase → Prop
  | .saving chain rev inner => chain = stored ∧ Newer chain rev ∧
      Authentic owns did ⟨rev.format, inner.data⟩
  | .resyncing phase => phase.Prepared owns did stored
  | _ => True

theorem ResyncPhase.Prepared.of_not_holds {owns : Did → VerifyingKey → Prop} {did : Did}
    {phase : ResyncPhase} (h : phase.Prepared owns did stored)
    (hholds : phase.holds = false) :
  phase.Prepared owns did stored'
  := by
  cases phase with
  | saving chain loaded => cases hholds
  | _ => exact h

section

variable [Hashing]

/-- The commit may be saved over the stored state. -/
def CommitPhase.Prepared (texts : Texts) (owns : Did → VerifyingKey → Prop) (raw : RawCommit)
    (stored : Option ChainState) : CommitPhase → Prop
  | .saving chain decoded _ => chain = stored ∧ Newer chain raw.rev ∧
      decodeCommitCar texts raw = .ok decoded ∧
        Authentic owns raw.repo ⟨raw.rev.format, decoded.inner.data⟩
  | _ => True

/-- The commits that a job works on are of its repository. -/
def JobPhase.Prepared (texts : Texts) (owns : Did → VerifyingKey → Prop) (did : Did)
    (stored : Option ChainState) : JobPhase → Prop
  | .resyncing _ _ phase => phase.Prepared owns did stored
  | .verifying _ _ _ raw phase rest => raw.repo = did ∧ (∀ raw ∈ rest, raw.repo = did) ∧
      phase.Prepared texts owns raw stored
  | _ => True

/-- What a task saves may be saved. -/
def Task.Prepared (texts : Texts) (owns : Did → VerifyingKey → Prop) (stored : Option ChainState) : Task → Prop
  | .verifyCommit raw phase => phase.Prepared texts owns raw stored
  | .verifySync raw phase => phase.Prepared owns raw.did stored
  | .resync did phase => phase.Prepared owns did stored
  | .job did phase => phase.Prepared texts owns did stored
  | .account _ _ => True

variable {stored stored' : Option ChainState}

theorem CommitPhase.Prepared.of_not_holds {texts : Texts} {owns : Did → VerifyingKey → Prop}
    {raw : RawCommit} {phase : CommitPhase} (h : phase.Prepared texts owns raw stored)
    (hholds : phase.holds = false) :
  phase.Prepared texts owns raw stored'
  := by
  cases phase with
  | saving chain decoded chainError => cases hholds
  | _ => trivial

/-- A task that does not hold the lock does not rely on what is stored. -/
theorem Task.Prepared.of_not_holds {texts : Texts} {owns : Did → VerifyingKey → Prop} {task : Task}
    (h : task.Prepared texts owns stored)
    (hholds : task.holds = false) :
  task.Prepared texts owns stored'
  := by
  cases task with
  | verifyCommit raw phase => exact CommitPhase.Prepared.of_not_holds h hholds
  | verifySync raw phase =>
      cases phase with
      | saving chain rev inner => cases hholds
      | resyncing phase => exact ResyncPhase.Prepared.of_not_holds h hholds
      | _ => trivial
  | resync did phase => exact ResyncPhase.Prepared.of_not_holds h hholds
  | job did phase =>
      cases phase with
      | resyncing oldRev reason phase => exact ResyncPhase.Prepared.of_not_holds h hholds
      | verifying oldRev reason ops raw phase rest =>
          obtain ⟨hraw, hrest, hphase⟩ := h
          exact ⟨hraw, hrest, CommitPhase.Prepared.of_not_holds hphase hholds⟩
      | _ => trivial
  | account raw phase => trivial

/-! ### Effects -/

/-- What a step of a task does: it goes on, maybe with the lock, or saves a state over the one that
is stored and releases the lock. -/
inductive Effect (config : VerifierConfig) (owns : Did → VerifyingKey → Prop) (s : State) (t : ℕ)
    (task : Task) : State → Prop where
  | stay : Effect config owns s t task s
  | move {s₁ : State} {next : Task} {entries} (around : Around s s₁ t)
      (locks : s₁.locks = s.locks) (did : next.did = task.did)
      (holds : next.holds = true → task.holds = true)
      (prepared : next.Prepared config.texts owns (s.chains task.did)) (through : next.letThrough = none)
      (quiet : ∀ e ∈ entries, e.Quiet) :
      Effect config owns s t task ((s₁.put config t next).record entries)
  | lock {next : Task} (waiting : task.isLocking = true) (did : next.did = task.did)
      (prepared : next.Prepared config.texts owns (s.chains task.did)) (through : next.letThrough = none) :
      Effect config owns s t task ((s.lock config task.did t).put config t next)
  | save {next : Task} {state : ChainState} {entries} (holds : task.holds = true)
      (did : next.did = task.did) (released : next.holds = false)
      (advances : Advances (s.chains task.did) state) (authentic : Authentic owns task.did state)
      (prepared : ∀ stored, next.Prepared config.texts owns stored)
      (through : (next.letThrough = none ∧ entries = []) ∨ ∃ raw ops, entries = [.verified t raw ops] ∧
        raw.repo = task.did ∧ state.rev = raw.rev.format ∧ Newer (s.chains task.did) raw.rev ∧
          (∃ decoded, decodeCommitCar config.texts raw = .ok decoded ∧
            state.data = decoded.inner.data) ∧
          ∀ raw' ops', next.letThrough = some (raw', ops') → raw' = raw ∧ ops' = ops) :
      Effect config owns s t task (((s.store task.did state).put config t next).record entries)

/-- A task goes on and changes nothing else. -/
theorem Effect.go {task next : Task} (did : next.did = task.did)
    (holds : next.holds = true → task.holds = true)
    (prepared : next.Prepared config.texts owns (s.chains task.did)) (through : next.letThrough = none) :
  Effect config owns s t task (s.put config t next)
  := .move (.refl s t) rfl did holds prepared through Entry.quiet_nil

/-- A task that verifies a commit on behalf of another one. -/
structure CommitTask (config : VerifierConfig) (owns : Did → VerifyingKey → Prop) (raw : RawCommit)
    (wrap : CommitPhase → Task) : Prop where
  did : ∀ phase, (wrap phase).did = raw.repo
  holds : ∀ phase, (wrap phase).holds = phase.holds
  locking : ∀ phase, (wrap phase).isLocking = phase.isLocking
  prepared : ∀ phase stored, phase.Prepared config.texts owns raw stored → (wrap phase).Prepared config.texts owns stored
  through : ∀ phase raw' ops', (wrap phase).letThrough = some (raw', ops') →
    raw' = raw ∧ phase = .returned (.ok (some ops'))

/-- A task that fetches a repository on behalf of another one. -/
structure ResyncTask (config : VerifierConfig) (owns : Did → VerifyingKey → Prop) (repo : Did)
    (wrap : ResyncPhase → Task) : Prop where
  did : ∀ phase, (wrap phase).did = repo
  holds : ∀ phase, (wrap phase).holds = phase.holds
  locking : ∀ phase, (wrap phase).isLocking = phase.isLocking
  prepared : ∀ phase stored, phase.Prepared owns repo stored → (wrap phase).Prepared config.texts owns stored
  through : ∀ phase, (wrap phase).letThrough = none

/-! ### Moves have effects -/

section Commits

variable {wrap : CommitPhase → Task} {raw : RawCommit} {phase next : CommitPhase} {s₁ : State}
  {entries : List Entry}

theorem CommitTask.letThrough (hwrap : CommitTask config owns raw wrap)
    (hnext : ∀ ops, next ≠ .returned (.ok (some ops))) :
  (wrap next).letThrough = none
  := by
  rw [Option.eq_none_iff_forall_ne_some]
  rintro ⟨raw', ops'⟩ hsome
  exact hnext ops' (hwrap.through next raw' ops' hsome).2

/-- The verification of a commit goes on with the lock that it has, and lets nothing through. -/
theorem CommitTask.move (hwrap : CommitTask config owns raw wrap) (haround : Around s s₁ t)
    (hlocks : s₁.locks = s.locks) (hholds : next.holds = true → phase.holds = true)
    (hprepared : next.Prepared config.texts owns raw (s.chains raw.repo))
    (hnext : ∀ ops, next ≠ .returned (.ok (some ops))) :
  Effect config owns s t (wrap phase) (s₁.put config t (wrap next))
  := by
  apply @Effect.move _ config owns s t (wrap phase) s₁ (wrap next) [] haround hlocks
  · rw [hwrap.did, hwrap.did]
  · rw [hwrap.holds, hwrap.holds]
    exact hholds
  · rw [hwrap.did]
    exact hwrap.prepared next _ hprepared
  · exact hwrap.letThrough hnext
  · exact Entry.quiet_nil

theorem CommitTask.lock (hwrap : CommitTask config owns raw wrap) :
  Effect config owns s t (wrap .locking) ((s.lock config raw.repo t).put config t (wrap .gating))
  := by
  have heffect := @Effect.lock _ config owns s t (wrap .locking) (wrap .gating)
  rw [hwrap.did, hwrap.did, hwrap.locking] at heffect
  exact heffect rfl rfl (hwrap.prepared _ _ trivial) (hwrap.letThrough nofun)

/-- The verification of a commit saves its state, and then lets it through or not. -/
theorem CommitTask.save (hwrap : CommitTask config owns raw wrap) {chain : Option ChainState}
    {decoded : DecodedCommitCar} {chainError : Option VerifierError} {result : Answer}
    (hphase : (CommitPhase.saving chain decoded chainError).Prepared config.texts owns raw
      (s.chains raw.repo)) (hresult : (entries = [] ∧ ∀ ops, result ≠ .ok (some ops)) ∨
      ∃ ops, entries = [.verified t raw ops] ∧ result = .ok (some ops)) :
  Effect config owns s t (wrap (.saving chain decoded chainError))
    (((s.store raw.repo ⟨raw.rev.format, decoded.inner.data⟩).put config t
      (wrap (.returned result))).record entries)
  := by
  obtain ⟨rfl, hnewer, hdecode, hauthentic⟩ := hphase
  have heffect := @Effect.save _ config owns s t
    (wrap (.saving (s.chains raw.repo) decoded chainError)) (wrap (.returned result))
    ⟨raw.rev.format, decoded.inner.data⟩ entries
  simp only [hwrap.did] at heffect
  apply heffect
  · exact hwrap.holds _
  · trivial
  · exact hwrap.holds _
  · exact hnewer.advances _
  · exact hauthentic
  · exact fun stored => hwrap.prepared _ _ trivial
  · rcases hresult with ⟨hentries, hresult⟩ | ⟨ops, hentries, rfl⟩
    · refine .inl ⟨hwrap.letThrough ?_, hentries⟩
      intro ops h
      cases h
      exact hresult ops rfl
    · refine .inr ⟨raw, ops, hentries, rfl, rfl, hnewer, ⟨decoded, hdecode, rfl⟩, ?_⟩
      intro raw' ops' hsome
      obtain ⟨hraw, hreturned⟩ := hwrap.through _ raw' ops' hsome
      cases hreturned
      exact ⟨hraw, rfl⟩

/-- What the verification of a commit does. -/
theorem CommitMove.effect {allowAsyncResync : Bool} {input : Input}
    (move : CommitMove config s t raw allowAsyncResync input phase next s₁ entries)
    (hwrap : CommitTask config owns raw wrap) (htask : s.tasks t = some (wrap phase))
    (hphase : phase.Prepared config.texts owns raw (s.chains raw.repo))
    (hanswer : input.answer.Correct owns raw.repo) (hspawned : s.tasks input.spawned = none) :
  Effect config owns s t (wrap phase) ((s₁.put config t (wrap next)).record entries)
  := by
  cases move with
  | admitted =>
      cases allowAsyncResync
      · exact hwrap.move (.refl s t) rfl nofun trivial nofun
      · exact hwrap.move (.refl s t) rfl nofun trivial nofun
  | buffered workers opened h =>
      obtain ⟨haround, hlocks⟩ := around_pushPending h
      exact hwrap.move haround hlocks nofun trivial nofun
  | locked => exact hwrap.lock
  | active => exact hwrap.move (.refl s t) rfl id trivial nofun
  | diverged => exact hwrap.move (.refl s t) rfl id trivial nofun
  | accepted h check =>
      have hpassed := checkCommit_eq_accepted.mp check
      exact hwrap.move (.refl s t) rfl (fun _ => rfl)
        ⟨loadChain_ok h, hpassed.newer, hpassed.decode, hpassed.authentic hanswer⟩ nofun
  | enqueued =>
      obtain ⟨haround, hlocks⟩ := around_enqueueResync hspawned htask
      exact hwrap.move haround hlocks nofun trivial nofun
  | spawned =>
      obtain ⟨haround, hlocks⟩ := around_enqueueResync hspawned htask
      exact hwrap.move haround hlocks (fun _ => rfl) trivial nofun
  | registered => exact hwrap.move around_register rfl nofun trivial nofun
  | broken => exact hwrap.save hphase (.inl ⟨rfl, nofun⟩)
  | saved => exact hwrap.save hphase (.inr ⟨_, rfl, rfl⟩)
  | _ => exact hwrap.move (.refl s t) rfl nofun trivial nofun

end Commits

section Resyncs

variable {did : Did} {wrap : ResyncPhase → Task} {phase next : ResyncPhase} {s₁ : State}

/-- The fetch of a repository goes on with the lock that it has. -/
theorem ResyncTask.go (hwrap : ResyncTask config owns did wrap)
    (hholds : next.holds = true → phase.holds = true)
    (hprepared : next.Prepared owns did (s.chains did)) :
  Effect config owns s t (wrap phase) (s.put config t (wrap next))
  := by
  apply Effect.go
  · rw [hwrap.did, hwrap.did]
  · rw [hwrap.holds, hwrap.holds]
    exact hholds
  · rw [hwrap.did]
    exact hwrap.prepared next _ hprepared
  · exact hwrap.through next

theorem ResyncTask.lock (hwrap : ResyncTask config owns did wrap)
    (hlocking : phase.isLocking = true) (hprepared : next.Prepared owns did (s.chains did)) :
  Effect config owns s t (wrap phase) ((s.lock config did t).put config t (wrap next))
  := by
  have heffect := @Effect.lock _ config owns s t (wrap phase) (wrap next)
  rw [hwrap.did, hwrap.did, hwrap.locking] at heffect
  exact heffect hlocking rfl (hwrap.prepared _ _ hprepared) (hwrap.through next)

/-- What the fetch of a repository does. -/
theorem ResyncMove.effect {input : Input} (move : ResyncMove config s t did input phase next s₁)
    (hwrap : ResyncTask config owns did wrap) (hphase : phase.Prepared owns did (s.chains did))
    (hanswer : input.answer.Correct owns did) :
  Effect config owns s t (wrap phase) (s₁.put config t (wrap next))
  := by
  cases move with
  | lockedFirst => exact hwrap.lock rfl trivial
  | fetched fetch verify => exact hwrap.go nofun (authentic_of_fetchRepo fetch verify hanswer)
  | locked => exact hwrap.lock rfl hphase
  | active => exact hwrap.go (fun _ => rfl) hphase
  | checked h check =>
      exact hwrap.go (fun _ => rfl) ⟨loadChain_ok h, checkRegression_advances check, hphase⟩
  | @saved loaded =>
      obtain ⟨rfl, hadvances, hauthentic⟩ := hphase
      have heffect := @Effect.save _ config owns s t (wrap (.saving (s.chains did) loaded))
        (wrap (.returned (.ok loaded.ops))) loaded.state []
      simp only [hwrap.did] at heffect
      apply heffect
      · exact hwrap.holds _
      · trivial
      · exact hwrap.holds _
      · exact hadvances
      · exact hauthentic
      · exact fun stored => hwrap.prepared _ _ trivial
      · exact .inl ⟨hwrap.through _, trivial⟩
  | _ => exact hwrap.go nofun trivial

end Resyncs

variable {input : Input}

/-- What the verification of the state of a repository does. -/
theorem SyncMove.effect {raw : RawSync} {phase next : SyncPhase} {s₁ : State}
    (move : SyncMove config s t raw input phase next s₁)
    (hphase : phase.Prepared owns raw.did (s.chains raw.did))
    (hanswer : input.answer.Correct owns raw.did) :
  Effect config owns s t (.verifySync raw phase) (s₁.put config t (.verifySync raw next))
  := by
  cases move with
  | locked => exact Effect.lock rfl rfl trivial rfl
  | active => exact Effect.go rfl id trivial rfl
  | confirmed h check =>
      exact Effect.go rfl (fun _ => rfl) ⟨loadChain_ok h, checkSync_confirmed check hanswer⟩ rfl
  | @saved rev chain inner =>
      obtain ⟨rfl, hnewer, hauthentic⟩ := hphase
      apply @Effect.save _ config owns s t (.verifySync raw (.saving _ rev inner))
        (.verifySync raw (.returned (.ok none))) ⟨rev.format, inner.data⟩ [] rfl rfl rfl
      · exact hnewer.advances _
      · exact hauthentic
      · exact fun stored => trivial
      · exact .inl ⟨rfl, rfl⟩
  | resync move =>
      have hwrap : ResyncTask config owns raw.did fun phase => .verifySync raw (.resyncing phase) :=
        ⟨fun _ => rfl, fun _ => rfl, fun _ => rfl, fun _ _ => id, fun _ => rfl⟩
      exact move.effect hwrap hphase hanswer
  | _ => exact Effect.go rfl nofun trivial rfl

section Jobs

variable {did : Did} {phase next : JobPhase} {s₁ : State} {entries : List Entry}

/-- A job goes on without its lock. -/
theorem Effect.job (hnext : next.holds = false)
    (hprepared : next.Prepared config.texts owns did (s.chains did)) (haround : Around s s₁ t)
    (hlocks : s₁.locks = s.locks) (hquiet : ∀ e ∈ entries, e.Quiet) :
  Effect config owns s t (.job did phase) ((s₁.put config t (.job did next)).record entries)
  := by
  refine .move haround hlocks rfl ?_ hprepared rfl hquiet
  intro h
  cases hnext.symm.trans h

/-- What a background job does. -/
theorem JobMove.effect {input : Input} (move : JobMove config s t did input phase next s₁ entries)
    (htask : s.tasks t = some (.job did phase))
    (hphase : phase.Prepared config.texts owns did (s.chains did)) (hqueued : Queued s.pending)
    (hanswer : input.answer.Correct owns did) (hspawned : s.tasks input.spawned = none) :
  Effect config owns s t (.job did phase) ((s₁.put config t (.job did next)).record entries)
  := by
  cases move with
  | @resync oldRev reason phase next s₁ move =>
      have hwrap : ResyncTask config owns did fun phase => .job did (.resyncing oldRev reason phase) :=
        ⟨fun _ => rfl, fun _ => rfl, fun _ => rfl, fun _ _ => id, fun _ => rfl⟩
      exact move.effect hwrap hphase hanswer
  | gaveUp =>
      refine .job rfl trivial (around_pending nofun) rfl ?_
      intro e he
      cases List.mem_singleton.mp he
      trivial
  | @drained oldRev reason ops pending raw rest h commits =>
      have hdid : ∀ raw' ∈ raw :: rest, raw'.repo = did := by
        rw [← commits]
        exact hqueued did pending h
      refine .job rfl ⟨hdid raw List.mem_cons_self, ?_, trivial⟩ (around_pending ?_) rfl
        Entry.quiet_nil
      · exact fun raw' hraw' => hdid raw' (List.mem_cons_of_mem raw hraw')
      · rintro - _ ⟨⟩ raw' hraw'
        cases hraw'
  | settled => exact .job rfl trivial (around_pending nofun) rfl Entry.quiet_nil
  | @verify oldRev reason ops raw phase next rest s₁ entries move =>
      obtain ⟨hraw, hrest, hphase⟩ := hphase
      have hwrap : CommitTask config owns raw fun phase =>
          .job did (.verifying oldRev reason ops raw phase rest) :=
        ⟨fun _ => hraw.symm, fun _ => rfl, fun _ => rfl, fun _ _ h => ⟨hraw, hrest, h⟩,
          fun _ _ _ h => by cases h⟩
      rw [← hraw] at hanswer hphase
      exact move.effect hwrap htask hphase hanswer hspawned
  | verifiedLast =>
      obtain ⟨haround, hlocks⟩ := around_recordAnswer
      exact .job rfl trivial haround hlocks Entry.quiet_nil
  | verified =>
      obtain ⟨-, hrest, -⟩ := hphase
      obtain ⟨haround, hlocks⟩ := around_recordAnswer
      refine .job rfl ⟨hrest _ List.mem_cons_self, ?_, trivial⟩ haround hlocks Entry.quiet_nil
      exact fun raw hraw => hrest raw (List.mem_cons_of_mem _ hraw)
  | finished event errors =>
      refine .job rfl trivial (.refl s t) rfl ?_
      intro e he
      obtain ⟨error, -, rfl⟩ := List.mem_map.mp he
      trivial
  | sent =>
      refine .job rfl trivial (.refl s t) rfl ?_
      intro e he
      cases List.mem_singleton.mp he
      trivial
  | _ => exact .job rfl trivial (.refl s t) rfl Entry.quiet_nil

end Jobs

/-- What the storage of the status of an account does. -/
theorem AccountMove.effect {raw : RawAccount} {phase next : AccountPhase}
    {s₁ : State} (move : AccountMove config s t raw input phase next s₁) :
  Effect config owns s t (.account raw phase) (s₁.put config t (.account raw next))
  := by
  cases move with
  | locked => exact Effect.lock rfl rfl trivial rfl
  | done result => exact Effect.go rfl nofun trivial rfl
  | loaded => exact Effect.go rfl (fun _ => rfl) trivial rfl
  | saved h =>
      have hstore : ∀ hostings, Effect config owns s t (.account raw .saving)
          (({ s with hostings := hostings } : State).put config t
            (.account raw (.returned (.ok ())))) := by
        intro hostings
        exact @Effect.move _ config owns s t (.account raw .saving) { s with hostings := hostings }
          (.account raw (.returned (.ok ()))) [] (.of_eq rfl rfl rfl id) rfl rfl nofun trivial rfl
          Entry.quiet_nil
      exact hstore _

/-- What a task does. -/
theorem TaskMove.effect {task next : Task} {s₁ : State} {entries : List Entry}
    (move : TaskMove config s t input task next s₁ entries) (htask : s.tasks t = some task)
    (hprepared : task.Prepared config.texts owns (s.chains task.did)) (hqueued : Queued s.pending)
    (hanswer : input.answer.Correct owns task.did) (hspawned : s.tasks input.spawned = none) :
  Effect config owns s t task ((s₁.put config t next).record entries)
  := by
  cases move with
  | commit move =>
      refine move.effect ?_ htask hprepared hanswer hspawned
      constructor
      · exact fun phase => rfl
      · exact fun phase => rfl
      · exact fun phase => rfl
      · exact fun phase stored => id
      · intro phase raw' ops' hsome
        rw [Task.letThrough.eq_def] at hsome
        split at hsome
        · rename_i hphase
          cases hphase
          cases hsome
          exact ⟨rfl, rfl⟩
        · cases hsome
  | sync move => exact move.effect hprepared hanswer
  | @resync did phase next s₁ move =>
      have hwrap : ResyncTask config owns did (.resync did) :=
        ⟨fun _ => rfl, fun _ => rfl, fun _ => rfl, fun _ _ => id, fun _ => rfl⟩
      exact move.effect hwrap hprepared hanswer
  | job move => exact move.effect htask hprepared hqueued hanswer hspawned
  | account move => exact move.effect

/-- What a step of a task does. -/
theorem stepTask_effect {task : Task} (htask : s.tasks t = some task)
    (hprepared : task.Prepared config.texts owns (s.chains task.did)) (hqueued : Queued s.pending)
    (hanswer : input.answer.Correct owns task.did) (hspawned : s.tasks input.spawned = none) :
  Effect config owns s t task (stepTask config s t task input)
  := by
  rcases stepTask_move config s t task input with ⟨-, heq⟩ | ⟨next, s₁, entries, move, heq⟩
  · rw [heq]
    exact .stay
  · rw [heq]
    exact move.effect htask hprepared hqueued hanswer hspawned

/-! ### Locks -/

/-- A task that holds the lock of its repository has it, and what it saves may be saved. -/
structure Locked (config : VerifierConfig) (owns : Did → VerifyingKey → Prop) (s : State) :
    Prop where
  locks : ∀ t task, s.tasks t = some task → task.holds = true →
    s.locks (config.lockStripe task.did) = some t
  prepared : ∀ t task, s.tasks t = some task →
    task.Prepared config.texts owns (s.chains task.did)
  queued : Queued s.pending

namespace Locked

/-- A task goes on, while those beside it keep their locks. -/
theorem put (s₁ : State) {next : Task}
    (hself : next.holds = true → s₁.locks (config.lockStripe next.did) = some t)
    (hlocks : ∀ u task', u ≠ t → s.tasks u = some task' → task'.holds = true →
      s₁.locks (config.lockStripe task'.did) = some u)
    (htasks : ∀ u task', s₁.tasks u = some task' → s.tasks u = some task' ∨
      (u ≠ t ∧ ∃ did, task' = .job did .reading))
    (hnext : next.Prepared config.texts owns (s₁.chains next.did))
    (hchains : ∀ u task', u ≠ t → s.tasks u = some task' →
      task'.Prepared config.texts owns (s₁.chains task'.did))
    (hqueued : Queued s₁.pending) (entries : List Entry) :
  Locked config owns ((s₁.put config t next).record entries)
  := by
  constructor
  · intro u task' htask' hholds
    by_cases hu : u = t
    · rw [hu, State.record_tasks, State.put_tasks_self] at htask'
      cases htask'
      rw [hu]
      exact State.put_locks (hself hholds) (.inr hholds)
    · rw [State.record_tasks, s₁.put_tasks_of_ne config hu] at htask'
      rcases htasks u task' htask' with hold | ⟨-, did, rfl⟩
      · exact State.put_locks (hlocks u task' hu hold hholds) (.inl hu)
      · cases hholds
  · intro u task' htask'
    by_cases hu : u = t
    · rw [hu, State.record_tasks, State.put_tasks_self] at htask'
      cases htask'
      exact hnext
    · rw [State.record_tasks, s₁.put_tasks_of_ne config hu] at htask'
      rcases htasks u task' htask' with hold | ⟨-, did, rfl⟩
      · exact hchains u task' hu hold
      · trivial
  · exact hqueued

/-- Every step of a task keeps the locks apart. -/
theorem effect (h : Locked config owns s) {task : Task} {s' : State} (htask : s.tasks t = some task)
    (hready : task.isLocking = true → s.locks (config.lockStripe task.did) = none)
    (heffect : Effect config owns s t task s') :
  Locked config owns s'
  := by
  cases heffect with
  | stay => exact h
  | move around locks did holds prepared =>
      apply Locked.put
      · intro hholds
        rw [locks, did]
        exact h.locks t task htask (holds hholds)
      · intro u task' _ htask' hholds
        rw [locks]
        exact h.locks u task' htask' hholds
      · exact around.tasks
      · rw [around.chains, did]
        exact prepared
      · intro u task' _ htask'
        rw [around.chains]
        exact h.prepared u task' htask'
      · exact around.pending h.queued
  | @lock next waiting did prepared =>
      apply Locked.put (s.lock config task.did t) _ _ (fun u task' htask' => .inl htask') _ _
        h.queued []
      · intro _
        rw [did]
        exact Function.update_self ..
      · intro u task' _ htask' hholds
        have hlock := h.locks u task' htask' hholds
        have hstripe : config.lockStripe task'.did ≠ config.lockStripe task.did := by
          intro hstripe
          rw [hstripe, hready waiting] at hlock
          cases hlock
        exact (Function.update_of_ne hstripe ..).trans hlock
      · rw [did]
        exact prepared
      · intro u task' _ htask'
        exact h.prepared u task' htask'
  | @save next state entries holds did released advances authentic prepared =>
      apply Locked.put (s.store task.did state) _ _ (fun u task' htask' => .inl htask')
        (prepared _) _ h.queued
      · intro hholds
        rw [released] at hholds
        cases hholds
      · intro u task' _ htask' hholds
        exact h.locks u task' htask' hholds
      · intro u task' hu htask'
        have hold := h.prepared u task' htask'
        by_cases hdid : task'.did = task.did
        · apply hold.of_not_holds
          rw [Bool.eq_false_iff]
          intro hholds
          have hlock := h.locks u task' htask' hholds
          rw [hdid, h.locks t task htask holds] at hlock
          cases hlock
          exact hu rfl
        · rw [show (s.store task.did state).chains task'.did = s.chains task'.did from
            Function.update_of_ne hdid ..]
          exact hold

theorem initial (h : s.Initial) :
  Locked config owns s
  := by
  constructor
  · intro t task htask
    rw [h.tasks t] at htask
    cases htask
  · intro t task htask
    rw [h.tasks t] at htask
    cases htask
  · intro did waiting hwaiting
    rw [h.pending did] at hwaiting
    cases hwaiting

theorem call (h : Locked config owns s) (call : Call) (t : ℕ) :
  Locked config owns (s.put config t call.start)
  := by
  refine Locked.put s ?_ ?_ (fun u task htask => .inl htask) ?_ ?_ h.queued []
  · intro hholds
    cases call <;> cases hholds
  · exact fun u task _ htask hholds => h.locks u task htask hholds
  · cases call <;> trivial
  · exact fun u task _ htask => h.prepared u task htask

/-- The locks of the tasks that go on stay with them. -/
theorem drop (h : Locked config owns s) (given : ℕ → Prop) [DecidablePred given] :
  Locked config owns (s.drop given)
  := by
  have hkept : ∀ {u task}, (s.drop given).tasks u = some task → ¬given u ∧ s.tasks u = some task := by
    intro u task htask
    rw [State.drop] at htask
    dsimp only at htask
    split_ifs at htask with hu
    exact ⟨hu, htask⟩
  constructor
  · intro t task htask hholds
    obtain ⟨ht, htask⟩ := hkept htask
    rw [State.drop]
    dsimp only
    rw [h.locks t task htask hholds, Option.filter_some, if_pos (decide_eq_true ht)]
  · intro t task htask
    exact h.prepared t task (hkept htask).2
  · exact h.queued

theorem close (h : Locked config owns s) :
  Locked config owns s.close
  := by
  constructor
  · exact h.locks
  · exact h.prepared
  · intro did waiting hwaiting
    cases hwaiting

/-- Every step of the verifier keeps the locks apart. -/
theorem step (h : Locked config owns s) {s' : State}
    (hstep : Step config (fun task input => input.answer.Correct owns task.did) s s') :
  Locked config owns s'
  := by
  cases hstep with
  | @call t call new => exact h.call call t
  | @task t task input running ready spawned ok =>
      exact h.effect running ready
        (stepTask_effect running (h.prepared t task running) h.queued ok spawned)
  | drop given => exact h.drop given
  | close => exact h.close

end Locked

end

end Shrike.Sync
