import Shrike.Sync.Leniency
import Shrike.Sync.Runs

/-!
# The clock

The revisions of the states that are saved, against the time at which the call that saves them was
checked.
-/

namespace Shrike.Sync

open Cbor Syntax Mst Car Repo Bytes Streaming

/-! ### The time of a call -/

/-- Whether the step that takes in what arrived comes next. -/
def CommitPhase.takesIn : CommitPhase → Bool
  | .starting => true
  | _ => false

/-- Whether the step that takes in what arrived comes next. -/
def ResyncPhase.takesIn : ResyncPhase → Bool
  | .fetching => true
  | _ => false

/-- Whether the step that takes in what arrived comes next. -/
def SyncPhase.takesIn : SyncPhase → Bool
  | .starting => true
  | .resyncing phase => phase.takesIn
  | _ => false

/-- Whether the step that takes in what arrived comes next. -/
def JobPhase.takesIn : JobPhase → Bool
  | .resyncing _ _ phase => phase.takesIn
  | .verifying _ _ _ _ phase _ => phase.takesIn
  | _ => false

/-- Whether the next step of a task takes in the event or the repository whose state it may save. -/
def Task.takesIn : Task → Bool
  | .verifyCommit _ phase => phase.takesIn
  | .verifySync _ phase => phase.takesIn
  | .resync _ phase => phase.takesIn
  | .job _ phase => phase.takesIn
  | .account _ _ => false

/-- Whether the next step of a task fetches a repository. -/
def Task.isFetching : Task → Bool
  | .verifySync _ (.resyncing .fetching) => true
  | .resync _ .fetching => true
  | .job _ (.resyncing _ _ .fetching) => true
  | _ => false

/-- The time at which a task last took in what arrived. -/
def callTime (t : ℕ) : List Taken → Option ℕ
  | [] => none
  | ⟨_, .task u task input, _⟩ :: events =>
      if u = t ∧ task.takesIn = true then some input.now else callTime t events
  | _ :: events => callTime t events

/-- A step saves a state. -/
def Saves (e : Taken) (did : Did) (chain : ChainState) : Prop :=
  ∃ prior entries, e.after.log = entries ++ .saved did prior chain :: e.before.log

section

variable [Hashing] (config : VerifierConfig)

/-- What a step saves has a revision that was not in the future when it was taken in. -/
def SavesTimely (earlier : List Taken) (e : Taken) : Prop :=
  ∀ did chain, Saves e did chain → ∃ t task input now rev, e.label = .task t task input ∧
    callTime t earlier = some now ∧ chain.rev = Tid.format rev ∧
      isFutureRev config.opts now rev = false

/-- A repository that is fetched is not in the future. -/
def Input.Present (task : Task) (input : Input) : Prop :=
  task.isFetching = true → ∀ loaded,
    fetchRepo config.texts config.opts task.did input.stream = .ok loaded →
      isFutureRev config.opts input.now loaded.commit.rev = false

/-! ### What tasks took in -/

/-- A revision was not in the future at the time of a call. -/
def Timely (time : Option ℕ) (rev : Tid) : Prop :=
  ∃ now, time = some now ∧ isFutureRev config.opts now rev = false

/-- The commit was taken in when it was not in the future. -/
def CommitPhase.Timely (time : Option ℕ) (raw : RawCommit) : CommitPhase → Prop
  | .starting => True
  | .returned _ => True
  | _ => Sync.Timely config time raw.rev

/-- The repository was taken in when it was not in the future. -/
def ResyncPhase.Timely (time : Option ℕ) : ResyncPhase → Prop
  | .locking loaded => Sync.Timely config time loaded.commit.rev
  | .gating loaded => Sync.Timely config time loaded.commit.rev
  | .checking loaded => Sync.Timely config time loaded.commit.rev
  | .saving _ loaded => Sync.Timely config time loaded.commit.rev
  | _ => True

/-- The state was taken in when it was not in the future. -/
def SyncPhase.Timely (time : Option ℕ) : SyncPhase → Prop
  | .locking rev => Sync.Timely config time rev
  | .gating rev => Sync.Timely config time rev
  | .checking rev => Sync.Timely config time rev
  | .saving _ rev _ => Sync.Timely config time rev
  | .resyncing phase => phase.Timely config time
  | _ => True

/-- What a job works on was taken in when it was not in the future. -/
def JobPhase.Timely (time : Option ℕ) : JobPhase → Prop
  | .resyncing _ _ phase => phase.Timely config time
  | .verifying _ _ _ raw phase _ => phase.Timely config time raw
  | _ => True

/-- What a task may save was taken in when it was not in the future. -/
def Task.Timely (time : Option ℕ) : Task → Prop
  | .verifyCommit raw phase => phase.Timely config time raw
  | .verifySync _ phase => phase.Timely config time
  | .resync _ phase => phase.Timely config time
  | .job _ phase => phase.Timely config time
  | .account _ _ => True

end

/-! ### What moves save -/

/-- The states that are saved by what is added to a log. -/
def Adds (s : State) (log : List Entry) (may : ChainState → Prop) : Prop :=
  ∃ new, log = new ++ s.log ∧ ∀ did prior chain, Entry.saved did prior chain ∈ new → may chain

section

variable {s : State} {log : List Entry} {may : ChainState → Prop}

theorem Adds.nothing (h : log = s.log) :
  Adds s log may
  := by
  rw [h]
  exact ⟨[], rfl, fun _ _ _ hmem => absurd hmem List.not_mem_nil⟩

theorem Adds.quiet {new : List Entry} (h : log = new ++ s.log) (hquiet : ∀ e ∈ new, e.Quiet) :
  Adds s log may
  := ⟨new, h, fun _ _ _ hmem => (hquiet _ hmem).elim⟩

theorem Adds.error {e : VerifierError} (h : log = .asyncError e :: s.log) :
  Adds s log may
  := by
  apply @Adds.quiet _ _ _ [.asyncError e] h
  intro e' he'
  cases List.mem_singleton.mp he'
  trivial

theorem Adds.store {did : Did} {chain : ChainState} (h : may chain) :
  Adds s (s.store did chain).log may
  := by
  refine ⟨[_], rfl, ?_⟩
  intro did' prior chain' hmem
  cases List.mem_singleton.mp hmem
  exact h

theorem Adds.pushPending (config : VerifierConfig) (pending : PendingResync) (raw : RawCommit) :
  Adds s (s.pushPending config pending raw).log may
  := by
  rw [State.pushPending]
  split_ifs
  · exact Adds.error rfl
  · exact Adds.nothing rfl

theorem Adds.recordAnswer (result : Answer) :
  Adds s (s.recordAnswer result).log may
  := by
  cases result with
  | error e => exact Adds.error rfl
  | ok answer => exact Adds.nothing rfl

theorem Task.not_takesIn_of_finished {task : Task} (h : task.Finished) :
  task.takesIn = false
  := by
  cases task with
  | verifyCommit raw phase =>
      obtain ⟨result, rfl⟩ := h
      rfl
  | verifySync raw phase =>
      obtain ⟨result, rfl⟩ := h
      rfl
  | resync did phase =>
      obtain ⟨result, rfl⟩ := h
      rfl
  | job did phase =>
      cases h
      rfl
  | account raw phase => rfl

/-- The time at which a task took in what it works on, after a step. -/
def timeAfter (takesIn : Bool) (now : ℕ) (time : Option ℕ) : Option ℕ :=
  if takesIn then some now else time

theorem callTime_task (t : ℕ) (task : Task) (input : Input) (s s' : State) (events : List Taken) :
  callTime t (⟨s, .task t task input, s'⟩ :: events) =
    timeAfter task.takesIn input.now (callTime t events)
  := by
  rw [callTime, timeAfter]
  simp only [true_and]

/-- What a task does not take in leaves the time of its call as it is. -/
theorem callTime_other {t : ℕ} {label : Label} (s s' : State) (events : List Taken)
    (h : ∀ task input, label = .task t task input → task.takesIn = false) :
  callTime t (⟨s, label, s'⟩ :: events) = callTime t events
  := by
  cases label with
  | task u task input =>
      rw [callTime, if_neg]
      rintro ⟨rfl, htakesIn⟩
      rw [h task input rfl] at htakesIn
      cases htakesIn
  | _ => rfl

/-- The time of a call is that of one of its steps. -/
theorem callTime_mem {t now : ℕ} {events : List Taken} (h : callTime t events = some now) :
  ∃ e ∈ events, ∃ task input, e.label = .task t task input ∧ input.now = now
  := by
  induction events with
  | nil => cases h
  | cons e events ih =>
      obtain ⟨before, label, after⟩ := e
      have hrest : callTime t events = some now → ∃ e ∈ (⟨before, label, after⟩ : Taken) :: events,
          ∃ task input, e.label = .task t task input ∧ input.now = now := by
        intro hnow
        obtain ⟨e, he, hlabel⟩ := ih hnow
        exact ⟨e, List.mem_cons_of_mem _ he, hlabel⟩
      cases label with
      | task u task input =>
          rw [callTime] at h
          split_ifs at h with htask
          · obtain ⟨rfl, -⟩ := htask
            exact ⟨_, List.mem_cons_self, task, input, rfl, Option.some_inj.mp h⟩
          · exact hrest h
      | _ => exact hrest h

end

section

variable [Hashing] {config : VerifierConfig} {s s₁ : State} {t : ℕ} {input : Input}
  {entries : List Entry} {time : Option ℕ}

/-- A state whose revision was not in the future at the time of a call. -/
def TimelyState (config : VerifierConfig) (time : Option ℕ) (chain : ChainState) : Prop :=
  ∃ rev, chain.rev = Tid.format rev ∧ Timely config time rev

theorem CommitMove.adds {raw : RawCommit} {allowAsyncResync : Bool} {phase next : CommitPhase}
    (move : CommitMove config s t raw allowAsyncResync input phase next s₁ entries)
    (h : phase.Timely config time raw) :
  Adds s (entries ++ s₁.log) (TimelyState config time)
  := by
  cases move with
  | buffered => exact Adds.pushPending config _ _
  | enqueued outside workers opened hpending =>
      rw [State.enqueueResync, hpending]
      exact Adds.pushPending config _ _
  | spawned outside workers opened hpending =>
      rw [State.enqueueResync, hpending]
      exact Adds.nothing rfl
  | broken => exact Adds.store ⟨raw.rev, rfl, h⟩
  | saved =>
      refine ⟨[_, _], rfl, ?_⟩
      intro did prior chain hmem
      rcases List.mem_cons.mp hmem with heq | hmem
      · cases heq
      · cases List.mem_singleton.mp hmem
        exact ⟨raw.rev, rfl, h⟩
  | locked => exact Adds.nothing rfl
  | _ => exact Adds.nothing rfl

variable {did : Did}

theorem ResyncMove.adds {phase next : ResyncPhase}
    (move : ResyncMove config s t did input phase next s₁) (h : phase.Timely config time) :
  Adds s s₁.log (TimelyState config time)
  := by
  cases move with
  | @saved loaded => exact Adds.store ⟨loaded.commit.rev, rfl, h⟩
  | _ => exact Adds.nothing rfl

theorem SyncMove.adds {raw : RawSync} {phase next : SyncPhase}
    (move : SyncMove config s t raw input phase next s₁) (h : phase.Timely config time) :
  Adds s s₁.log (TimelyState config time)
  := by
  cases move with
  | @saved rev => exact Adds.store ⟨rev, rfl, h⟩
  | resync move => exact move.adds h
  | _ => exact Adds.nothing rfl

theorem JobMove.adds {phase next : JobPhase}
    (move : JobMove config s t did input phase next s₁ entries) (h : phase.Timely config time) :
  Adds s (entries ++ s₁.log) (TimelyState config time)
  := by
  cases move with
  | resync move => exact move.adds h
  | verify move => exact move.adds h
  | gaveUp => exact Adds.error rfl
  | verifiedLast => exact Adds.recordAnswer _
  | verified => exact Adds.recordAnswer _
  | finished event errors =>
      apply Adds.quiet rfl
      intro e he
      obtain ⟨error, -, rfl⟩ := List.mem_map.mp he
      trivial
  | sent =>
      apply Adds.quiet rfl
      intro e he
      cases List.mem_singleton.mp he
      trivial
  | drained => exact Adds.nothing rfl
  | settled => exact Adds.nothing rfl
  | _ => exact Adds.nothing rfl

theorem TaskMove.adds {task next : Task} (move : TaskMove config s t input task next s₁ entries)
    (h : task.Timely config time) :
  Adds s (entries ++ s₁.log) (TimelyState config time)
  := by
  cases move with
  | commit move => exact move.adds h
  | sync move => exact move.adds h
  | resync move => exact move.adds h
  | job move => exact move.adds h
  | account move =>
      cases move with
      | locked => exact Adds.nothing rfl
      | saved => exact Adds.nothing rfl
      | _ => exact Adds.nothing rfl

/-! ### What moves take in -/

theorem CommitMove.timely {raw : RawCommit} {allowAsyncResync : Bool} {phase next : CommitPhase}
    (move : CommitMove config s t raw allowAsyncResync input phase next s₁ entries)
    (h : phase.Timely config time raw) :
  next.Timely config (timeAfter phase.takesIn input.now time) raw
  := by
  cases move with
  | admitted hadmitted =>
      obtain ⟨_, hfuture, _⟩ := Except.bind_eq_ok.mp hadmitted
      have hrev : Timely config (some input.now) raw.rev :=
        ⟨input.now, rfl, Bool.eq_false_iff.mpr (Except.refuse_eq_ok.mp hfuture)⟩
      cases allowAsyncResync with
      | true => exact hrev
      | false => exact hrev
  | passed => exact h
  | locked => exact h
  | active => exact h
  | diverged => exact h
  | accepted => exact h
  | _ => trivial

theorem ResyncMove.timely {phase next : ResyncPhase}
    (move : ResyncMove config s t did input phase next s₁) (h : phase.Timely config time)
    (hpresent : phase.takesIn = true → ∀ loaded,
      fetchRepo config.texts config.opts did input.stream = .ok loaded →
        isFutureRev config.opts input.now loaded.commit.rev = false) :
  next.Timely config (timeAfter phase.takesIn input.now time)
  := by
  cases move with
  | @fetched loaded fetch verify => exact ⟨input.now, rfl, hpresent rfl loaded fetch⟩
  | locked => exact h
  | active => exact h
  | checked => exact h
  | _ => trivial

theorem SyncMove.timely {raw : RawSync} {phase next : SyncPhase}
    (move : SyncMove config s t raw input phase next s₁) (h : phase.Timely config time)
    (hpresent : input.Present config (.verifySync raw phase)) :
  next.Timely config (timeAfter phase.takesIn input.now time)
  := by
  cases move with
  | admitted parse hadmitted =>
      exact ⟨input.now, rfl, Bool.eq_false_iff.mpr (Except.refuse_eq_ok.mp hadmitted)⟩
  | locked => exact h
  | active => exact h
  | confirmed => exact h
  | @resync inner next s₁ move =>
      apply move.timely h
      intro hphase
      cases inner with
      | fetching => exact hpresent rfl
      | _ => cases hphase
  | _ => trivial

theorem JobMove.timely {phase next : JobPhase}
    (move : JobMove config s t did input phase next s₁ entries) (h : phase.Timely config time)
    (hpresent : input.Present config (.job did phase)) :
  next.Timely config (timeAfter phase.takesIn input.now time)
  := by
  cases move with
  | @resync oldRev reason inner next s₁ move =>
      apply move.timely h
      intro hphase
      cases inner with
      | fetching => exact hpresent rfl
      | _ => cases hphase
  | verify move => exact move.timely h
  | _ => trivial

theorem TaskMove.timely {task next : Task} (move : TaskMove config s t input task next s₁ entries)
    (h : task.Timely config time) (hpresent : input.Present config task) :
  next.Timely config (timeAfter task.takesIn input.now time)
  := by
  cases move with
  | commit move => exact move.timely h
  | sync move => exact move.timely h hpresent
  | @resync did phase next s₁ move =>
      apply move.timely h
      intro hphase
      cases phase with
      | fetching => exact hpresent rfl
      | _ => cases hphase
  | job move => exact move.timely h hpresent
  | account move => trivial

/-! ### Runs -/

/-- In a run whose fetched repositories are not in the future, no task may save what is. -/
theorem runs_timely {start : State} {events : List Taken} (hstart : start.Initial)
    (run : Runs config (fun task input => input.Present config task) start events s) :
  ∀ t task, s.tasks t = some task → task.Timely config (callTime t events)
  := by
  apply run.invariant
    (I := fun events s => ∀ t task, s.tasks t = some task → task.Timely config (callTime t events))
  · intro t task htask
    rw [hstart.tasks] at htask
    cases htask
  · intro events s label s' run ih hstep t task' htask'
    have hpresent : ∀ task input, label = .task t task input → input.Present config task := by
      rintro task input rfl
      exact hstep.input
    cases hstep.origin htask' with
    | kept hold other old =>
        rw [callTime_other]
        · exact ih t task' hold
        · intro task input hlabel
          exact Task.not_takesIn_of_finished (other task input hlabel).2.1
    | @called call new heq =>
        rw [heq]
        cases call <;> trivial
    | @moved task input s₁ entries hold ready move =>
        rw [callTime_task]
        exact move.timely (ih t task hold) (hpresent task input rfl)
    | spawned new other number heq =>
        rw [heq]
        trivial

/-- In a run whose fetched repositories are not in the future, no state is saved that was in the
future when the call that saves it took it in. -/
theorem runs_savesTimely {start : State} {later earlier : List Taken} {e : Taken}
    (hstart : start.Initial)
    (run : Runs config (fun task input => input.Present config task) start
      (later ++ e :: earlier) s) :
  SavesTimely config earlier e
  := by
  rintro did chain ⟨prior, new, hlog⟩
  obtain ⟨before, label, after⟩ := e
  obtain ⟨hrun, hstep⟩ := run.split
  dsimp only at hrun hstep hlog
  have hnothing : after.log ≠ before.log := by
    rw [hlog]
    intro heq
    have hlength := congrArg List.length heq
    rw [List.length_append, List.length_cons] at hlength
    omega
  cases hstep with
  | call call new => exact absurd rfl hnothing
  | drop given => exact absurd rfl hnothing
  | close => exact absurd rfl hnothing
  | @task t task input running ready spawned ok =>
      rcases stepTask_move config before t task input with
        ⟨-, heq⟩ | ⟨next, s₁, entries, move, heq⟩
      · rw [heq] at hnothing
        exact absurd rfl hnothing
      · obtain ⟨added, hadded, hmay⟩ := move.adds (runs_timely hstart hrun t task running)
        have hsame : added ++ before.log = new ++ .saved did prior chain :: before.log := by
          rw [← hadded, ← hlog, heq]
          rfl
        have hadded' : added ++ before.log = (new ++ [.saved did prior chain]) ++ before.log := by
          rw [hsame, List.append_assoc]
          rfl
        have hmem : .saved did prior chain ∈ added := by
          rw [List.append_cancel_right hadded']
          exact List.mem_append_right _ List.mem_cons_self
        obtain ⟨rev, hrev, now, htime, hfuture⟩ := hmay did prior chain hmem
        exact ⟨t, task, input, now, rev, rfl, htime, hrev, hfuture⟩

end

namespace Sample

attribute [local instance] Hashing.checksum

/-- A verifier that fetches repositories. -/
def fetching : VerifierConfig :=
  { config with opts :=
    { config.opts with hasRepoSource := true, repoLoadLimits := ⟨10000, 1000, 10000, 1000⟩ } }

/-- A commit of the far future. -/
def lateCommit : Commit := { commit with rev := ⟨0x10000000000⟩ }

/-- The repository of the commit. -/
def lateCar : Bytes := Repo.Sample.carOf lateCommit [Repo.Sample.leaf "j0", Repo.Sample.record]

/-- A key that accepts the signature of the commit. -/
def lateKey : VerifyingKey := Repo.Sample.keyOf lateCommit

/-- The repository arrives long before the time of its commit. -/
def lateInput : Input :=
  { input with answer := ⟨.ok (some lateKey), .ok (), .ok none⟩, stream := .ok [.ok lateCar] }

/-- The repository of the other commit arrives after its time. -/
def fetchInput : Input := { input with stream := .ok [.ok car] }

/-- Whether the first task is a call about the user. -/
def ofUser (s : State) : Bool := (s.tasks 0).any fun task => task.did = Repo.Sample.did

/-- A resync of the user goes on. -/
def resynced (given : Input) : Option State :=
  (start.put fetching 0 (.resync Repo.Sample.did .lockingFirst)).script fetching ofUser
    (List.replicate 7 (0, given))

/-- Whether a resync of the user is about to save a revision. -/
def savesRev (rev : Tid) : Option Task → Bool
  | some (.resync did (.saving _ loaded)) => did = Repo.Sample.did ∧ loaded.commit.rev = rev
  | _ => false

/-- What is computed of resyncs that are about to save, and of a repository that is fetched. -/
theorem saves_computed :
  ((resynced lateInput).any fun s =>
      savesRev lateCommit.rev (s.tasks 0) ∧ (s.tasks 1).isNone) = true ∧
    ((resynced fetchInput).any fun s =>
      savesRev commit.rev (s.tasks 0) ∧ (s.tasks 1).isNone) = true ∧
    ((fetchRepo fetching.texts fetching.opts Repo.Sample.did fetchInput.stream).toOption.all
      fun loaded => isFutureRev fetching.opts fetchInput.now loaded.commit.rev = false) = true
  := by decide +kernel

/-- A resync saves what it has fetched. -/
theorem resync_saves {allowed : Task → Input → Prop} {given : Input} {rev : Tid}
    (hresynced : ((resynced given).any fun s =>
      savesRev rev (s.tasks 0) ∧ (s.tasks 1).isNone) = true)
    (hspawned : given.spawned = 1)
    (hallowed : ∀ task, task.did = Repo.Sample.did → allowed task given) :
  ∃ s s' chain loaded earlier, Runs fetching allowed start
      (⟨s, .task 0 (.resync Repo.Sample.did (.saving chain loaded)) given, s'⟩ :: earlier) s' ∧
    s' = stepTask fetching s 0 (.resync Repo.Sample.did (.saving chain loaded)) given ∧
    loaded.commit.rev = rev ∧
    ∀ e ∈ earlier, ∀ t task input, e.label = .task t task input → input = given
  := by
  obtain ⟨s, hs, hsaves⟩ := (Option.any_eq_true _ _).mp hresynced
  rw [Bool.decide_and, Bool.and_eq_true, decide_eq_true_eq, decide_eq_true_eq] at hsaves
  obtain ⟨hsaves, hnone⟩ := hsaves
  have hcall : Runs fetching allowed start [⟨start, .call 0 (.resync Repo.Sample.did), _⟩]
      (start.put fetching 0 (.resync Repo.Sample.did .lockingFirst)) :=
    .tail .refl (.call (.resync Repo.Sample.did) rfl)
  obtain ⟨events, run, hevents⟩ := Runs.script hcall hs (by
    intro move hmove s task hcheck htask
    cases List.eq_of_mem_replicate hmove
    rw [ofUser, htask] at hcheck
    exact hallowed task (of_decide_eq_true hcheck))
  rw [savesRev.eq_def] at hsaves
  split at hsaves
  · rename_i did chain loaded htask
    obtain ⟨rfl, hrev⟩ := of_decide_eq_true hsaves
    have hfree : s.tasks given.spawned = none := by
      rw [hspawned]
      exact Option.isNone_iff_eq_none.mp hnone
    have hstep : Labelled fetching allowed s _ _ := .task htask nofun hfree (hallowed _ rfl)
    refine ⟨s, _, chain, loaded, _, run.tail hstep, rfl, hrev, ?_⟩
    intro e he t task input hlabel
    rcases List.mem_append.mp he with he | he
    · obtain ⟨t', task', input', hlabel', hmem, -⟩ := hevents e he
      rw [hlabel] at hlabel'
      cases hlabel'
      cases List.eq_of_mem_replicate hmem
      rfl
    · cases List.mem_singleton.mp he
      cases hlabel
  · cases hsaves

/-- A resync saves a state of the far future. -/
theorem late_saved :
  ∃ start s e earlier, start.Initial ∧
    Runs fetching (fun _ _ => True) start (e :: earlier) s ∧ ¬SavesTimely fetching earlier e
  := by
  obtain ⟨s, s', chain, loaded, earlier, run, rfl, hlate, hevents⟩ :=
    @resync_saves (fun _ _ => True) _ _ saves_computed.1 rfl fun _ _ => trivial
  refine ⟨start, _, _, _, start_initial, run, ?_⟩
  intro htimely
  obtain ⟨t, task, input, now, rev, -, htime, hrev, hfuture⟩ :=
    htimely Repo.Sample.did ⟨loaded.commit.rev.format, loaded.commit.data⟩ ⟨_, [], rfl⟩
  have hnow : now = lateInput.now := by
    obtain ⟨e, he, task, input, hlabel, hnow⟩ := callTime_mem htime
    rw [← hnow, hevents e he _ _ _ hlabel]
  have hlate' : rev = lateCommit.rev := by
    have hparse := rev.tryFrom_format
    rw [← hrev, Tid.tryFrom_format] at hparse
    cases hparse
    exact hlate
  rw [hnow, hlate'] at hfuture
  exact absurd hfuture (by decide)

/-- A resync that fetches a repository saves its revision in time. -/
theorem fetched_timely :
  ∃ s e earlier chain loaded,
    Runs fetching (fun task input => input.Present fetching task) start (e :: earlier) s ∧
      e.label = .task 0 (.resync Repo.Sample.did (.saving chain loaded)) fetchInput ∧
      (∃ did chain, Saves e did chain) ∧ SavesTimely fetching earlier e
  := by
  have hpresent : ∀ task : Task, task.did = Repo.Sample.did → fetchInput.Present fetching task := by
    intro task hdid _ loaded hfetch
    have htimely := saves_computed.2.2
    rw [← hdid, hfetch] at htimely
    exact of_decide_eq_true htimely
  obtain ⟨s, s', chain, loaded, earlier, run, rfl, -⟩ :=
    resync_saves saves_computed.2.1 rfl hpresent
  have hrun : Runs fetching (fun task input => input.Present fetching task) start ([] ++ _ :: _) _
    := run
  exact ⟨_, _, earlier, chain, loaded, run, rfl, ⟨_, _, _, [], rfl⟩,
    runs_savesTimely start_initial hrun⟩

end Sample

end Shrike.Sync
