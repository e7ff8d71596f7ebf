import Shrike.Sync.Drain

/-!
# The commits that wait for a repository

A ledger of the commits that are queued while their repository is fetched, of those that the
background job passes on to be verified, and of those whose verification is over.
-/

namespace Shrike.Sync

open Cbor Syntax Mst Car Repo Bytes Streaming

/-! ### The ledger -/

section

variable (did : Did)

/-- The commits that a step adds to those that wait for a repository. -/
def queuedBy (e : Taken) : List RawCommit :=
  match e.before.pending did, e.after.pending did with
  | some before, some after => after.commits.drop before.commits.length
  | _, _ => []

/-- The commit that a step of a job passes on to be verified. -/
def passedBy (e : Taken) : List RawCommit :=
  match e.label with
  | .task t (.job d _) _ =>
      match e.after.tasks t with
      | some (.job _ (.verifying _ _ _ raw .starting _)) => if d = did then [raw] else []
      | _ => []
  | _ => []

/-- The commit whose verification by a job is over at a step. -/
def finishedBy (e : Taken) : List RawCommit :=
  match e.label with
  | .task _ (.job d (.verifying _ _ _ raw (.returned _) _)) _ => if d = did then [raw] else []
  | _ => []

/-- What the steps of a run do, the earliest first. -/
def ledger (by_ : Taken → List RawCommit) : List Taken → List RawCommit
  | [] => []
  | e :: events => ledger by_ events ++ by_ e

/-- The commits that were queued. -/
def queued (events : List Taken) : List RawCommit := ledger (queuedBy did) events

/-- The commits that were passed on to be verified. -/
def passed (events : List Taken) : List RawCommit := ledger (passedBy did) events

/-- The commits whose verification by a job is over. -/
def finished (events : List Taken) : List RawCommit := ledger (finishedBy did) events

/-- A step removes the entry of a repository. -/
def Removes (e : Taken) : Prop :=
  (e.before.pending did).isSome = true ∧ e.after.pending did = none

/-- A call goes on to verify its commit itself. -/
def Enters (e : Taken) : Prop :=
  ∃ t raw input, raw.repo = did ∧ e.label = .task t (.verifyCommit raw .buffering) input ∧
    e.after.tasks t = some (.verifyCommit raw .locking)

/-- A call gives its commit away: it is to wait, or to be made good by a fetch of its repository. If
the fetch starts now, the call only keeps the handle of its job before it returns. -/
def GivesAway (e : Taken) (raw : RawCommit) : Prop :=
  ∃ t phase next input, raw.repo = did ∧
    (phase = .buffering ∨ ∃ error chain, phase = .recovering error chain) ∧
      (next = .returned (.ok none) ∨ ∃ job, next = .registering job) ∧
        e.label = .task t (.verifyCommit raw phase) input ∧
          e.after.tasks t = some (.verifyCommit raw next)

/-- A step at which the verifier is open, no job of a repository is given up or sees its fetch fail,
and there is room for one more commit. -/
structure Steady (config : VerifierConfig) (e : Taken) : Prop where
  opened : e.label ≠ .close
  kept : ∀ given t phase, e.label = .drop given → e.before.tasks t = some (.job did phase) →
    given t = false
  room : ∀ pending, e.before.pending did = some pending →
    pending.commits.length < config.opts.pendingQueueCapacity
  fetched : ∀ t oldRev reason error input,
    e.label ≠ .task t (.job did (.resyncing oldRev reason (.returned (.error error)))) input

end

/-- The commit that a job is verifying. -/
def JobPhase.current : JobPhase → List RawCommit
  | .verifying _ _ _ raw _ _ => [raw]
  | _ => []

/-- The commits that a job has taken and not yet passed on. -/
def JobPhase.rest : JobPhase → List RawCommit
  | .verifying _ _ _ _ _ rest => rest
  | _ => []

/-- Whether a job is still to come to the end of its loop. -/
def JobPhase.isWorking : JobPhase → Bool
  | .reading => true
  | .resyncing _ _ _ => true
  | .draining _ _ _ => true
  | .settling _ _ _ => true
  | .verifying _ _ _ _ .buffering _ => false
  | .verifying _ _ _ _ _ _ => true
  | _ => false

/-- The ledger of a repository in a state: nothing waits and no job works on it, or one job does and
what is queued is what was passed on, what the job took and what waits. -/
inductive Balanced (config : VerifierConfig) (did : Did) (events : List Taken) (s : State) :
    Prop where
  | idle (pending : s.pending did = none)
      (jobs : ∀ u phase, s.tasks u = some (.job did phase) → phase.hasLeft = true)
      (passed : passed did events = queued did events)
      (finished : finished did events = queued did events) : Balanced config did events s
  | busy (t : ℕ) (pending : PendingResync) (phase : JobPhase)
      (entry : s.pending did = some pending) (task : s.tasks t = some (.job did phase))
      (working : phase.isWorking = true)
      (jobs : ∀ u phase, u ≠ t → s.tasks u = some (.job did phase) → phase.hasLeft = true)
      (workers : config.opts.asyncResyncWorkers ≠ 0) (opened : s.closed = false)
      (queued : queued did events = passed did events ++ phase.rest ++ pending.commits)
      (passed : passed did events = finished did events ++ phase.current) :
      Balanced config did events s

/-! ### Steps beside a repository -/

/-- What a step that is none of a job of a repository does to the entry and the jobs of the
repository. -/
inductive Beside (config : VerifierConfig) (did : Did) (s s' : State) : Prop where
  | same (pending : s'.pending did = s.pending did)
      (jobs : ∀ u phase, s'.tasks u = some (.job did phase) ↔ s.tasks u = some (.job did phase)) :
      Beside config did s s'
  | queued (raw : RawCommit) (pending : PendingResync) (before : s.pending did = some pending)
      (after : s'.pending did = some { pending with commits := pending.commits ++ [raw] })
      (jobs : ∀ u phase, s'.tasks u = some (.job did phase) ↔ s.tasks u = some (.job did phase)) :
      Beside config did s s'
  | opened (u : ℕ) (pending : PendingResync) (before : s.pending did = none)
      (after : s'.pending did = some pending) (commits : pending.commits = [])
      (job : s'.tasks u = some (.job did .reading))
      (jobs : ∀ v phase, v ≠ u →
        (s'.tasks v = some (.job did phase) ↔ s.tasks v = some (.job did phase)))
      (workers : config.opts.asyncResyncWorkers ≠ 0) (opened : s.closed = false) :
      Beside config did s s'

/-- A task is not a job of a repository. -/
def Task.NotJob (did : Did) (task : Task) : Prop := ∀ phase, task ≠ .job did phase

section

variable {config : VerifierConfig} {did : Did} {s s₁ : State} {t : ℕ}

/-- A task that is not a job of the repository goes on. -/
theorem Beside.put (h : Beside config did s s₁) {task next : Task} {u : ℕ}
    (htask : s.tasks t = some task) (hother : task.NotJob did) (hnext : next.NotJob did)
    (hspawned : s.tasks u = none)
    (hfrom : ∀ v, s₁.tasks v = s.tasks v ∨ v = u) (entries : List Entry) :
  Beside config did s ((s₁.put config t next).record entries)
  := by
  have hself : ((s₁.put config t next).record entries).tasks t = some next :=
    s₁.put_tasks_self config t next
  have hrest : ∀ v, v ≠ t → ((s₁.put config t next).record entries).tasks v = s₁.tasks v :=
    fun v hv => s₁.put_tasks_of_ne config hv next
  have htu : t ≠ u := by
    rintro rfl
    rw [htask] at hspawned
    cases hspawned
  have hold : s₁.tasks t = some task := by
    rcases hfrom t with heq | heq
    · rw [heq, htask]
    · exact absurd heq htu
  have hjobs : ∀ v phase, ((s₁.put config t next).record entries).tasks v = some (.job did phase) ↔
      s₁.tasks v = some (.job did phase) := by
    intro v phase
    by_cases hv : v = t
    · subst hv
      rw [hself, hold]
      constructor
      · intro heq
        exact absurd (Option.some_inj.mp heq) (hnext phase)
      · intro heq
        exact absurd (Option.some_inj.mp heq) (hother phase)
    · rw [hrest v hv]
  cases h with
  | same pending jobs => exact .same pending fun v phase => (hjobs v phase).trans (jobs v phase)
  | queued raw pending before after jobs =>
      exact .queued raw pending before after fun v phase => (hjobs v phase).trans (jobs v phase)
  | opened w pending before after commits job jobs workers opened =>
      exact .opened w pending before after commits ((hjobs w _).mpr job)
        (fun v phase hv => (hjobs v phase).trans (jobs v phase hv)) workers opened

theorem Beside.pushPending {pending : PendingResync} {raw : RawCommit}
    (hpending : s.pending raw.repo = some pending)
    (hroom : ∀ pending, s.pending did = some pending →
      pending.commits.length < config.opts.pendingQueueCapacity) :
  Beside config did s (s.pushPending config pending raw)
  := by
  by_cases hdid : raw.repo = did
  · subst hdid
    rw [State.pushPending, if_neg (Nat.not_le.mpr (hroom pending hpending))]
    exact .queued raw pending hpending (Function.update_self ..) fun u phase => Iff.rfl
  · rw [State.pushPending]
    split_ifs
    · exact .same rfl fun u phase => Iff.rfl
    · exact .same (Function.update_of_ne (Ne.symm hdid) ..) fun u phase => Iff.rfl

theorem pushPending_tasks (pending : PendingResync) (raw : RawCommit) :
  (s.pushPending config pending raw).tasks = s.tasks ∧
    (s.pushPending config pending raw).closed = s.closed
  := by
  rw [State.pushPending]
  split_ifs
  · exact ⟨rfl, rfl⟩
  · exact ⟨rfl, rfl⟩

theorem Beside.enqueueResync {raw : RawCommit} {oldRev : Option Bytes} {error : VerifierError}
    {input : Input} (hroom : ∀ pending, s.pending did = some pending →
      pending.commits.length < config.opts.pendingQueueCapacity)
    (hspawned : s.tasks input.spawned = none)
    (hworkers : config.opts.asyncResyncWorkers ≠ 0) (hopened : s.closed = false) :
  Beside config did s (s.enqueueResync config raw oldRev error input) ∧
    (s.enqueueResync config raw oldRev error input).closed = s.closed
  := by
  rw [State.enqueueResync]
  split
  · rename_i pending hpending
    exact ⟨.pushPending hpending hroom, (pushPending_tasks pending raw).2⟩
  · rename_i habsent
    refine ⟨?_, rfl⟩
    by_cases hdid : raw.repo = did
    · subst hdid
      refine .opened input.spawned _ habsent (Function.update_self ..) rfl (Function.update_self ..)
        ?_ hworkers hopened
      intro v phase hv
      dsimp only
      rw [Function.update_of_ne hv]
    · refine .same (Function.update_of_ne (Ne.symm hdid) ..) ?_
      intro v phase
      by_cases hv : v = input.spawned
      · subst hv
        dsimp only
        rw [Function.update_self, hspawned]
        constructor
        · intro heq
          cases heq
          exact absurd rfl hdid
        · intro heq
          cases heq
      · dsimp only
        rw [Function.update_of_ne hv]

end

section

variable [Hashing] {config : VerifierConfig} {did : Did} {s s₁ : State} {t : ℕ} {input : Input}
  {entries : List Entry}

/-- The verification of a commit, seen from a repository. -/
theorem CommitMove.beside {raw : RawCommit} {allowAsyncResync : Bool} {phase next : CommitPhase}
    (move : CommitMove config s t raw allowAsyncResync input phase next s₁ entries)
    (hroom : ∀ pending, s.pending did = some pending →
      pending.commits.length < config.opts.pendingQueueCapacity)
    (hspawned : s.tasks input.spawned = none) :
  Beside config did s s₁ ∧ s₁.closed = s.closed
  := by
  cases move with
  | buffered workers opened h => exact ⟨.pushPending h hroom, (pushPending_tasks _ _).2⟩
  | enqueued outside workers opened => exact Beside.enqueueResync hroom hspawned workers opened
  | spawned outside workers opened => exact Beside.enqueueResync hroom hspawned workers opened
  | _ => exact ⟨.same rfl fun u phase => Iff.rfl, rfl⟩

/-- The verification of a waiting commit leaves all entries as they are. -/
theorem CommitMove.waiting {raw : RawCommit} {phase next : CommitPhase}
    (move : CommitMove config s t raw false input phase next s₁ entries)
    (hphase : phase ≠ .buffering) :
  s₁.pending = s.pending ∧ s₁.closed = s.closed ∧ s₁.tasks = s.tasks ∧ next ≠ .buffering
  := by
  cases move with
  | buffered => exact absurd rfl hphase
  | passed => exact absurd rfl hphase
  | enqueued outside => cases outside
  | spawned outside => cases outside
  | _ => exact ⟨rfl, rfl, rfl, nofun⟩

theorem ResyncMove.waiting {d : Did} {phase next : ResyncPhase}
    (move : ResyncMove config s t d input phase next s₁) :
  s₁.pending = s.pending ∧ s₁.closed = s.closed ∧ s₁.tasks = s.tasks
  := by
  cases move <;> exact ⟨rfl, rfl, rfl⟩

/-- A job of another repository. -/
theorem JobMove.beside {d : Did} {phase next : JobPhase}
    (move : JobMove config s t d input phase next s₁ entries) (hd : d ≠ did)
    (hroom : ∀ pending, s.pending did = some pending →
      pending.commits.length < config.opts.pendingQueueCapacity)
    (hspawned : s.tasks input.spawned = none) :
  Beside config did s s₁ ∧ s₁.closed = s.closed
  := by
  have hupdate : ∀ value, Function.update s.pending d value did = s.pending did :=
    fun value => Function.update_of_ne (Ne.symm hd) ..
  cases move with
  | resync move =>
      obtain ⟨hpending, hclosed, htasks⟩ := move.waiting
      refine ⟨.same (by rw [hpending]) ?_, hclosed⟩
      intro u phase
      rw [htasks]
  | verify move => exact move.beside hroom hspawned
  | gaveUp => exact ⟨.same (hupdate _) fun u phase => Iff.rfl, rfl⟩
  | drained => exact ⟨.same (hupdate _) fun u phase => Iff.rfl, rfl⟩
  | settled => exact ⟨.same (hupdate _) fun u phase => Iff.rfl, rfl⟩
  | @verifiedLast _ _ _ _ result =>
      cases result with
      | error e => exact ⟨.same rfl fun u phase => Iff.rfl, rfl⟩
      | ok answer => exact ⟨.same rfl fun u phase => Iff.rfl, rfl⟩
  | @verified _ _ _ _ _ result =>
      cases result with
      | error e => exact ⟨.same rfl fun u phase => Iff.rfl, rfl⟩
      | ok answer => exact ⟨.same rfl fun u phase => Iff.rfl, rfl⟩
  | _ => exact ⟨.same rfl fun u phase => Iff.rfl, rfl⟩

/-- A task that is not a job of the repository. -/
theorem TaskMove.beside {task next : Task} (move : TaskMove config s t input task next s₁ entries)
    (htask : task.NotJob did)
    (hroom : ∀ pending, s.pending did = some pending →
      pending.commits.length < config.opts.pendingQueueCapacity)
    (hspawned : s.tasks input.spawned = none) :
  Beside config did s s₁ ∧ s₁.closed = s.closed ∧ next.NotJob did
  := by
  cases move with
  | commit move =>
      obtain ⟨hbeside, hclosed⟩ := move.beside hroom hspawned
      exact ⟨hbeside, hclosed, fun phase heq => by cases heq⟩
  | sync move =>
      refine ⟨?_, ?_, fun phase heq => by cases heq⟩
      · cases move with
        | resync move =>
            obtain ⟨hpending, hclosed, htasks⟩ := move.waiting
            refine .same (by rw [hpending]) ?_
            intro u phase
            rw [htasks]
        | _ => exact .same rfl fun u phase => Iff.rfl
      · cases move with
        | resync move => exact move.waiting.2.1
        | _ => rfl
  | resync move =>
      obtain ⟨hpending, hclosed, htasks⟩ := move.waiting
      refine ⟨.same (by rw [hpending]) ?_, hclosed, fun phase heq => by cases heq⟩
      intro u phase
      rw [htasks]
  | @job d phase next s₁ entries move =>
      have hd : d ≠ did := by
        rintro rfl
        exact htask phase rfl
      obtain ⟨hbeside, hclosed⟩ := move.beside hd hroom hspawned
      refine ⟨hbeside, hclosed, ?_⟩
      intro phase' heq
      cases heq
      exact hd rfl
  | account move =>
      refine ⟨?_, ?_, fun phase heq => by cases heq⟩
      · cases move <;> exact .same rfl fun u phase => Iff.rfl
      · cases move <;> rfl

/-- A step that is none of a job of the repository. -/
theorem Labelled.beside {allowed : Task → Input → Prop} {label : Label} {s' : State}
    (hstep : Labelled config allowed s label s') (hsteady : Steady did config ⟨s, label, s'⟩)
    (hother : ∀ t phase input, label ≠ .task t (.job did phase) input) :
  Beside config did s s' ∧ s'.closed = s.closed
  := by
  cases hstep with
  | @call t call new =>
      refine ⟨.same rfl ?_, rfl⟩
      intro u phase
      by_cases hu : u = t
      · subst hu
        rw [State.put_tasks_self, new]
        constructor
        · intro heq
          cases call <;> cases heq
        · intro heq
          cases heq
      · rw [State.put_tasks_of_ne config s hu]
  | @task t task input running ready spawned ok =>
      have htask : task.NotJob did := by
        rintro phase rfl
        exact hother t phase input rfl
      rcases stepTask_move config s t task input with ⟨-, heq⟩ | ⟨next, s₁, entries, move, heq⟩
      · rw [heq]
        exact ⟨.same rfl fun u phase => Iff.rfl, rfl⟩
      · rw [heq]
        obtain ⟨hbeside, hclosed, hnext⟩ := move.beside htask hsteady.room spawned
        refine ⟨hbeside.put running htask hnext spawned ?_ entries, hclosed⟩
        intro v
        rcases (move.tasks (u := v)).2 with hold | ⟨hnew, -⟩
        · exact .inl hold
        · exact .inr hnew
  | drop given =>
      refine ⟨.same rfl ?_, rfl⟩
      intro u phase
      rw [State.drop]
      dsimp only
      split_ifs with hgiven
      · constructor
        · intro heq
          cases heq
        · intro heq
          rw [hsteady.kept given u phase rfl heq] at hgiven
          cases hgiven
      · exact Iff.rfl
  | close => exact absurd rfl hsteady.opened

end

/-! ### The balance -/

section

variable {did : Did} {t : ℕ} {input : Input}

variable {next phase : JobPhase} {e : Taken}

theorem queuedBy_of_entry {before after : PendingResync}
    (hbefore : e.before.pending did = some before) (hafter : e.after.pending did = some after) :
  queuedBy did e = after.commits.drop before.commits.length
  := by
  rw [queuedBy, hbefore, hafter]

theorem queued_of_kept {pending : PendingResync}
    (hbefore : e.before.pending did = some pending) (hafter : e.after.pending did = some pending)
    (events : List Taken) :
  queued did (e :: events) = queued did events
  := by
  rw [queued, ledger, queuedBy_of_entry hbefore hafter, List.drop_length, List.append_nil, queued]

theorem queued_of_absent
    (h : e.before.pending did = none ∨ e.after.pending did = none) (events : List Taken) :
  queued did (e :: events) = queued did events
  := by
  have hnothing : queuedBy did e = [] := by
    rw [queuedBy]
    rcases h with h | h
    · rw [h]
    · rw [h]
      cases e.before.pending did <;> rfl
  rw [queued, ledger, hnothing, List.append_nil, queued]

/-- The commit that a job has just passed on. -/
def JobPhase.fresh : JobPhase → List RawCommit
  | .verifying _ _ _ raw .starting _ => [raw]
  | _ => []

/-- The commit whose verification by a job is over. -/
def JobPhase.over : JobPhase → List RawCommit
  | .verifying _ _ _ raw (.returned _) _ => [raw]
  | _ => []

theorem passedBy_job (hlabel : e.label = .task t (.job did phase) input)
    (hafter : e.after.tasks t = some (.job did next)) :
  passedBy did e = next.fresh
  := by
  rw [passedBy, hlabel]
  dsimp only
  rw [hafter]
  rw [JobPhase.fresh.eq_def]
  split
  · rename_i heq
    cases heq
    rw [if_pos rfl]
  · rename_i hne
    split
    · rename_i raw rest
      exact absurd rfl (hne did _ _ _ raw rest)
    · rfl

theorem finishedBy_job (hlabel : e.label = .task t (.job did phase) input) :
  finishedBy did e = phase.over
  := by
  rw [finishedBy, hlabel]
  cases phase with
  | verifying oldRev reason ops raw phase rest =>
      cases phase with
      | returned result => exact if_pos rfl
      | _ => rfl
  | _ => rfl

theorem JobPhase.fresh_of_hasLeft (h : phase.hasLeft = true) :
  phase.fresh = [] ∧ phase.over = []
  := by
  cases phase with
  | finishing => exact ⟨rfl, rfl⟩
  | sending => exact ⟨rfl, rfl⟩
  | returned => exact ⟨rfl, rfl⟩
  | _ => cases h

theorem JobPhase.over_of_fresh {raw : RawCommit}
    (hfresh : next.fresh = [raw]) (h : phase.current ++ next.fresh = phase.over ++ next.current) :
  phase.current = phase.over
  := by
  have hcurrent : next.current = next.fresh := by
    cases next with
    | verifying oldRev reason ops raw phase rest =>
        cases phase with
        | starting => rfl
        | _ => cases hfresh
    | _ => cases hfresh
  rw [hcurrent] at h
  exact List.append_cancel_right h

theorem JobPhase.fresh_cases (phase : JobPhase) :
  phase.fresh = [] ∨ ∃ raw, phase.fresh = [raw]
  := by
  cases phase with
  | verifying oldRev reason ops raw phase rest =>
      cases phase with
      | starting => exact .inr ⟨raw, rfl⟩
      | _ => exact .inl rfl
  | _ => exact .inl rfl

theorem passedBy_other (h : ∀ t phase input, e.label ≠ .task t (.job did phase) input) :
  passedBy did e = [] ∧ finishedBy did e = []
  := by
  constructor
  · rw [passedBy]
    split
    · rename_i t d phase input heq
      split
      · rw [if_neg]
        rintro rfl
        exact h t phase input heq
      · rfl
    · rfl
  · rw [finishedBy]
    split
    · rename_i heq
      rw [if_neg]
      rintro rfl
      exact h _ _ _ heq
    · rfl

end

section

variable {config : VerifierConfig} {did : Did} {s s₁ s' : State} {t : ℕ} {input : Input}
  {entries : List Entry} {events : List Taken}

variable {next phase : JobPhase} {e : Taken}

/-- A step beside the repository keeps the balance. -/
theorem Balanced.beside (h : Balanced config did events s) (hbefore : e.before = s)
    (hafter : e.after = s') (hbeside : Beside config did s s') (hclosed : s'.closed = s.closed)
    (hother : ∀ t phase input, e.label ≠ .task t (.job did phase) input) :
  Balanced config did (e :: events) s'
  := by
  subst hbefore hafter
  obtain ⟨hpassed, hfinished⟩ := passedBy_other hother
  have hledger : passed did (e :: events) = passed did events ∧
      finished did (e :: events) = finished did events := by
    constructor
    · rw [passed, ledger, hpassed, List.append_nil, passed]
    · rw [finished, ledger, hfinished, List.append_nil, finished]
  cases h with
  | idle pending jobs hp hf =>
      cases hbeside with
      | same hsame hjobs =>
          have hqueued := queued_of_absent (.inl pending) events
          apply Balanced.idle
          · rw [hsame, pending]
          · intro u phase htask
            exact jobs u phase ((hjobs u phase).mp htask)
          · rw [hledger.1, hqueued, hp]
          · rw [hledger.2, hqueued, hf]
      | queued raw pending' before => rw [pending] at before; cases before
      | opened u pending' before after commits job hjobs workers opened =>
          have hqueued := queued_of_absent (.inl pending) events
          apply Balanced.busy u pending' .reading after job rfl
          · intro v phase hv htask
            exact jobs v phase ((hjobs v phase hv).mp htask)
          · exact workers
          · rw [hclosed, opened]
          · rw [hqueued, hledger.1, hp, commits]
            simp only [JobPhase.rest, List.append_nil]
          · rw [hledger.1, hledger.2, hp, hf]
            simp only [JobPhase.current, List.append_nil]
  | busy t pending phase entry task working jobs workers opened hq hp =>
      cases hbeside with
      | same hsame hjobs =>
          have hentry : e.after.pending did = some pending := hsame.trans entry
          have hqueued := queued_of_kept entry hentry events
          apply Balanced.busy t pending phase hentry ((hjobs t phase).mpr task) working
          · intro v phase' hv htask
            exact jobs v phase' hv ((hjobs v phase').mp htask)
          · exact workers
          · rw [hclosed, opened]
          · rw [hqueued, hledger.1, hq]
          · rw [hledger.1, hledger.2, hp]
      | queued raw pending' before after hjobs =>
          rw [entry] at before
          cases before
          have hqueued : queued did (e :: events) = queued did events ++ [raw] := by
            rw [queued, ledger, queuedBy_of_entry entry after, List.drop_left, queued]
          apply Balanced.busy t _ phase after ((hjobs t phase).mpr task) working
          · intro v phase' hv htask
            exact jobs v phase' hv ((hjobs v phase').mp htask)
          · exact workers
          · rw [hclosed, opened]
          · rw [hqueued, hledger.1, hq, List.append_assoc]
          · rw [hledger.1, hledger.2, hp]
      | opened u pending' before => rw [entry] at before; cases before

/-- A step of a job of the repository, seen from the repository. -/
structure JobStep (did : Did) (t : ℕ) (phase next : JobPhase) (s₁ : State) (e : Taken) : Prop where
  label : ∃ input, e.label = .task t (.job did phase) input
  running : e.before.tasks t = some (.job did phase)
  self : e.after.tasks t = some (.job did next)
  rest : ∀ v, v ≠ t → e.after.tasks v = e.before.tasks v
  pending : e.after.pending = s₁.pending
  closed : e.after.closed = e.before.closed

/-- What a step of a job adds to the ledger. -/
theorem JobStep.ledger (h : JobStep did t phase next s₁ e) :
  passed did (e :: events) = passed did events ++ next.fresh ∧
    finished did (e :: events) = finished did events ++ phase.over
  := by
  obtain ⟨input, hlabel⟩ := h.label
  constructor
  · rw [passed, Sync.ledger, passedBy_job hlabel h.self, passed]
  · rw [finished, Sync.ledger, finishedBy_job hlabel, finished]

/-- The tasks beside a job that goes on. -/
theorem JobStep.of_put (hlabel : e.label = .task t (.job did phase) input)
    (hrunning : e.before.tasks t = some (.job did phase))
    (hafter : e.after = (s₁.put config t (.job did next)).record entries)
    (htasks : s₁.tasks = e.before.tasks) (hclosed : s₁.closed = e.before.closed) :
  JobStep did t phase next s₁ e
  := by
  constructor
  · exact ⟨input, hlabel⟩
  · exact hrunning
  · rw [hafter]
    exact s₁.put_tasks_self config t _
  · intro v hv
    rw [hafter, ← htasks]
    exact s₁.put_tasks_of_ne config hv _
  · rw [hafter]
    rfl
  · rw [hafter, ← hclosed]
    rfl

/-- A step of a job whose loop is over keeps the balance. -/
theorem Balanced.left (h : Balanced config did events e.before)
    (hstep : JobStep did t phase next e.before e) (hleft : phase.hasLeft = true)
    (hnext : next.hasLeft = true) :
  Balanced config did (e :: events) e.after
  := by
  obtain ⟨hpassed, hfinished⟩ := @JobStep.ledger did _ t events _ _ _ hstep
  rw [(JobPhase.fresh_of_hasLeft hnext).1, List.append_nil] at hpassed
  rw [(JobPhase.fresh_of_hasLeft hleft).2, List.append_nil] at hfinished
  have hjobs : ∀ u phase', e.after.tasks u = some (.job did phase') →
      u ≠ t ∧ e.before.tasks u = some (.job did phase') ∨ phase'.hasLeft = true := by
    intro u phase' htask'
    by_cases hu : u = t
    · subst hu
      rw [hstep.self] at htask'
      cases htask'
      exact .inr hnext
    · exact .inl ⟨hu, (hstep.rest u hu).symm.trans htask'⟩
  cases h with
  | idle pending jobs hp hf =>
      have hqueued := queued_of_absent (.inl pending) events
      apply Balanced.idle
      · rw [hstep.pending, pending]
      · intro u phase' htask'
        rcases hjobs u phase' htask' with ⟨-, hold⟩ | hphase'
        · exact jobs u phase' hold
        · exact hphase'
      · rw [hpassed, hqueued, hp]
      · rw [hfinished, hqueued, hf]
  | busy w pending phase' entry task working jobs workers opened hq hp =>
      have hw : w ≠ t := by
        rintro rfl
        rw [hstep.running] at task
        cases task
        cases phase with
        | finishing => cases working
        | sending => cases working
        | returned => cases working
        | _ => cases hleft
      have hentry : e.after.pending did = some pending := by rw [hstep.pending, entry]
      have hqueued := queued_of_kept entry hentry events
      apply Balanced.busy w pending phase' hentry ((hstep.rest w hw).trans task) working
      · intro u phase'' hu htask'
        rcases hjobs u phase'' htask' with ⟨-, hold⟩ | hphase''
        · exact jobs u phase'' hu hold
        · exact hphase''
      · exact workers
      · rw [hstep.closed, opened]
      · rw [hqueued, hpassed, hq]
      · rw [hpassed, hfinished, hp]

/-- What a step of the working job does to the entry and to what it took. -/
inductive Works (did : Did) (s s₁ : State) (pending : PendingResync) (phase next : JobPhase) :
    Prop where
  | on (entry : s₁.pending did = some pending) (working : next.isWorking = true)
      (rest : phase.rest = next.fresh ++ next.rest)
      (current : phase.current ++ next.fresh = phase.over ++ next.current) :
      Works did s s₁ pending phase next
  | drain (entry : s₁.pending did = some { pending with commits := [] })
      (working : next.isWorking = true) (rest : phase.rest = [])
      (commits : pending.commits = next.fresh ++ next.rest)
      (current : phase.current ++ next.fresh = phase.over ++ next.current) :
      Works did s s₁ pending phase next
  | leave (entry : s₁.pending did = none) (left : next.hasLeft = true) (rest : phase.rest = [])
      (commits : pending.commits = []) (current : phase.current = []) :
      Works did s s₁ pending phase next

/-- A step of the working job keeps the balance. -/
theorem Balanced.works {pending : PendingResync}
    (hstep : JobStep did t phase next s₁ e) (hentry : e.before.pending did = some pending)
    (hjobs : ∀ u phase, u ≠ t → e.before.tasks u = some (.job did phase) → phase.hasLeft = true)
    (hworkers : config.opts.asyncResyncWorkers ≠ 0) (hopened : e.before.closed = false)
    (hqueued : queued did events = passed did events ++ phase.rest ++ pending.commits)
    (hpassed : passed did events = finished did events ++ phase.current)
    (hworks : Works did e.before s₁ pending phase next) :
  Balanced config did (e :: events) e.after
  := by
  obtain ⟨hp, hf⟩ := @JobStep.ledger did _ t events _ _ _ hstep
  have hothers : ∀ u phase', u ≠ t → e.after.tasks u = some (.job did phase') →
      phase'.hasLeft = true := by
    intro u phase' hu htask'
    rw [hstep.rest u hu] at htask'
    exact hjobs u phase' hu htask'
  cases hworks with
  | on entry working rest current =>
      have hafter : e.after.pending did = some pending := by rw [hstep.pending, entry]
      have hq := queued_of_kept hentry hafter events
      apply Balanced.busy t pending next hafter hstep.self working hothers hworkers
      · rw [hstep.closed, hopened]
      · rw [hq, hp, hqueued, rest]
        simp only [List.append_assoc]
      · rw [hp, hf, hpassed, List.append_assoc, List.append_assoc, current]
  | drain entry working rest commits current =>
      have hafter : e.after.pending did = some { pending with commits := [] } := by
        rw [hstep.pending, entry]
      have hq : queued did (e :: events) = queued did events := by
        rw [queued, Sync.ledger, queuedBy_of_entry hentry hafter, List.drop_nil, List.append_nil,
          queued]
      apply Balanced.busy t _ next hafter hstep.self working hothers hworkers
      · rw [hstep.closed, hopened]
      · rw [hq, hp, hqueued, rest, commits]
        simp only [List.append_assoc, List.append_nil]
      · rw [hp, hf, hpassed, List.append_assoc, List.append_assoc, current]
  | leave entry left rest commits current =>
      have hafter : e.after.pending did = none := by rw [hstep.pending, entry]
      have hq := queued_of_absent (.inr hafter) events
      have hover : phase.over = [] := by
        cases phase with
        | verifying => cases current
        | _ => rfl
      rw [(JobPhase.fresh_of_hasLeft left).1, List.append_nil] at hp
      rw [hover, List.append_nil] at hf
      rw [rest, commits, List.append_nil, List.append_nil] at hqueued
      rw [current, List.append_nil] at hpassed
      apply Balanced.idle hafter
      · intro u phase' htask'
        by_cases hu : u = t
        · subst hu
          rw [hstep.self] at htask'
          cases htask'
          exact left
        · exact hothers u phase' hu htask'
      · rw [hp, hq, hqueued]
      · rw [hf, hq, hqueued, hpassed]

theorem ledger_le_cons (by_ : Taken → List RawCommit) (e : Taken) (events : List Taken) :
  ledger by_ events <+: ledger by_ (e :: events)
  := List.prefix_append ..

theorem JobPhase.not_hasLeft_of_isWorking (h : phase.isWorking = true) :
  phase.hasLeft = false
  := by
  cases phase with
  | finishing => cases h
  | sending => cases h
  | returned => cases h
  | _ => rfl

end

section

variable [Hashing] {config : VerifierConfig} {did : Did} {s s₁ s' : State} {t : ℕ} {input : Input}
  {entries : List Entry} {events : List Taken} {allowed : Task → Input → Prop} {label : Label}

variable {next phase : JobPhase} {e : Taken}

/-- The moves of a job whose loop is over change no entry. -/
theorem JobMove.left
    (move : JobMove config s t did input phase next s₁ entries) (h : phase.hasLeft = true) :
  next.hasLeft = true ∧ s₁ = s
  := by
  cases move with
  | finished => exact ⟨rfl, rfl⟩
  | sent => exact ⟨rfl, rfl⟩
  | _ => cases h

theorem CommitMove.not_starting {raw : RawCommit} {allowAsyncResync : Bool}
    {phase next : CommitPhase}
    (move : CommitMove config s t raw allowAsyncResync input phase next s₁ entries) :
  next ≠ .starting ∧ ∀ result, phase ≠ .returned result
  := by
  cases move with
  | admitted => cases allowAsyncResync <;> exact ⟨nofun, nofun⟩
  | _ => exact ⟨nofun, nofun⟩

/-- A step of the working job. -/
theorem JobMove.works {pending : PendingResync}
    (move : JobMove config s t did input phase next s₁ entries) (hworking : phase.isWorking = true)
    (hpending : s.pending did = some pending)
    (hfetched : ∀ oldRev reason error, phase ≠ .resyncing oldRev reason (.returned (.error error))) :
  Works did s s₁ pending phase next ∧ s₁.closed = s.closed ∧ s₁.tasks = s.tasks
  := by
  cases move with
  | absent h =>
      rw [hpending] at h
      cases h
  | read => exact ⟨.on hpending rfl rfl rfl, rfl, rfl⟩
  | resync move =>
      obtain ⟨hsame, hclosed, htasks⟩ := move.waiting
      exact ⟨.on (by rw [hsame, hpending]) rfl rfl rfl, hclosed, htasks⟩
  | resynced => exact ⟨.on hpending rfl rfl rfl, rfl, rfl⟩
  | unsynced => exact absurd rfl (hfetched _ _ _)
  | @drained oldRev reason ops pending' raw rest h commits =>
      rw [hpending] at h
      cases h
      exact ⟨.drain (Function.update_self ..) rfl rfl commits rfl, rfl, rfl⟩
  | idle => exact ⟨.on hpending rfl rfl rfl, rfl, rfl⟩
  | settled h commits =>
      rw [hpending] at h
      cases h
      exact ⟨.leave (Function.update_self ..) rfl rfl commits rfl, rfl, rfl⟩
  | again => exact ⟨.on hpending rfl rfl rfl, rfl, rfl⟩
  | @verify oldRev reason ops raw inner next rest s₁ entries move =>
      have hinner : inner ≠ .buffering := by
        rintro rfl
        cases hworking
      obtain ⟨hsame, hclosed, htasks, hnext⟩ := move.waiting hinner
      obtain ⟨hstarting, hreturned⟩ := move.not_starting
      have hfresh : (JobPhase.verifying oldRev reason ops raw next rest).fresh = [] := by
        cases next with
        | starting => exact absurd rfl hstarting
        | _ => rfl
      have hover : (JobPhase.verifying oldRev reason ops raw inner rest).over = [] := by
        cases inner with
        | returned result => exact absurd rfl (hreturned result)
        | _ => rfl
      refine ⟨.on (by rw [hsame, hpending]) ?_ ?_ ?_, hclosed, htasks⟩
      · cases next with
        | buffering => exact absurd rfl hnext
        | _ => rfl
      · rw [hfresh]
        rfl
      · rw [hfresh, hover]
        rfl
  | @verifiedLast _ _ _ _ result =>
      refine ⟨.on (by rw [recordAnswer_pending, hpending]) rfl rfl rfl, ?_⟩
      cases result with
      | error e => exact ⟨rfl, rfl⟩
      | ok answer => exact ⟨rfl, rfl⟩
  | @verified _ _ _ _ _ result =>
      refine ⟨.on (by rw [recordAnswer_pending, hpending]) rfl rfl rfl, ?_⟩
      cases result with
      | error e => exact ⟨rfl, rfl⟩
      | ok answer => exact ⟨rfl, rfl⟩
  | _ => cases hworking

/-- A step of a job of the repository, while nothing is wrong. -/
theorem Labelled.jobStep (hstep : Labelled config allowed e.before e.label e.after)
    (hlabel : e.label = .task t (.job did phase) input) :
  (e.after = e.before ∧ phase = .returned ∧ e.before.tasks t = some (.job did phase)) ∨
    ∃ next s₁ entries, JobMove config e.before t did input phase next s₁ entries ∧
      e.after = (s₁.put config t (.job did next)).record entries ∧
        e.before.tasks t = some (.job did phase)
  := by
  obtain ⟨before, label, after⟩ := e
  dsimp only at hlabel hstep ⊢
  subst hlabel
  have hrunning : before.tasks t = some (.job did phase) := hstep.running.1
  rcases hstep.job hrunning with ⟨hreturned, hsame⟩ | ⟨next, s₁, entries, move, hafter⟩
  · exact .inl ⟨hsame, hreturned, hrunning⟩
  · exact .inr ⟨next, s₁, entries, move, hafter, hrunning⟩

/-- How a step of a job is seen from its repository: it is the working one, or its loop is over. -/
theorem Balanced.jobStep (h : Balanced config did events e.before)
    (hstep : Labelled config allowed e.before e.label e.after) (hsteady : Steady did config e)
    (hlabel : e.label = .task t (.job did phase) input) :
  (∃ next, phase.hasLeft = true ∧ next.hasLeft = true ∧ JobStep did t phase next e.before e) ∨
    ∃ next s₁ pending, JobStep did t phase next s₁ e ∧ e.before.pending did = some pending ∧
      (∀ u phase, u ≠ t → e.before.tasks u = some (.job did phase) → phase.hasLeft = true) ∧
        config.opts.asyncResyncWorkers ≠ 0 ∧ e.before.closed = false ∧ phase.isWorking = true ∧
          queued did events = passed did events ++ phase.rest ++ pending.commits ∧
            passed did events = finished did events ++ phase.current ∧
              Works did e.before s₁ pending phase next ∧
                ∃ entries, JobMove config e.before t did input phase next s₁ entries
  := by
  rcases hstep.jobStep hlabel with ⟨hsame, rfl, hrunning⟩ | ⟨next, s₁, entries, move, hafter, hrunning⟩
  · left
    refine ⟨.returned, rfl, rfl, ⟨input, hlabel⟩, hrunning, ?_, ?_, ?_, ?_⟩
    · rw [hsame, hrunning]
    · intro v _
      rw [hsame]
    · rw [hsame]
    · rw [hsame]
  · have hover : phase.hasLeft = true → ∃ next, phase.hasLeft = true ∧ next.hasLeft = true ∧
        JobStep did t phase next e.before e := by
      intro hleft
      obtain ⟨hnext, rfl⟩ := move.left hleft
      exact ⟨next, hleft, hnext, .of_put hlabel hrunning hafter rfl rfl⟩
    cases h with
    | idle pending jobs hp hf => exact .inl (hover (jobs t phase hrunning))
    | busy w pending phase' entry task working jobs workers opened hq hp =>
        by_cases hw : w = t
        · subst hw
          rw [hrunning] at task
          cases task
          right
          have hfetched : ∀ oldRev reason error,
              phase ≠ .resyncing oldRev reason (.returned (.error error)) := by
            rintro oldRev reason error rfl
            exact hsteady.fetched w oldRev reason error input hlabel
          obtain ⟨hworks, hclosed, htasks⟩ := move.works working entry hfetched
          exact ⟨next, s₁, pending, .of_put hlabel hrunning hafter htasks hclosed, entry, jobs,
            workers, opened, working, hq, hp, hworks, entries, move⟩
        · exact .inl (hover (jobs t phase (Ne.symm hw) hrunning))

/-- Every step keeps the balance. -/
theorem Balanced.step (h : Balanced config did events e.before)
    (hstep : Labelled config allowed e.before e.label e.after) (hsteady : Steady did config e) :
  Balanced config did (e :: events) e.after
  := by
  by_cases hown : ∃ t phase input, e.label = .task t (.job did phase) input
  · obtain ⟨t, phase, input, hlabel⟩ := hown
    rcases h.jobStep hstep hsteady hlabel with ⟨next, hleft, hnext, hjob⟩ |
      ⟨next, s₁, pending, hjob, hentry, hjobs, hworkers, hopened, -, hq, hp, hworks, -⟩
    · exact h.left hjob hleft hnext
    · exact Balanced.works hjob hentry hjobs hworkers hopened hq hp hworks
  · have hother : ∀ t phase input, e.label ≠ .task t (.job did phase) input :=
      fun t phase input heq => hown ⟨t, phase, input, heq⟩
    obtain ⟨hbeside, hclosed⟩ := hstep.beside hsteady hother
    exact h.beside rfl rfl hbeside hclosed hother

/-- Every run keeps the balance. -/
theorem runs_balanced {start : State} (hstart : start.Initial)
    (run : Runs config allowed start events s) (hsteady : ∀ e ∈ events, Steady did config e) :
  Balanced config did events s
  := by
  revert hsteady
  apply run.invariant (I := fun events s => (∀ e ∈ events, Steady did config e) →
    Balanced config did events s)
  · intro _
    apply Balanced.idle (hstart.pending did)
    · intro u phase htask
      rw [hstart.tasks] at htask
      cases htask
    · rfl
    · rfl
  · intro events s label s' run ih hstep hsteady
    exact @Balanced.step _ _ _ _ _ ⟨s, label, s'⟩
      (ih fun e he => hsteady e (List.mem_cons_of_mem _ he)) hstep (hsteady _ List.mem_cons_self)

/-! ### Progress -/

/-- How many steps the fetch of a repository may still take. -/
def ResyncPhase.rank : ResyncPhase → ℕ
  | .lockingFirst => 8
  | .gatingFirst => 7
  | .limiting => 6
  | .fetching => 5
  | .locking _ => 4
  | .gating _ => 3
  | .checking _ => 2
  | .saving _ _ => 1
  | .returned _ => 0

/-- How many steps a job may take until it passes the next commit on. -/
def JobPhase.toGo : JobPhase → ℕ
  | .reading => 11
  | .resyncing _ _ phase => phase.rank + 2
  | .draining _ _ _ => 1
  | .settling _ _ _ => 2
  | .verifying _ _ _ _ phase _ => phase.rank + 2
  | _ => 0

theorem ResyncMove.rank {d : Did} {phase next : ResyncPhase}
    (move : ResyncMove config s t d input phase next s₁) :
  next.rank < phase.rank
  := by
  cases move with
  | failed e waiting running =>
      cases phase with
      | returned result => exact absurd rfl (running result)
      | _ => simp [ResyncPhase.rank]
  | _ => simp [ResyncPhase.rank]

/-- A job passes the next commit on, or comes closer to it. -/
theorem JobMove.toGo {pending : PendingResync}
    (move : JobMove config s t did input phase next s₁ entries) (hworking : phase.isWorking = true)
    (hpending : s.pending did = some pending) (hwaiting : phase.rest ++ pending.commits ≠ []) :
  (next.fresh.length = 1 ∧ next.toGo ≤ 7) ∨ (next.fresh = [] ∧ next.toGo < phase.toGo)
  := by
  cases move with
  | absent h =>
      rw [hpending] at h
      cases h
  | read => exact .inr ⟨rfl, by simp [JobPhase.toGo, ResyncPhase.rank]⟩
  | resync move =>
      right
      have hlt := move.rank
      refine ⟨rfl, ?_⟩
      simp only [JobPhase.toGo]
      omega
  | resynced => exact .inr ⟨rfl, by simp [JobPhase.toGo, ResyncPhase.rank]⟩
  | unsynced => exact .inr ⟨rfl, by simp [JobPhase.toGo]⟩
  | drained => exact .inl ⟨rfl, by simp [JobPhase.toGo, CommitPhase.rank]⟩
  | idle h => exact absurd (h pending hpending) hwaiting
  | settled h commits =>
      rw [hpending] at h
      cases h
      exact absurd commits hwaiting
  | again => exact .inr ⟨rfl, by simp [JobPhase.toGo]⟩
  | @verify oldRev reason ops raw inner next rest s₁ entries move =>
      have hinner : inner ≠ .buffering := by
        rintro rfl
        cases hworking
      obtain ⟨-, -, hlt⟩ := move.rank hinner
      right
      constructor
      · cases next with
        | starting => exact absurd rfl move.not_starting.1
        | _ => rfl
      · simp only [JobPhase.toGo]
        omega
  | verifiedLast => exact .inr ⟨rfl, by simp [JobPhase.toGo, CommitPhase.rank]⟩
  | verified => exact .inl ⟨rfl, by simp [JobPhase.toGo, CommitPhase.rank]⟩
  | _ => cases hworking

/-- A job stays as it is while others take steps. -/
theorem Labelled.keeps
    (hstep : Labelled config allowed e.before e.label e.after) (hsteady : Steady did config e)
    (htask : e.before.tasks t = some (.job did phase)) (hby : isBy t e = false) :
  e.after.tasks t = some (.job did phase)
  := by
  obtain ⟨before, label, after⟩ := e
  dsimp only at hstep htask ⊢
  cases hstep with
  | @call u call new =>
      have hu : t ≠ u := by
        rintro rfl
        rw [new] at htask
        cases htask
      rw [State.put_tasks_of_ne config before hu, htask]
  | @task u task input running ready spawned ok =>
      have hu : t ≠ u := by
        rintro rfl
        exact of_decide_eq_false hby rfl
      rcases stepTask_move config before u task input with ⟨-, heq⟩ | ⟨next, s₁, entries, move, heq⟩
      · rw [heq, htask]
      · rw [heq, show ((s₁.put config u next).record entries).tasks t = s₁.tasks t from
          s₁.put_tasks_of_ne config hu next]
        rcases (move.tasks (u := t)).2 with hold | ⟨rfl, -⟩
        · rw [hold, htask]
        · rw [spawned] at htask
          cases htask
  | drop given =>
      rw [State.drop]
      dsimp only
      rw [if_neg, htask]
      rw [hsteady.kept given t phase rfl htask]
      exact Bool.false_ne_true
  | close => exact htask

/-- Some commits were passed on, or the working job needs a bounded number of steps to do so. -/
def Nearing (did : Did) (t : ℕ) (commits : List RawCommit) (bound taken : ℕ)
    (events : List Taken) (s : State) : Prop :=
  commits <+: passed did events ∨ ∃ phase, s.tasks t = some (.job did phase) ∧
    phase.isWorking = true ∧
      13 * (commits.length - (passed did events).length) + phase.toGo + taken ≤ bound

/-- Every step brings the working job closer to passing on what was queued, or leaves it. -/
theorem Nearing.step {commits : List RawCommit} {bound taken : ℕ}
    (h : Nearing did t commits bound taken events e.before)
    (hcommits : commits <+: queued did events) (hbalanced : Balanced config did events e.before)
    (hstep : Labelled config allowed e.before e.label e.after) (hsteady : Steady did config e) :
  Nearing did t commits bound (taken + if isBy t e then 1 else 0) (e :: events) e.after
  := by
  rcases h with hdone | ⟨phase, htask, hworking, hle⟩
  · exact .inl (hdone.trans (ledger_le_cons ..))
  · have hgrows := (ledger_le_cons (passedBy did) e events).length_le
    by_cases hby : isBy t e = true
    · rw [if_pos hby]
      have hlabel : ∃ input, e.label = .task t (.job did phase) input := by
        obtain ⟨before, label, after⟩ := e
        dsimp only at hstep htask ⊢
        cases label with
        | task u task input =>
            have hu : u = t := of_decide_eq_true hby
            subst hu
            rw [hstep.running.1, Option.some_inj] at htask
            exact ⟨input, by rw [htask]⟩
        | _ => cases hby
      obtain ⟨input, hlabel⟩ := hlabel
      rcases hbalanced.jobStep hstep hsteady hlabel with ⟨next, hleft, -⟩ |
        ⟨next, s₁, pending, hjob, hentry, -, -, -, -, hq, -, hworks, entries, move⟩
      · rw [JobPhase.not_hasLeft_of_isWorking hworking] at hleft
        cases hleft
      · by_cases hwaiting : phase.rest ++ pending.commits = []
        · rw [List.append_assoc, hwaiting, List.append_nil] at hq
          rw [hq] at hcommits
          exact .inl (hcommits.trans (ledger_le_cons ..))
        · by_cases hdone : commits.length ≤ (passed did events).length
          · left
            have hpre : passed did events <+: queued did events := by
              rw [hq, List.append_assoc]
              exact List.prefix_append ..
            exact (List.prefix_of_prefix_length_le hcommits hpre hdone).trans (ledger_le_cons ..)
          · right
            have hnext : next.isWorking = true := by
              cases hworks with
              | on entry working rest current => exact working
              | drain entry working rest commits current => exact working
              | leave entry left rest commits current =>
                  rw [rest, commits] at hwaiting
                  exact absurd rfl hwaiting
            refine ⟨next, hjob.self, hnext, ?_⟩
            rw [(@JobStep.ledger did _ t events _ _ _ hjob).1, List.length_append]
            rcases move.toGo hworking hentry hwaiting with ⟨hfresh, hto⟩ | ⟨hfresh, hto⟩
            · rw [hfresh]
              omega
            · rw [hfresh, List.length_nil]
              omega
    · rw [if_neg hby]
      refine .inr ⟨phase, hstep.keeps hsteady htask (Bool.not_eq_true _ ▸ hby), hworking, ?_⟩
      rw [passed] at hle ⊢
      omega

/-- What was queued is passed on once the working job has taken enough steps. -/
theorem runs_progress {start : State} (hstart : start.Initial)
    (run : Runs config allowed start events s) (hsteady : ∀ e ∈ events, Steady did config e) :
  queued did events <+: passed did events ∨ ∃ t n, ∀ later s',
    Runs config allowed s later s' → (∀ e ∈ later, Steady did config e) → n ≤ turns t later →
      queued did events <+: passed did (later ++ events)
  := by
  cases runs_balanced hstart run hsteady with
  | idle pending jobs hp hf =>
      left
      rw [hp]
  | busy t pending phase entry task working jobs workers opened hq hp =>
      right
      refine ⟨t, 13 * (queued did events).length + phase.toGo + 1, ?_⟩
      intro later s' run'
      have hrun : (∀ e ∈ later, Steady did config e) →
          queued did events <+: queued did (later ++ events) ∧
            Nearing did t (queued did events) (13 * (queued did events).length + phase.toGo)
              (turns t later) (later ++ events) s' := by
        apply run'.invariant (I := fun later s' => (∀ e ∈ later, Steady did config e) →
          queued did events <+: queued did (later ++ events) ∧
            Nearing did t (queued did events) (13 * (queued did events).length + phase.toGo)
              (turns t later) (later ++ events) s')
        · intro _
          refine ⟨List.prefix_rfl, .inr ⟨phase, task, working, ?_⟩⟩
          have hturns : turns t ([] : List Taken) = 0 := rfl
          rw [List.nil_append, hturns]
          omega
        · intro later s₁ label s₂ run₁ ih hstep hlater
          have hbefore : ∀ e ∈ later, Steady did config e :=
            fun e he => hlater e (List.mem_cons_of_mem _ he)
          obtain ⟨hqueued, hnearing⟩ := ih hbefore
          have hbalanced := runs_balanced hstart (run.append run₁) fun e he =>
            (List.mem_append.mp he).elim (hbefore e) (hsteady e)
          rw [turns_cons]
          exact ⟨hqueued.trans (ledger_le_cons ..),
            @Nearing.step _ _ _ _ _ _ ⟨s₁, label, s₂⟩ _ _ _ hnearing hqueued hbalanced hstep
              (hlater _ List.mem_cons_self)⟩
      intro hlater hturns
      obtain ⟨-, hdone | ⟨phase', -, -, hle⟩⟩ := hrun hlater
      · exact hdone
      · omega

/-! ### The order -/

/-- Nothing that waits for a repository is lost or comes out of order. -/
structure InOrder (config : VerifierConfig) (allowed : Task → Input → Prop) (did : Did)
    (events : List Taken) (s : State) : Prop where
  /-- Every commit that is passed on was queued, and they are passed on once, in the same order. -/
  once : passed did events <+: queued did events
  /-- What was queued is passed on once the job has taken enough steps. -/
  progress : queued did events <+: passed did events ∨ ∃ t n, ∀ later s',
    Runs config allowed s later s' → (∀ e ∈ later, Steady did config e) → n ≤ turns t later →
      queued did events <+: passed did (later ++ events)
  /-- A commit that a call gives away is queued, or has the fetch of its repository started. -/
  given : ∀ later e earlier raw, events = later ++ e :: earlier → GivesAway did e raw →
    queuedBy did e = [raw] ∨ (e.before.pending did = none ∧ (e.after.pending did).isSome = true)
  /-- The entry of a repository is removed when all that was queued was passed on. -/
  removed : ∀ later e earlier, events = later ++ e :: earlier → Removes did e →
    passed did earlier = queued did earlier
  /-- A commit is passed on when the verification of those before it is over. -/
  oneByOne : ∀ later e earlier, events = later ++ e :: earlier → passedBy did e ≠ [] →
    finished did (e :: earlier) = passed did earlier
  /-- A call verifies its commit itself when the verification of all that was queued is over. -/
  entered : ∀ later e earlier, events = later ++ e :: earlier → Enters did e →
    finished did earlier = queued did earlier

/-- The steps of the verification of a commit by a call. -/
theorem Labelled.commitMove {raw : RawCommit} {phase next : CommitPhase}
    (hstep : Labelled config allowed e.before e.label e.after)
    (hlabel : e.label = .task t (.verifyCommit raw phase) input)
    (hafter : e.after.tasks t = some (.verifyCommit raw next)) (hnext : next ≠ phase) :
  ∃ s₁ entries, CommitMove config e.before t raw true input phase next s₁ entries ∧
    e.after.pending = s₁.pending
  := by
  rw [hlabel] at hstep
  obtain ⟨hrunning, hstepped⟩ := hstep.running
  rcases stepCommit_move config e.before t (.verifyCommit raw) raw true phase input with
    ⟨result, rfl⟩ | ⟨next', s₁, entries, move, heq⟩
  · rw [hstepped] at hafter
    have hsame : stepTask config e.before t (.verifyCommit raw (.returned result)) input =
      e.before := rfl
    rw [hsame, hrunning] at hafter
    cases hafter
    exact absurd rfl hnext
  · rw [stepTask, heq] at hstepped
    rw [hstepped, show ((s₁.put config t (.verifyCommit raw next')).record entries).tasks t =
      some (.verifyCommit raw next') from s₁.put_tasks_self config t _] at hafter
    cases hafter
    exact ⟨s₁, entries, move, by rw [hstepped]; rfl⟩

theorem Balanced.given {raw : RawCommit}
    (hstep : Labelled config allowed e.before e.label e.after) (hsteady : Steady did config e)
    (h : GivesAway did e raw) :
  queuedBy did e = [raw] ∨ (e.before.pending did = none ∧ (e.after.pending did).isSome = true)
  := by
  obtain ⟨t, phase, next, input, rfl, hphase, hnext, hlabel, hafter⟩ := h
  have hpush : ∀ pending, e.before.pending raw.repo = some pending →
      e.after.pending = (e.before.pushPending config pending raw).pending →
        queuedBy raw.repo e = [raw] := by
    intro pending hpending hsame
    have hentry : e.after.pending raw.repo =
        some { pending with commits := pending.commits ++ [raw] } := by
      rw [hsame, State.pushPending, if_neg (Nat.not_le.mpr (hsteady.room pending hpending))]
      exact Function.update_self ..
    rw [queuedBy_of_entry hpending hentry, List.drop_left]
  have hmoved : next ≠ phase := by
    rcases hphase with rfl | ⟨error, chain, rfl⟩
    · rcases hnext with rfl | ⟨job, rfl⟩ <;> rintro ⟨⟩
    · rcases hnext with rfl | ⟨job, rfl⟩ <;> rintro ⟨⟩
  obtain ⟨s₁, entries, move, hsame⟩ := hstep.commitMove hlabel hafter hmoved
  rcases hphase with rfl | ⟨error, chain, rfl⟩
  · cases move with
    | buffered workers opened hpending => exact .inl (hpush _ hpending hsame)
    | passed => rcases hnext with h | ⟨job, h⟩ <;> cases h
  · cases move with
    | enqueued outside workers opened hpending =>
        rw [State.enqueueResync, hpending] at hsame
        exact .inl (hpush _ hpending hsame)
    | spawned outside workers opened habsent =>
        refine .inr ⟨habsent, ?_⟩
        rw [hsame, State.enqueueResync, habsent, Option.isSome_iff_exists]
        exact ⟨_, Function.update_self ..⟩
    | unrecovered => rcases hnext with h | ⟨job, h⟩ <;> cases h

theorem Balanced.removed (h : Balanced config did events e.before)
    (hstep : Labelled config allowed e.before e.label e.after) (hsteady : Steady did config e)
    (hremoves : Removes did e) :
  passed did events = queued did events
  := by
  obtain ⟨hbefore, hafter⟩ := hremoves
  by_cases hown : ∃ t phase input, e.label = .task t (.job did phase) input
  · obtain ⟨t, phase, input, hlabel⟩ := hown
    rcases h.jobStep hstep hsteady hlabel with ⟨next, -, -, hjob⟩ |
      ⟨next, s₁, pending, hjob, -, -, -, -, -, hq, -, hworks, -⟩
    · rw [hjob.pending] at hafter
      rw [hafter] at hbefore
      cases hbefore
    · rw [hjob.pending] at hafter
      cases hworks with
      | on entry => rw [hafter] at entry; cases entry
      | drain entry => rw [hafter] at entry; cases entry
      | leave entry left rest commits current =>
          rw [hq, rest, commits, List.append_nil, List.append_nil]
  · have hother : ∀ t phase input, e.label ≠ .task t (.job did phase) input :=
      fun t phase input heq => hown ⟨t, phase, input, heq⟩
    cases (hstep.beside hsteady hother).1 with
    | same hsame =>
        rw [hafter] at hsame
        rw [← hsame] at hbefore
        cases hbefore
    | queued raw pending before after => rw [hafter] at after; cases after
    | opened u pending before after => rw [hafter] at after; cases after

theorem Balanced.oneByOne (h : Balanced config did events e.before)
    (hstep : Labelled config allowed e.before e.label e.after) (hsteady : Steady did config e)
    (hpasses : passedBy did e ≠ []) :
  finished did (e :: events) = passed did events
  := by
  by_cases hown : ∃ t phase input, e.label = .task t (.job did phase) input
  · obtain ⟨t, phase, input, hlabel⟩ := hown
    rcases h.jobStep hstep hsteady hlabel with ⟨next, -, hnext, hjob⟩ |
      ⟨next, s₁, pending, hjob, -, -, -, -, -, -, hp, hworks, -⟩
    · rw [passedBy_job hlabel hjob.self, (JobPhase.fresh_of_hasLeft hnext).1] at hpasses
      exact absurd rfl hpasses
    · rw [passedBy_job hlabel hjob.self] at hpasses
      obtain ⟨raw, hfresh⟩ := next.fresh_cases.resolve_left hpasses
      rw [(@JobStep.ledger did _ t events _ _ _ hjob).2, hp]
      cases hworks with
      | on entry working rest current => rw [JobPhase.over_of_fresh hfresh current]
      | drain entry working rest commits current => rw [JobPhase.over_of_fresh hfresh current]
      | leave entry left =>
          rw [(JobPhase.fresh_of_hasLeft left).1] at hfresh
          cases hfresh
  · have hother : ∀ t phase input, e.label ≠ .task t (.job did phase) input :=
      fun t phase input heq => hown ⟨t, phase, input, heq⟩
    exact absurd (passedBy_other hother).1 hpasses

theorem Balanced.entered (h : Balanced config did events e.before)
    (hstep : Labelled config allowed e.before e.label e.after) (henters : Enters did e) :
  finished did events = queued did events
  := by
  obtain ⟨t, raw, input, rfl, hlabel, hafter⟩ := henters
  obtain ⟨s₁, entries, move, -⟩ := hstep.commitMove hlabel hafter nofun
  cases h with
  | idle pending jobs hp hf => exact hf
  | busy t pending phase entry task working jobs workers opened hq hp =>
      cases move with
      | passed hpass =>
          rcases hpass with hworkers | hclosed | habsent
          · exact absurd hworkers workers
          · rw [opened] at hclosed
            cases hclosed
          · rw [entry] at habsent
            cases habsent

/-- Whatever is interleaved with the fetch of a repository in the background, nothing that waits for
it is lost or comes out of order. -/
theorem runs_inOrder {start : State} (hstart : start.Initial)
    (run : Runs config allowed start events s) (hsteady : ∀ e ∈ events, Steady did config e) :
  InOrder config allowed did events s
  := by
  have hbalanced : ∀ later e earlier, events = later ++ e :: earlier →
      Balanced config did earlier e.before ∧ Labelled config allowed e.before e.label e.after ∧
        Steady did config e := by
    rintro later e earlier rfl
    obtain ⟨hrun, hstep⟩ := run.split
    refine ⟨runs_balanced hstart hrun ?_, hstep, hsteady e ?_⟩
    · intro e' he'
      exact hsteady e' (List.mem_append_right _ (List.mem_cons_of_mem _ he'))
    · exact List.mem_append_right _ List.mem_cons_self
  constructor
  · cases runs_balanced hstart run hsteady with
    | idle pending jobs hp hf => rw [hp]
    | busy t pending phase entry task working jobs workers opened hq hp =>
        rw [hq, List.append_assoc]
        exact List.prefix_append ..
  · exact runs_progress hstart run hsteady
  · intro later e earlier raw hevents hgives
    obtain ⟨-, hstep, hsteady⟩ := hbalanced later e earlier hevents
    exact Balanced.given hstep hsteady hgives
  · intro later e earlier hevents hremoves
    obtain ⟨h, hstep, hsteady⟩ := hbalanced later e earlier hevents
    exact h.removed hstep hsteady hremoves
  · intro later e earlier hevents hpasses
    obtain ⟨h, hstep, hsteady⟩ := hbalanced later e earlier hevents
    exact h.oneByOne hstep hsteady hpasses
  · intro later e earlier hevents henters
    obtain ⟨h, hstep, -⟩ := hbalanced later e earlier hevents
    exact h.entered hstep henters

end

namespace Sample

attribute [local instance] Hashing.checksum

/-- Whether the fetch of a job failed. -/
def fetchFailed : Option Task → Bool
  | some (.job _ (.resyncing _ _ (.returned (.error _)))) => true
  | _ => false

/-- Whether there is room for one more commit and no fetch failed. -/
def roomy (s : State) : Bool :=
  (s.pending Repo.Sample.did).all (fun pending => pending.commits.length < 10) &&
    [0, 1, 2].all fun t => !fetchFailed (s.tasks t)

theorem roomy_steady {moves : List (ℕ × Input)} (hmoves : ∀ move ∈ moves, move.1 ∈ [0, 1, 2])
    {e : Taken} (h : Scripted roomy moves e) :
  Steady Repo.Sample.did resyncing e
  := by
  obtain ⟨t, task, input, hlabel, hmem, htask, hroomy⟩ := h
  rw [roomy, Bool.and_eq_true, List.all_eq_true] at hroomy
  obtain ⟨hroom, hfetched⟩ := hroomy
  constructor
  · rw [hlabel]
    intro heq
    cases heq
  · intro given u phase heq
    rw [hlabel] at heq
    cases heq
  · intro pending hpending
    rw [hpending] at hroom
    exact of_decide_eq_true hroom
  · intro u oldRev reason error input' heq
    rw [hlabel] at heq
    cases heq
    have hnot := hfetched t (hmoves _ hmem)
    rw [htask] at hnot
    cases hnot

theorem roomy_steady_call {s s' : State} {t : ℕ} {call : Call} (h : roomy s = true) :
  Steady Repo.Sample.did resyncing ⟨s, .call t call, s'⟩
  := by
  rw [roomy, Bool.and_eq_true] at h
  constructor
  · intro heq
    cases heq
  · intro given u phase heq
    cases heq
  · intro pending hpending
    have hroom := h.1
    dsimp only at hpending
    rw [hpending] at hroom
    exact of_decide_eq_true hroom
  · intro u oldRev reason error input heq
    cases heq

/-- Whether a job is about to take a waiting commit. -/
def drains (s : State) : Bool :=
  match s.tasks 1 with
  | some (.job did (.draining _ _ _)) =>
      did = Repo.Sample.did ∧ (s.pending did).any fun pending => !pending.commits.isEmpty
  | _ => false

/-- The repository arrives while another commit waits for it. -/
def arrivingLate : Input := { arriving with spawned := 3 }

theorem drains_passed {s : State} {events : List Taken} (h : drains s = true) :
  ∃ task, s.tasks 1 = some task ∧ task.isLocking = false ∧
    passed Repo.Sample.did (⟨s, .task 1 task arrivingLate,
      stepTask resyncing s 1 task arrivingLate⟩ :: events) ≠ []
  := by
  rw [drains] at h
  split at h
  · rename_i did oldRev reason ops htask
    obtain ⟨rfl, hpending⟩ := of_decide_eq_true h
    obtain ⟨pending, hentry, hcommits⟩ := (Option.any_eq_true _ _).mp hpending
    refine ⟨_, htask, rfl, ?_⟩
    rw [passed, ledger]
    apply List.append_ne_nil_of_right_ne_nil
    rcases stepJob_move resyncing s 1 Repo.Sample.did (.draining oldRev reason ops) arrivingLate with
      heq | ⟨next, s₁, entries, move, heq⟩
    · cases heq
    · have hafter : (stepTask resyncing s 1 (.job Repo.Sample.did (.draining oldRev reason ops))
          arrivingLate).tasks 1 = some (.job Repo.Sample.did next) := by
        rw [stepTask, heq]
        exact s₁.put_tasks_self resyncing 1 _
      have hfresh : passedBy Repo.Sample.did ⟨s, .task 1 (.job Repo.Sample.did
          (.draining oldRev reason ops)) arrivingLate, stepTask resyncing s 1
            (.job Repo.Sample.did (.draining oldRev reason ops)) arrivingLate⟩ = next.fresh :=
        passedBy_job rfl hafter
      rw [hfresh]
      cases move with
      | drained hentry' commits => exact List.cons_ne_nil _ _
      | idle hidle =>
          rw [hidle pending hentry] at hcommits
          cases hcommits
  · cases h

/-- A commit that waited for its repository is passed on in order. -/
theorem late_inOrder :
  ∃ events s, passed Repo.Sample.did events ≠ [] ∧
    InOrder resyncing (fun _ _ => True) Repo.Sample.did events s
  := by
  have hscript : (((start.put resyncing 0 (.verifyCommit lost .starting)).script resyncing roomy
      (List.replicate 6 (0, input) ++ [(0, arrivingLate)])).any fun s =>
        ((s.put resyncing 2 (.verifyCommit raw .starting)).script resyncing roomy
          (List.replicate 2 (2, arrivingLate) ++ List.replicate 10 (1, arrivingLate))).any fun s' =>
            (s.tasks 2).isNone ∧ roomy s ∧ roomy s' ∧ drains s' ∧ (s'.tasks 3).isNone) = true := by
    decide +kernel
  obtain ⟨s₁, hs₁, hscript⟩ := (Option.any_eq_true _ _).mp hscript
  obtain ⟨s₂, hs₂, hchecks⟩ := (Option.any_eq_true _ _).mp hscript
  obtain ⟨hfree, hroomy₁, hroomy₂, hdrains, hfree₃⟩ := of_decide_eq_true hchecks
  have hcall : Runs resyncing (fun _ _ => True) start [⟨start, .call 0 (.verifyCommit lost), _⟩]
      (start.put resyncing 0 (.verifyCommit lost .starting)) :=
    .tail .refl (.call (.verifyCommit lost) rfl)
  obtain ⟨events₁, run₁, hevents₁⟩ := Runs.script hcall hs₁ (by simp)
  have hcall₂ := run₁.tail (.call (.verifyCommit raw) (Option.isNone_iff_eq_none.mp hfree))
  obtain ⟨events₂, run₂, hevents₂⟩ := Runs.script hcall₂ hs₂ (by simp)
  obtain ⟨task, htask, hlocking, hpassed⟩ := drains_passed hdrains
  have hlast : Labelled resyncing (fun _ _ => True) s₂ (.task 1 task arrivingLate) _ :=
    .task htask (fun h => by rw [hlocking] at h; cases h) (Option.isNone_iff_eq_none.mp hfree₃)
      trivial
  refine ⟨_, _, hpassed, runs_inOrder start_initial (run₂.tail hlast) ?_⟩
  intro e he
  rcases List.mem_cons.mp he with rfl | he
  · apply @roomy_steady [(1, arrivingLate)]
    · intro move hmove
      cases List.mem_singleton.mp hmove
      decide
    · exact ⟨1, task, arrivingLate, rfl, List.mem_cons_self, htask, hroomy₂⟩
  · rcases List.mem_append.mp he with he | he
    · refine roomy_steady ?_ (hevents₂ e he)
      intro move hmove
      rcases List.mem_append.mp hmove with hmove | hmove
      · cases List.eq_of_mem_replicate hmove
        decide
      · cases List.eq_of_mem_replicate hmove
        decide
    · rcases List.mem_cons.mp he with rfl | he
      · exact roomy_steady_call hroomy₁
      · rcases List.mem_append.mp he with he | he
        · refine roomy_steady ?_ (hevents₁ e he)
          intro move hmove
          rcases List.mem_append.mp hmove with hmove | hmove
          · cases List.eq_of_mem_replicate hmove
            decide
          · cases List.mem_singleton.mp hmove
            decide
        · cases List.mem_singleton.mp he
          exact roomy_steady_call (by decide)

end Sample

end Shrike.Sync
