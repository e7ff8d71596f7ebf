import Shrike.Sync.Leniency
import Shrike.Sync.Runs

/-!
# The loop of a background job

When the loop in which a background job verifies the commits that waited for it is left.
-/

namespace Shrike.Sync

open Cbor Syntax Mst Car Repo Bytes Streaming

/-! ### Turns -/

/-- Whether a step is one of a task. -/
def isBy (t : ℕ) (e : Taken) : Bool :=
  match e.label with
  | .task u _ _ => u = t
  | _ => false

/-- The number of steps of a task. -/
def turns (t : ℕ) (events : List Taken) : ℕ := events.countP (isBy t)

/-- A step of a job that is not aborted, or one that leaves it and the entry of its repository as
they are: no commit is queued for the repository, and the verifier is not closed over it. -/
def Undisturbed (t : ℕ) (did : Did) (e : Taken) : Prop :=
  if isBy t e then t ∉ e.before.aborted
  else e.after.tasks t = e.before.tasks t ∧ e.after.pending did = e.before.pending did

/-- Whether a job has left its loop. -/
def JobPhase.hasLeft : JobPhase → Bool
  | .finishing _ _ _ => true
  | .sending _ => true
  | .returned => true
  | _ => false

theorem turns_cons (t : ℕ) (e : Taken) (events : List Taken) :
  turns t (e :: events) = turns t events + if isBy t e then 1 else 0
  := List.countP_cons

/-- How many steps the verification of a waiting commit may still take. -/
def CommitPhase.rank : CommitPhase → ℕ
  | .starting => 5
  | .buffering => 5
  | .locking => 4
  | .gating => 3
  | .checking => 2
  | .recovering _ _ => 1
  | .registering _ => 1
  | .saving _ _ _ => 1
  | .returned _ => 0

/-- How many steps a job may still take in its loop while some commits wait. -/
def JobPhase.rank (commits : List RawCommit) : JobPhase → ℕ
  | .draining _ _ _ => 2 + 8 * commits.length
  | .settling _ _ _ => if commits = [] then 1 else 3 + 8 * commits.length
  | .verifying _ _ _ _ phase rest => phase.rank + 1 + 8 * rest.length + (2 + 8 * commits.length)
  | _ => 0

/-- Whether a job is in its loop. The commits that it verifies are not put aside again. -/
def JobPhase.inLoop : JobPhase → Bool
  | .draining _ _ _ => true
  | .settling _ _ _ => true
  | .verifying _ _ _ _ .buffering _ => false
  | .verifying _ _ _ _ _ _ => true
  | _ => false

theorem recordAnswer_pending (s : State) (result : Answer) :
  (s.recordAnswer result).pending = s.pending
  := by
  cases result with
  | error e => rfl
  | ok answer => rfl

section

variable [Hashing] (config : VerifierConfig)

/-- A job reaches the end of its loop in a bounded number of steps, or does not go on for so long,
however these are interleaved with steps that do not disturb it. -/
def LeavesLoop (t : ℕ) (did : Did) (s : State) : Prop :=
  ∃ n, ∀ events s', Runs config (fun _ _ => True) s events s' →
    (∀ e ∈ events, Undisturbed t did e) → n ≤ turns t events →
      ∃ phase, s'.tasks t = some (.job did phase) ∧ phase.hasLeft = true

variable {config} {s s₁ : State} {t : ℕ} {did : Did} {input : Input} {entries : List Entry}

/-- The verification of a waiting commit comes to its end and leaves the entry of its repository as
it is. -/
theorem CommitMove.rank {raw : RawCommit} {phase next : CommitPhase}
    (move : CommitMove config s t raw false input phase next s₁ entries)
    (hphase : phase ≠ .buffering) :
  s₁.pending = s.pending ∧ next ≠ .buffering ∧ next.rank < phase.rank
  := by
  cases move with
  | buffered => exact absurd rfl hphase
  | passed => exact absurd rfl hphase
  | enqueued outside => cases outside
  | spawned outside => cases outside
  | admitted => exact ⟨rfl, nofun, by decide⟩
  | locked => exact ⟨rfl, nofun, by decide⟩
  | active => exact ⟨rfl, nofun, by decide⟩
  | diverged => exact ⟨rfl, nofun, by simp [CommitPhase.rank]⟩
  | accepted => exact ⟨rfl, nofun, by simp [CommitPhase.rank]⟩
  | _ => exact ⟨rfl, nofun, by simp [CommitPhase.rank]⟩

variable {next phase : JobPhase}

variable {pending : PendingResync}

/-- A job in its loop leaves it, or comes closer to its end. -/
theorem JobMove.rank
    (move : JobMove config s t did input phase next s₁ entries) (hloop : phase.inLoop = true)
    (hpending : s.pending did = some pending) :
  next.hasLeft = true ∨ ∃ pending', s₁.pending did = some pending' ∧ next.inLoop = true ∧
    next.rank pending'.commits < phase.rank pending.commits
  := by
  cases move with
  | @drained oldRev reason ops pending' raw rest h commits =>
      rw [hpending] at h
      cases h
      refine .inr ⟨_, Function.update_self .., rfl, ?_⟩
      rw [commits]
      simp only [JobPhase.rank, CommitPhase.rank, List.length_cons, List.length_nil]
      omega
  | idle h =>
      refine .inr ⟨pending, hpending, rfl, ?_⟩
      simp only [JobPhase.rank, h pending hpending, if_true]
      omega
  | settled => exact .inl rfl
  | again h =>
      refine .inr ⟨pending, hpending, rfl, ?_⟩
      simp only [JobPhase.rank, h pending hpending, if_false]
      omega
  | @verify oldRev reason ops raw phase next rest s₁ entries move =>
      have hphase : phase ≠ .buffering := by
        rintro rfl
        cases hloop
      obtain ⟨hsame, hnext, hlt⟩ := move.rank hphase
      refine .inr ⟨pending, by rw [hsame, hpending], ?_, ?_⟩
      · cases next with
        | buffering => exact absurd rfl hnext
        | _ => rfl
      · simp only [JobPhase.rank]
        omega
  | verifiedLast =>
      refine .inr ⟨pending, by rw [recordAnswer_pending, hpending], rfl, ?_⟩
      simp only [JobPhase.rank, CommitPhase.rank, List.length_nil]
      omega
  | verified =>
      refine .inr ⟨pending, by rw [recordAnswer_pending, hpending], rfl, ?_⟩
      simp only [JobPhase.rank, CommitPhase.rank, List.length_cons]
      omega
  | _ => cases hloop

/-- A job that has left its loop does not come back. -/
theorem JobMove.hasLeft
    (move : JobMove config s t did input phase next s₁ entries) (h : phase.hasLeft = true) :
  next.hasLeft = true
  := by
  cases move with
  | finished => rfl
  | sent => rfl
  | _ => cases h

variable {allowed : Task → Input → Prop}

/-- A step of a job is a move of it. -/
theorem Labelled.job {task : Task} {s' : State}
    (hstep : Labelled config allowed s (.task t task input) s')
    (htask : s.tasks t = some (.job did phase)) :
  (phase = .returned ∧ s' = s) ∨ ∃ next s₁ entries,
    JobMove config s t did input phase next s₁ entries ∧
      s' = (s₁.put config t (.job did next)).record entries
  := by
  cases hstep with
  | task running ready spawned ok =>
      rw [htask] at running
      cases running
      rcases stepJob_move config s t did phase input with rfl | ⟨next, s₁, entries, move, heq⟩
      · exact .inl ⟨rfl, rfl⟩
      · exact .inr ⟨next, s₁, entries, move, heq⟩

/-- A job whose repository has an entry leaves its loop. -/
theorem leavesLoop_of_pending
    (htask : s.tasks t = some (.job did phase)) (hloop : phase.inLoop = true)
    (hpending : s.pending did = some pending) :
  LeavesLoop config t did s
  := by
  refine ⟨phase.rank pending.commits + 1, ?_⟩
  intro events s' run
  have hrun : (∀ e ∈ events, Undisturbed t did e) → ∃ phase', s'.tasks t = some (.job did phase') ∧
      (phase'.hasLeft = true ∨ ∃ pending', s'.pending did = some pending' ∧
        phase'.inLoop = true ∧
          phase'.rank pending'.commits + turns t events ≤ phase.rank pending.commits) := by
    apply run.invariant (I := fun events s' => (∀ e ∈ events, Undisturbed t did e) →
      ∃ phase', s'.tasks t = some (.job did phase') ∧
        (phase'.hasLeft = true ∨ ∃ pending', s'.pending did = some pending' ∧
          phase'.inLoop = true ∧
            phase'.rank pending'.commits + turns t events ≤ phase.rank pending.commits))
    · intro _
      exact ⟨phase, htask, .inr ⟨pending, hpending, hloop, Nat.le_refl _⟩⟩
    · intro events s₁ label s₂ run ih hstep hevents
      obtain ⟨phase', htask', hphase'⟩ := ih fun e he => hevents e (List.mem_cons_of_mem _ he)
      rw [turns_cons]
      by_cases hby : isBy t ⟨s₁, label, s₂⟩ = true
      · rw [if_pos hby]
        cases label with
        | task u task input =>
            have hu : u = t := of_decide_eq_true hby
            subst hu
            rcases hstep.job htask' with ⟨rfl, rfl⟩ | ⟨next, s₃, entries, move, rfl⟩
            · exact ⟨_, htask', .inl rfl⟩
            · refine ⟨next, s₃.put_tasks_self config u _, ?_⟩
              rcases hphase' with hleft | ⟨pending', hpending', hloop', hle⟩
              · exact .inl (move.hasLeft hleft)
              · rcases move.rank hloop' hpending' with hleft | ⟨pending'', hpending'', hloop'', hlt⟩
                · exact .inl hleft
                · exact .inr ⟨pending'', hpending'', hloop'', by omega⟩
        | _ => cases hby
      · rw [if_neg hby]
        obtain ⟨hsame, hentry⟩ := (if_neg hby).mp (hevents _ List.mem_cons_self)
        refine ⟨phase', hsame.trans htask', ?_⟩
        rcases hphase' with hleft | ⟨pending', hpending', hloop', hle⟩
        · exact .inl hleft
        · exact .inr ⟨pending', hentry.trans hpending', hloop', hle⟩
  intro hevents hturns
  obtain ⟨phase', htask', hleft | ⟨pending', -, -, hle⟩⟩ := hrun hevents
  · exact ⟨phase', htask', hleft⟩
  · omega

/-- A job that is aborted stays so until it is given up. -/
theorem Labelled.aborted {label : Label} {s' : State}
    (hstep : Labelled config allowed s label s') (ht : t ∈ s.aborted) (htask : s'.tasks t ≠ none) :
  t ∈ s'.aborted
  := by
  cases hstep with
  | call call new => exact ht
  | @task u task input running ready spawned ok =>
      rcases stepTask_move config s u task input with ⟨-, heq⟩ | ⟨next, s₁, entries, move, heq⟩
      · rwa [heq]
      · rw [heq]
        exact (move.tasks (u := t)).1 ▸ ht
  | drop given =>
      refine List.mem_filter.mpr ⟨ht, decide_eq_true fun hgiven => htask ?_⟩
      exact if_pos hgiven
  | close => exact List.mem_append_right _ ht

/-- A job that is aborted does not go on. -/
theorem leavesLoop_of_aborted (htask : s.tasks t = some (.job did phase))
    (haborted : t ∈ s.aborted) :
  LeavesLoop config t did s
  := by
  refine ⟨1, ?_⟩
  intro events s' run hevents hturns
  have hrun : (∀ e ∈ events, Undisturbed t did e) →
      turns t events = 0 ∧ t ∈ s'.aborted ∧ s'.tasks t = some (.job did phase) := by
    apply run.invariant (I := fun events s' => (∀ e ∈ events, Undisturbed t did e) →
      turns t events = 0 ∧ t ∈ s'.aborted ∧ s'.tasks t = some (.job did phase))
    · exact fun _ => ⟨rfl, haborted, htask⟩
    · intro events s₁ label s₂ run ih hstep hevents
      obtain ⟨hturns, hmem, htask'⟩ := ih fun e he => hevents e (List.mem_cons_of_mem _ he)
      have hlast := hevents _ List.mem_cons_self
      by_cases hby : isBy t ⟨s₁, label, s₂⟩ = true
      · exact absurd hmem ((if_pos hby).mp hlast)
      · have hsame := ((if_neg hby).mp hlast).1.trans htask'
        rw [turns_cons, if_neg hby]
        exact ⟨hturns, hstep.aborted hmem (by rw [hsame]; nofun), hsame⟩
  have hzero := (hrun hevents).1
  omega

/-- The two phases between which a job without an entry goes back and forth. -/
def JobPhase.Waiting (phase : JobPhase) : Prop :=
  ∃ oldRev reason ops, phase = .draining oldRev reason ops ∨ phase = .settling oldRev reason ops

/-- A job whose repository has no entry keeps waiting, in a run of any length. -/
theorem waits_of_absent (u : ℕ) (hu : s.tasks u = none)
    (htask : s.tasks t = some (.job did phase)) (hphase : phase.Waiting)
    (hpending : s.pending did = none) (haborted : t ∉ s.aborted) (n : ℕ) :
  ∃ events s' phase', Runs config (fun _ _ => True) s events s' ∧
    (∀ e ∈ events, Undisturbed t did e) ∧ turns t events = n ∧ s'.tasks u = none ∧
      s'.tasks t = some (.job did phase') ∧ phase'.Waiting ∧ s'.pending did = none ∧
        t ∉ s'.aborted
  := by
  have hut : u ≠ t := by
    rintro rfl
    rw [htask] at hu
    cases hu
  induction n with
  | zero =>
      exact ⟨[], s, phase, .refl, fun e he => absurd he List.not_mem_nil, rfl, hu, htask, hphase,
        hpending, haborted⟩
  | succ n ih =>
      obtain ⟨events, s₁, phase₁, run, hevents, hturns, hu₁, htask₁, hphase₁, hpending₁,
        haborted₁⟩ := ih
      let input : Input :=
        { now := 0, loadError := none, saveError := none, answer := ⟨.error "", .error "", .error ""⟩
          stream := .error "", allowed := true, spawned := u }
      have hstep : ∃ phase₂, phase₂.Waiting ∧
          stepTask config s₁ t (.job did phase₁) input = s₁.put config t (.job did phase₂) := by
        obtain ⟨oldRev, reason, ops, rfl | rfl⟩ := hphase₁
        · refine ⟨.settling oldRev reason ops, ⟨_, _, _, .inr rfl⟩, ?_⟩
          rw [stepTask, stepJob, hpending₁]
        · refine ⟨.draining oldRev reason ops, ⟨_, _, _, .inl rfl⟩, ?_⟩
          rw [stepTask, stepJob, hpending₁]
      obtain ⟨phase₂, hphase₂, hstep⟩ := hstep
      have hlocking : (Task.job did phase₁).isLocking = false := by
        obtain ⟨oldRev, reason, ops, rfl | rfl⟩ := hphase₁
        · rfl
        · rfl
      have hlabelled : Labelled config (fun _ _ => True) s₁ (.task t (.job did phase₁) input)
          (stepTask config s₁ t (.job did phase₁) input) := by
        apply Labelled.task htask₁
        · intro h
          rw [hlocking] at h
          cases h
        · exact hu₁
        · trivial
      have hby : isBy t ⟨s₁, .task t (.job did phase₁) input,
          stepTask config s₁ t (.job did phase₁) input⟩ = true := decide_eq_true rfl
      refine ⟨_, _, phase₂, run.tail hlabelled, ?_, ?_, ?_, ?_, hphase₂, ?_, ?_⟩
      · intro e he
        rcases List.mem_cons.mp he with rfl | he
        · exact (if_pos hby).mpr haborted₁
        · exact hevents e he
      · rw [turns_cons, if_pos hby, hturns]
      · rw [hstep, State.put_tasks_of_ne config s₁ hut]
        exact hu₁
      · rw [hstep, State.put_tasks_self]
      · rw [hstep]
        exact hpending₁
      · rw [hstep]
        exact haborted₁

/-- A job whose repository has no entry need not leave its loop, if it is not aborted. -/
theorem not_leavesLoop_of_absent (u : ℕ) (hu : s.tasks u = none)
    (htask : s.tasks t = some (.job did phase)) (hphase : phase.Waiting)
    (hpending : s.pending did = none) (haborted : t ∉ s.aborted) :
  ¬LeavesLoop config t did s
  := by
  rintro ⟨n, hleaves⟩
  obtain ⟨events, s', phase', run, hevents, hturns, -, htask', hphase', -⟩ :=
    @waits_of_absent _ config _ _ _ _ u hu htask hphase hpending haborted n
  obtain ⟨phase, htask'', hleft⟩ := hleaves events s' run hevents (Nat.le_of_eq hturns.symm)
  rw [htask'] at htask''
  cases htask''
  obtain ⟨oldRev, reason, ops, rfl | rfl⟩ := hphase'
  · cases hleft
  · cases hleft

/-- A job at the head of its loop leaves the loop exactly when the entry of its repository is still
there, or the job was aborted with the others whose handles were kept. -/
theorem leavesLoop_iff {allowed : Task → Input → Prop} {start : State} (hstart : start.Initial)
    (hsteps : Steps config allowed start s) {oldRev : Option Bytes} {reason : String}
    {ops : List VerifierOp} (htask : s.tasks t = some (.job did (.draining oldRev reason ops))) :
  LeavesLoop config t did s ↔ (s.pending did).isSome = true ∨ t ∈ s.aborted
  := by
  constructor
  · intro hleaves
    by_contra h
    obtain ⟨habsent, haborted⟩ := not_or.mp h
    obtain ⟨events, run⟩ := steps_iff_runs.mp hsteps
    obtain ⟨bound, hbound⟩ := runs_fresh hstart run
    exact not_leavesLoop_of_absent bound (hbound bound (Nat.le_refl _)) htask ⟨_, _, _, .inl rfl⟩
      (Option.not_isSome_iff_eq_none.mp habsent) haborted hleaves
  · rintro (hpending | haborted)
    · obtain ⟨pending, hpending⟩ := Option.isSome_iff_exists.mp hpending
      exact leavesLoop_of_pending htask rfl hpending
    · exact leavesLoop_of_aborted htask haborted

end

namespace Sample

attribute [local instance] Hashing.checksum

/-- A verifier that fetches repositories in the background. -/
def resyncing : VerifierConfig :=
  { config with opts :=
    { config.opts with
      hasRepoSource := true, verifierPolicy := .resync, asyncResyncWorkers := 1
      pendingQueueCapacity := 10, repoLoadLimits := ⟨10000, 1000, 10000, 1000⟩ } }

/-- The event of a commit whose blocks were lost. -/
def lost : RawCommit := { raw with blocks := [] }

/-- The repository arrives. -/
def arriving : Input := { input with stream := .ok [.ok car], spawned := 2 }

/-- Whether a job is at the head of its loop. -/
def atHead : Option Task → Bool
  | some (.job did (.draining _ _ _)) => did = Repo.Sample.did
  | _ => false

/-- What is computed of a job that reaches the head of its loop, with the verifier closed before the
handle of the job is kept and with the verifier open. -/
theorem jobs_computed :
  (((start.put resyncing 0 (.verifyCommit lost .starting)).script resyncing (fun _ => true)
      (List.replicate 6 (0, input) ++ [(1, arriving)])).any fun s =>
        (s.close.script resyncing (fun _ => true)
          ((0, arriving) :: List.replicate 9 (1, arriving))).any fun s => atHead (s.tasks 1) ∧
            (s.pending Repo.Sample.did).isNone ∧ s.aborted = [] ∧ (s.tasks 2).isNone) = true ∧
    (((start.put resyncing 0 (.verifyCommit lost .starting)).script resyncing (fun _ => true)
      (List.replicate 6 (0, input) ++ (0, arriving) :: List.replicate 10 (1, arriving))).any
        fun s => atHead (s.tasks 1) ∧ (s.pending Repo.Sample.did).isSome) = true
  := by decide +kernel

/-- A job that has started when the verifier is closed, but whose handle is only kept then, never
leaves its loop. -/
theorem closed_loops :
  ∃ s phase, Steps resyncing (fun _ _ => True) start s ∧
    s.tasks 1 = some (.job Repo.Sample.did phase) ∧
      (∃ oldRev reason ops, phase = .draining oldRev reason ops) ∧
        ¬LeavesLoop resyncing 1 Repo.Sample.did s
  := by
  have hscript := jobs_computed.1
  obtain ⟨s₁, hs₁, hscript⟩ := (Option.any_eq_true _ _).mp hscript
  obtain ⟨s, hs, hhead⟩ := (Option.any_eq_true _ _).mp hscript
  obtain ⟨hhead, hpending, haborted, hfree⟩ := of_decide_eq_true hhead
  have hcall : Runs resyncing (fun _ _ => True) start [⟨start, .call 0 (.verifyCommit lost), _⟩]
      (start.put resyncing 0 (.verifyCommit lost .starting)) :=
    .tail .refl (.call (.verifyCommit lost) rfl)
  obtain ⟨events₁, run₁, -⟩ := Runs.script hcall hs₁ (by simp)
  obtain ⟨events, run, -⟩ := Runs.script (run₁.tail .close) hs (by simp)
  rw [atHead.eq_def] at hhead
  split at hhead
  · rename_i did oldRev reason ops htask
    cases of_decide_eq_true hhead
    exact ⟨s, _, steps_iff_runs.mpr ⟨_, run⟩, htask, ⟨_, _, _, rfl⟩,
      not_leavesLoop_of_absent 2 (Option.isNone_iff_eq_none.mp hfree) htask ⟨_, _, _, .inl rfl⟩
        (Option.isNone_iff_eq_none.mp hpending) (by rw [haborted]; exact List.not_mem_nil)⟩
  · cases hhead

/-- A job leaves its loop while the verifier is open. -/
theorem open_leaves :
  ∃ s, (s.pending Repo.Sample.did).isSome = true ∧ LeavesLoop resyncing 1 Repo.Sample.did s
  := by
  have hscript := jobs_computed.2
  obtain ⟨s, hs, hhead⟩ := (Option.any_eq_true _ _).mp hscript
  obtain ⟨hhead, hpending⟩ := of_decide_eq_true hhead
  have hcall : Runs resyncing (fun _ _ => True) start [⟨start, .call 0 (.verifyCommit lost), _⟩]
      (start.put resyncing 0 (.verifyCommit lost .starting)) :=
    .tail .refl (.call (.verifyCommit lost) rfl)
  obtain ⟨events, run, -⟩ := Runs.script hcall hs (by simp)
  rw [atHead.eq_def] at hhead
  split at hhead
  · rename_i did oldRev reason ops htask
    cases of_decide_eq_true hhead
    exact ⟨s, hpending,
      (leavesLoop_iff start_initial (steps_iff_runs.mpr ⟨_, run⟩) htask).mpr (.inl hpending)⟩
  · cases hhead

end Sample

end Shrike.Sync
