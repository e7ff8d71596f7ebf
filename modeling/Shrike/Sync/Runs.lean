import Shrike.Sync.ChainSafety
import Shrike.Sync.Moves

/-!
# Runs of the verifier with their steps

What each step of the verifier leaves of a task, and scripts that run.
-/

namespace Shrike.Sync

open Cbor Syntax Mst Car Repo Bytes Streaming

variable [Hashing] (config : VerifierConfig)

/-! ### Steps with labels -/

/-- What takes a step. -/
inductive Label where
  | call (t : ℕ) (call : Call)
  | task (t : ℕ) (task : Task) (input : Input)
  | drop (given : ℕ → Bool)
  | close

/-- The steps of the verifier, with what takes them. -/
inductive Labelled (allowed : Task → Input → Prop) : State → Label → State → Prop where
  | call {s : State} {t} (call : Call) (new : s.tasks t = none) :
      Labelled allowed s (.call t call) (s.put config t call.start)
  | task {s : State} {t} {task : Task} {input : Input} (running : s.tasks t = some task)
      (ready : task.isLocking = true → s.locks (config.lockStripe task.did) = none)
      (spawned : s.tasks input.spawned = none) (ok : allowed task input) :
      Labelled allowed s (.task t task input) (stepTask config s t task input)
  | drop {s : State} (given : ℕ → Bool) :
      Labelled allowed s (.drop given) (s.drop fun t => given t = true)
  | close {s : State} : Labelled allowed s .close s.close

/-- A step that was taken. -/
abbrev Taken := History.Event State Label

/-- The runs of the verifier, with their steps, the latest first. -/
abbrev Runs (allowed : Task → Input → Prop) : State → List Taken → State → Prop :=
  History.Run (Labelled config allowed)

variable {config} {allowed : Task → Input → Prop} {start s s' : State} {label : Label}

theorem Labelled.step (h : Labelled config allowed s label s') :
  Step config allowed s s'
  := by
  cases h with
  | call call new => exact .call call new
  | @task _ _ input running ready spawned ok => exact .task input running ready spawned ok
  | drop given => exact .drop _
  | close => exact .close

variable {t u : ℕ}

variable {next task task' : Task}

theorem Labelled.input {input : Input} (h : Labelled config allowed s (.task t task input) s') :
  allowed task input
  := by
  cases h with
  | task running ready spawned ok => exact ok

theorem Labelled.running {input : Input} (h : Labelled config allowed s (.task t task input) s') :
  s.tasks t = some task ∧ s' = stepTask config s t task input
  := by
  cases h with
  | task running ready spawned ok => exact ⟨running, rfl⟩

/-- Every step has a label. -/
theorem Step.labelled (h : Step config allowed s s') :
  ∃ label, Labelled config allowed s label s'
  := by
  cases h with
  | @call t call new => exact ⟨.call t call, .call call new⟩
  | @task t task input running ready spawned ok =>
      exact ⟨.task t task input, .task running ready spawned ok⟩
  | drop given =>
      refine ⟨.drop fun t => decide (given t), ?_⟩
      have hdrop : s.drop given = s.drop fun t => decide (given t) = true := by
        simp only [State.drop, decide_eq_true_eq]
      rw [hdrop]
      exact .drop _
  | close => exact ⟨.close, .close⟩

/-- The runs with their steps are the runs. -/
theorem steps_iff_runs :
  Steps config allowed start s ↔ ∃ events, Runs config allowed start events s
  := by
  constructor
  · intro h
    induction h with
    | refl => exact ⟨[], .refl⟩
    | tail _ last ih =>
        obtain ⟨events, run⟩ := ih
        obtain ⟨label, hlabel⟩ := last.labelled
        exact ⟨_, run.tail hlabel⟩
  · rintro ⟨events, run⟩
    exact run.reflTransGen fun s label s' h => h.step

/-! ### What a step leaves of a task -/

/-- What a task changes of the other tasks: it may start a job, and aborts none. -/
theorem TaskMove.tasks {input : Input} {s₁ : State}
    {entries : List Entry} (move : TaskMove config s t input task next s₁ entries) :
  s₁.aborted = s.aborted ∧
    (s₁.tasks u = s.tasks u ∨ (u = input.spawned ∧ ∃ did, s₁.tasks u = some (.job did .reading)))
  := by
  have hpush : ∀ pending raw, (s.pushPending config pending raw).aborted = s.aborted ∧
      (s.pushPending config pending raw).tasks u = s.tasks u := by
    intro pending raw
    rw [State.pushPending]
    split_ifs
    · exact ⟨rfl, rfl⟩
    · exact ⟨rfl, rfl⟩
  have hcommit : ∀ {raw allow phase next s₁ entries},
      CommitMove config s t raw allow input phase next s₁ entries → s₁.aborted = s.aborted ∧
        (s₁.tasks u = s.tasks u ∨
          (u = input.spawned ∧ ∃ did, s₁.tasks u = some (.job did .reading))) := by
    intro raw allow phase next s₁ entries move
    cases move with
    | buffered => exact (hpush _ _).imp_right .inl
    | enqueued outside workers opened h =>
        rw [State.enqueueResync, h]
        exact (hpush _ _).imp_right .inl
    | spawned outside workers opened h =>
        rw [State.enqueueResync, h]
        refine ⟨rfl, ?_⟩
        by_cases hu : u = input.spawned
        · rw [hu]
          exact .inr ⟨rfl, raw.repo, Function.update_self ..⟩
        · exact .inl (Function.update_of_ne hu ..)
    | _ => exact ⟨rfl, .inl rfl⟩
  have hresync : ∀ {did phase next s₁}, ResyncMove config s t did input phase next s₁ →
      s₁.aborted = s.aborted ∧ s₁.tasks u = s.tasks u := by
    intro did phase next s₁ move
    cases move <;> exact ⟨rfl, rfl⟩
  cases move with
  | commit move => exact hcommit move
  | sync move =>
      cases move with
      | resync move => exact (hresync move).imp_right .inl
      | _ => exact ⟨rfl, .inl rfl⟩
  | resync move => exact (hresync move).imp_right .inl
  | job move =>
      cases move with
      | resync move => exact (hresync move).imp_right .inl
      | verify move => exact hcommit move
      | @verifiedLast _ _ _ _ result => cases result <;> exact ⟨rfl, .inl rfl⟩
      | @verified _ _ _ _ _ result => cases result <;> exact ⟨rfl, .inl rfl⟩
      | _ => exact ⟨rfl, .inl rfl⟩
  | account move => cases move <;> exact ⟨rfl, .inl rfl⟩

/-- Where a task that there is after a step comes from. -/
inductive Origin (config : VerifierConfig) (s : State) (u : ℕ) (task' : Task) :
    Label → State → Prop where
  | kept {label : Label} {s' : State} (h : s.tasks u = some task')
      (other : ∀ task input, label = .task u task input → task' = task ∧ task.Finished ∧ s' = s)
      (old : ∀ call, label ≠ .call u call) : Origin config s u task' label s'
  | called {call : Call} (new : s.tasks u = none) (h : task' = call.start) :
      Origin config s u task' (.call u call) (s.put config u task')
  | moved {task : Task} {input} {s₁ : State} {entries} (h : s.tasks u = some task)
      (ready : task.isLocking = true → s.locks (config.lockStripe task.did) = none)
      (move : TaskMove config s u input task task' s₁ entries) :
      Origin config s u task' (.task u task input) ((s₁.put config u task').record entries)
  | spawned {t : ℕ} {task : Task} {input : Input} {s' : State} {did : Did}
      (new : s.tasks u = none) (other : u ≠ t) (number : u = input.spawned)
      (h : task' = .job did .reading) :
      Origin config s u task' (.task t task input) s'

/-- A task that there is after a step was there before, and took the step or not, or was called, or
is a job that was started. -/
theorem Labelled.origin (h : Labelled config allowed s label s') (hu : s'.tasks u = some task') :
  Origin config s u task' label s'
  := by
  cases h with
  | @call t call new =>
      by_cases hut : u = t
      · subst hut
        rw [State.put_tasks_self] at hu
        cases hu
        exact .called new rfl
      · rw [State.put_tasks_of_ne config s hut] at hu
        apply Origin.kept hu
        · intro task input heq
          cases heq
        · intro call' heq
          cases heq
          exact hut rfl
  | @task t task input running ready spawned ok =>
      rcases stepTask_move config s t task input with ⟨hfinished, heq⟩ | ⟨next, s₁, entries, move, heq⟩
      · rw [heq] at hu ⊢
        apply Origin.kept hu
        · intro task'' input' hlabel
          cases hlabel
          rw [running] at hu
          cases hu
          exact ⟨rfl, hfinished, rfl⟩
        · intro call heq
          cases heq
      · rw [heq] at hu ⊢
        by_cases hut : u = t
        · subst hut
          rw [State.record_tasks, State.put_tasks_self] at hu
          cases hu
          exact .moved running ready move
        · rw [State.record_tasks, s₁.put_tasks_of_ne config hut] at hu
          rcases (move.tasks (u := u)).2 with hold | ⟨rfl, did, hjob⟩
          · rw [hold] at hu
            refine .kept hu ?_ nofun
            intro task'' input' hlabel
            cases hlabel
            exact absurd rfl hut
          · rw [hjob] at hu
            cases hu
            exact .spawned spawned hut rfl rfl
  | drop given =>
      rw [State.drop] at hu
      dsimp only at hu
      split_ifs at hu
      apply Origin.kept hu
      · intro task input heq
        cases heq
      · intro call heq
        cases heq
  | close =>
      have hold : s.tasks u = some task' := hu
      apply Origin.kept hold
      · intro task input heq
        cases heq
      · intro call heq
        cases heq

/-- A number above that of the task that a step starts. -/
def Label.fresh : Label → ℕ
  | .call t _ => t + 1
  | .task _ _ input => input.spawned + 1
  | _ => 0

/-- There are numbers that no task has. -/
theorem runs_fresh {events : List Taken} (hstart : start.Initial)
    (run : Runs config allowed start events s) :
  ∃ bound, ∀ u, bound ≤ u → s.tasks u = none
  := by
  apply run.invariant (I := fun _ s => ∃ bound, ∀ u, bound ≤ u → s.tasks u = none)
  · exact ⟨0, fun u _ => hstart.tasks u⟩
  · rintro events s label s' run ⟨bound, hbound⟩ hstep
    refine ⟨max bound label.fresh, ?_⟩
    intro u hu
    have hold := hbound u (by omega)
    by_contra hsome
    obtain ⟨task', htask'⟩ := Option.ne_none_iff_exists'.mp hsome
    cases hstep.origin htask' with
    | kept h other old =>
        rw [hold] at h
        cases h
    | called new h =>
        rw [Label.fresh] at hu
        omega
    | moved h ready move =>
        rw [hold] at h
        cases h
    | spawned new other number h =>
        rw [Label.fresh] at hu
        omega

/-! ### Scripts -/

/-- A task goes on, if it can. -/
def State.advance (config : VerifierConfig) (s : State) (t : ℕ) (input : Input) : Option State :=
  match s.tasks t with
  | none => none
  | some task =>
      if (task.isLocking = true → (s.locks (config.lockStripe task.did)).isNone = true) ∧
          (s.tasks input.spawned).isNone = true then
        some (stepTask config s t task input)
      else none

/-- Tasks go on one after the other, if they can and what is checked holds before each step. -/
def State.script (config : VerifierConfig) (check : State → Bool) :
    State → List (ℕ × Input) → Option State
  | s, [] => some s
  | s, (t, input) :: rest =>
      if check s then
        match s.advance config t input with
        | none => none
        | some s => s.script config check rest
      else none

theorem State.advance_eq_some {input : Input} (h : s.advance config t input = some s')
    (ok : ∀ task, s.tasks t = some task → allowed task input) :
  ∃ task, s.tasks t = some task ∧ Labelled config allowed s (.task t task input) s'
  := by
  rw [State.advance] at h
  split at h
  · cases h
  · rename_i task running
    split_ifs at h with henabled
    cases h
    refine ⟨task, running,
      .task running ?_ (Option.isNone_iff_eq_none.mp henabled.2) (ok task running)⟩
    intro hlocking
    exact Option.isNone_iff_eq_none.mp (henabled.1 hlocking)

/-- A step of a script. -/
def Scripted (check : State → Bool) (moves : List (ℕ × Input)) (e : Taken) : Prop :=
  ∃ t task input, e.label = .task t task input ∧ (t, input) ∈ moves ∧
    e.before.tasks t = some task ∧ check e.before = true

/-- A script is a run, whose steps are those of the script. -/
theorem Runs.script {events : List Taken} (run : Runs config allowed start events s)
    {check : State → Bool} {moves : List (ℕ × Input)} (h : s.script config check moves = some s')
    (ok : ∀ move ∈ moves, ∀ s task, check s = true → s.tasks move.1 = some task →
      allowed task move.2) :
  ∃ events', Runs config allowed start (events' ++ events) s' ∧
    ∀ e ∈ events', Scripted check moves e
  := by
  induction moves generalizing s events with
  | nil =>
      cases h
      exact ⟨[], run, fun e he => absurd he List.not_mem_nil⟩
  | cons move rest ih =>
      obtain ⟨t, input⟩ := move
      rw [State.script] at h
      split_ifs at h with hcheck
      split at h
      · cases h
      · rename_i s₁ hs₁
        obtain ⟨task, htask, hstep⟩ := State.advance_eq_some hs₁
          fun task => ok _ List.mem_cons_self s task hcheck
        obtain ⟨events', run', hevents⟩ := ih (run.tail hstep) h
          fun move hmove => ok move (List.mem_cons_of_mem _ hmove)
        refine ⟨events' ++ [_], by rwa [List.append_assoc], ?_⟩
        intro e he
        rcases List.mem_append.mp he with he | he
        · obtain ⟨t', task', input', hlabel, hmem, hrest⟩ := hevents e he
          exact ⟨t', task', input', hlabel, List.mem_cons_of_mem _ hmem, hrest⟩
        · cases List.mem_singleton.mp he
          exact ⟨t, task, input, rfl, List.mem_cons_self, htask, hcheck⟩

end Shrike.Sync
