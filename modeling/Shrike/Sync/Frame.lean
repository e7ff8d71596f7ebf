import Shrike.Sync.Leniency
import Shrike.Sync.Runs

/-!
# What rejected events leave alone

The steps of a call, and what they change of the stored states when the call does not let its event
through.
-/

namespace Shrike.Sync

open Cbor Syntax Mst Car Repo Bytes Streaming
open Except (Fails)

/-! ### Breaks of the chain -/

/-- Whether an error says that a commit does not continue the stored state. -/
def VerifierError.isChainBreak : VerifierError → Bool
  | .chainBreak _ _ _ _ => true
  | _ => false

/-- A computation does not fail with a break of the chain. -/
abbrev Unbroken {α : Type} (x : Except VerifierError α) : Prop :=
  Fails (fun e => e.isChainBreak = false) x

theorem chainRev_unbroken (did : Did) (rev : Tid) (chain : ChainState) :
  Unbroken (chainRev did rev chain)
  := Except.fails_mapError fun _ => rfl

theorem isRevReplay_unbroken (did : Did) (rev : Tid) (chain : Option ChainState) :
  Unbroken (isRevReplay did rev chain)
  := by
  cases chain with
  | none => exact Except.fails_ok _
  | some chain => exact (chainRev_unbroken did rev chain).map

theorem checkFields_unbroken (did : Did) (rev : Bytes) (expectedRev : Tid) (inner : Commit) :
  Unbroken (checkFields did rev expectedRev inner)
  := by
  refine Fails.bind (Except.fails_refuse rfl) ?_
  intro _
  refine Fails.bind (Except.fails_refuse rfl) ?_
  intro _
  exact Except.fails_refuse rfl

theorem verifySignature_unbroken (texts : Texts) (did : Did) (rev : Tid) (inner : Commit)
    (answer : ResolverAnswer) :
  Unbroken (verifySignature texts did rev inner answer)
  := by
  have hidentity : ∀ {source e}, verifySignatureOnce texts did inner source = .error (.identity e) →
      e.isChainBreak = false := by
    intro source e h
    rw [verifySignatureOnce] at h
    cases source with
    | error source =>
        cases h
        rfl
    | ok key =>
        cases key with
        | none => cases h
        | some key =>
            dsimp only [Except.mapError, Except.ofOption, bind, Except.bind] at h
            split at h
            · cases h
            · cases h
  rw [verifySignature]
  split
  · exact Except.fails_ok ()
  · rename_i e h
    exact Except.fails_error (hidentity h)
  · refine Fails.bind (Except.fails_mapError fun _ => rfl) ?_
    intro _
    split
    · exact Except.fails_ok ()
    · rename_i e h
      exact Except.fails_error (hidentity h)
    · exact Except.fails_error rfl

theorem rejectFutureRev_unbroken (opts : VerifierOptions) (now : ℕ) (raw : RawCommit) :
  Unbroken (rejectFutureRev opts now raw >>= fun _ => rejectOversized raw)
  := by
  refine Fails.bind (Except.fails_refuse rfl) ?_
  intro _
  refine Fails.bind (Except.fails_refuse rfl) ?_
  intro _
  exact Except.fails_refuse rfl

theorem checkGate_unbroken (config : VerifierConfig) (s : State) (did : Did) (input : Input) :
  Unbroken (s.checkGate config did input)
  := by
  rw [State.checkGate]
  split_ifs
  · exact Except.fails_ok ()
  · split
    · exact Except.fails_error rfl
    · exact Except.fails_refuse rfl

theorem loadChain_unbroken (s : State) (did : Did) (input : Input) :
  Unbroken (s.loadChain did input)
  := by
  rw [State.loadChain]
  split
  · exact Except.fails_error rfl
  · exact Except.fails_ok _

section

variable (texts : Texts) (opts : VerifierOptions)

/-- A chain that breaks is reported later or asks for the repository, as the policy says. -/
theorem checkChain_error (raw : RawCommit) (chain : Option ChainState) (root : Option Cid) :
  Unbroken (checkChain texts opts raw chain root) ∧ ∀ e,
    checkChain texts opts raw chain root = .ok (some e) →
      opts.verifierPolicy = .error ∧ e.isChainBreak = true
  := by
  have hbroken : ∀ expected actual, Unbroken (chainBroken texts opts raw
      (.chainBreak raw.repo raw.rev.format expected actual)) ∧ ∀ e,
        chainBroken texts opts raw (.chainBreak raw.repo raw.rev.format expected actual) =
            .ok (some e) →
          opts.verifierPolicy = .error ∧ e.isChainBreak = true := by
    intro expected actual
    rw [chainBroken]
    split
    · rename_i hpolicy
      refine ⟨Except.fails_ok _, ?_⟩
      intro e he
      cases he
      exact ⟨hpolicy, rfl⟩
    · exact ⟨Except.fails_error rfl, fun _ h => (by cases h)⟩
  have hnone : Unbroken (.ok none : Except VerifierError (Option VerifierError)) ∧ ∀ e,
      (.ok none : Except VerifierError (Option VerifierError)) = .ok (some e) →
        opts.verifierPolicy = .error ∧ e.isChainBreak = true :=
    ⟨Except.fails_ok _, fun _ h => (by cases h)⟩
  rw [checkChain.eq_def]
  split
  · exact hnone
  · dsimp only
    split_ifs
    · exact hnone
    · exact hnone
    · exact hbroken _ _
    · exact hnone
    · exact hbroken _ _

variable [Hashing]

theorem decodeCommitCar_unbroken (raw : RawCommit) :
  Unbroken (decodeCommitCar texts raw)
  := by
  refine Fails.bind (Except.fails_mapError fun _ => rfl) ?_
  intro read
  refine Fails.bind (Except.fails_ofOption rfl) ?_
  intro carRoot
  refine Fails.bind (Except.fails_refuse rfl) ?_
  intro _
  refine Fails.bind (Except.fails_mapError fun _ => rfl) ?_
  intro store
  refine Fails.bind (Except.fails_ofOption rfl) ?_
  intro commitBlock
  refine Fails.bind (Except.fails_mapError fun _ => rfl) ?_
  intro inner
  exact Except.fails_ok _

theorem undoOp_unbroken (raw : RawCommit) (blocks : Blocks) (tree : DetachedTree)
    (op : RawRepoOp) :
  Unbroken (undoOp texts raw blocks tree op)
  := by
  rw [undoOp]
  split_ifs
  · split
    · exact Except.fails_error rfl
    · exact Except.fails_ok _
  · split
    · exact Except.fails_error rfl
    · split
      · exact Except.fails_error rfl
      · exact Except.fails_ok _
  · exact Except.fails_error rfl

theorem previousRoot_unbroken (raw : RawCommit) (inner : Commit) (store : Blocks)
    (chain : Option ChainState) :
  Unbroken (previousRoot texts opts raw inner store chain)
  := by
  have hpaths : Unbroken (checkDuplicatePath raw) := by
    rw [checkDuplicatePath]
    split
    · exact Except.fails_error rfl
    · exact Except.fails_ok ()
  rw [previousRoot]
  split_ifs
  · exact Except.fails_ok none
  · exact Except.fails_error rfl
  · exact Except.fails_ok none
  · apply Fails.map
    apply hpaths.bind
    intro _
    apply Fails.bind
    · exact Except.fails_foldlM (fun tree op => undoOp_unbroken texts raw store tree op) _ _
    · intro tree
      exact Except.fails_mapError fun _ => rfl

theorem checkOpCids_unbroken (raw : RawCommit) (data : Cid) (store : Blocks) :
  Unbroken (checkOpCids texts raw data store)
  := by
  have hexpected : ∀ op, Unbroken (expectedValue texts raw op) := by
    intro op
    rw [expectedValue]
    split_ifs
    · split
      · exact Except.fails_error rfl
      · exact Except.fails_ok _
    · split
      · exact Except.fails_error rfl
      · exact Except.fails_ok _
    · exact Except.fails_error rfl
  have hfrom : ∀ ops tree, Unbroken (checkOpCidsFrom texts raw store tree ops) := by
    intro ops
    induction ops with
    | nil => exact fun tree => Except.fails_ok ()
    | cons op ops ih =>
        intro tree
        apply Fails.bind (hexpected op)
        intro expected
        split
        · exact Except.fails_error rfl
        · refine Fails.bind (Except.fails_refuse rfl) ?_
          intro _
          exact ih _
  exact hfrom _ _

/-- What the checks of a commit say about a break of the chain: it is only reported after the state
is saved, and only if the policy is to report errors. -/
def CommitCheck.BreaksLate : CommitCheck → Prop
  | .replay => True
  | .failed e => e.isChainBreak = false
  | .recoverable e => e.isChainBreak = false
  | .accepted _ chainError =>
      ∀ e, chainError = some e → opts.verifierPolicy = .error ∧ e.isChainBreak = true

theorem checkCommit_breaksLate (raw : RawCommit) (chain : Option ChainState)
    (answer : ResolverAnswer) :
  (checkCommit texts opts raw chain answer).BreaksLate opts
  := by
  rw [checkCommit]
  split
  · rename_i e h
    exact isRevReplay_unbroken raw.repo raw.rev chain e h
  · trivial
  · split
    · rfl
    · split
      · rename_i e h
        have he := decodeCommitCar_unbroken texts raw e h
        split_ifs
        · exact he
        · exact he
      · rename_i decoded hdecode
        rw [checkDecoded]
        split
        · rename_i e h
          exact previousRoot_unbroken texts opts raw _ _ chain e h
        · rename_i root hroot
          obtain ⟨hunbroken, hreport⟩ := checkChain_error texts opts raw chain root
          split
          · rename_i e h
            exact hunbroken e h
          · rename_i chainError hchain
            split
            · rename_i e h
              exact checkFields_unbroken _ _ _ _ e h
            · split
              · rename_i e h
                exact verifySignature_unbroken _ _ _ _ _ e h
              · rw [checkSigned]
                split
                · rename_i e h
                  exact checkOpCids_unbroken texts raw _ _ e h
                · rintro e rfl
                  exact hreport e hchain

end
/-! ### The steps of a call -/

/-- A step that leaves the stored states alone. -/
def Silent (e : Taken) : Prop :=
  e.after.chains = e.before.chains ∧ e.after.hostings = e.before.hostings

/-- The steps of a task since it was called. -/
def callEvents (t : ℕ) : List Taken → List Taken
  | [] => []
  | ⟨before, .task u task input, after⟩ :: events =>
      if u = t then ⟨before, .task u task input, after⟩ :: callEvents t events
      else callEvents t events
  | ⟨_, .call u _, _⟩ :: events => if u = t then [] else callEvents t events
  | _ :: events => callEvents t events

/-- The steps leave the stored states alone. -/
def AllSilent (events : List Taken) : Prop := ∀ e ∈ events, Silent e

theorem AllSilent.nil :
  AllSilent []
  := fun _ he => absurd he List.not_mem_nil

theorem AllSilent.cons {e : Taken} {events : List Taken} (he : Silent e)
    (h : AllSilent events) :
  AllSilent (e :: events)
  := by
  intro e' he'
  rcases List.mem_cons.mp he' with rfl | he'
  · exact he
  · exact h e' he'

theorem callEvents_task (t : ℕ) (task : Task) (input : Input) (s s' : State)
    (events : List Taken) :
  callEvents t (⟨s, .task t task input, s'⟩ :: events) =
    ⟨s, .task t task input, s'⟩ :: callEvents t events
  := by
  rw [callEvents, if_pos rfl]

theorem callEvents_call (t : ℕ) (call : Call) (s s' : State) (events : List Taken) :
  callEvents t (⟨s, .call t call, s'⟩ :: events) = []
  := by
  rw [callEvents, if_pos rfl]

/-- The steps of others are none of a call. -/
theorem callEvents_other {t : ℕ} {label : Label} (s s' : State) (events : List Taken)
    (htask : ∀ task input, label ≠ .task t task input) (hcall : ∀ call, label ≠ .call t call) :
  callEvents t (⟨s, label, s'⟩ :: events) = callEvents t events
  := by
  cases label with
  | task u task input =>
      rw [callEvents, if_neg]
      rintro rfl
      exact htask task input rfl
  | call u call =>
      rw [callEvents, if_neg]
      rintro rfl
      exact hcall call rfl
  | _ => rfl

theorem pushPending_silent (config : VerifierConfig) (s : State) (pending : PendingResync) (raw : RawCommit) :
  (s.pushPending config pending raw).chains = s.chains ∧
    (s.pushPending config pending raw).hostings = s.hostings
  := by
  rw [State.pushPending]
  split_ifs
  · exact ⟨rfl, rfl⟩
  · exact ⟨rfl, rfl⟩

theorem enqueueResync_silent (config : VerifierConfig) (s : State) (raw : RawCommit)
    (oldRev : Option Bytes) (error : VerifierError) (input : Input) :
  (s.enqueueResync config raw oldRev error input).chains = s.chains ∧
    (s.enqueueResync config raw oldRev error input).hostings = s.hostings
  := by
  rw [State.enqueueResync]
  split
  · exact pushPending_silent _ _ _ _
  · exact ⟨rfl, rfl⟩

section

variable [Hashing] (config : VerifierConfig)

/-- One of the steps of a call saves the state after its commit, if the store accepts it, and the
others change no stored state. -/
def AdvancesOnce (raw : RawCommit) (events : List Taken) : Prop :=
  ∃ later e earlier decoded t task input, events = later ++ e :: earlier ∧
    AllSilent later ∧ AllSilent earlier ∧ e.label = .task t task input ∧
      decodeCommitCar config.texts raw = .ok decoded ∧ e.after.hostings = e.before.hostings ∧
        (input.saveError = none → e.after.chains = Function.update e.before.chains raw.repo
          (some ⟨raw.rev.format, decoded.inner.data⟩)) ∧
            (input.saveError ≠ none → e.after.chains = e.before.chains)

/-- What the steps of a call may have changed when its commit is at a phase. -/
def CommitPhase.Framed (raw : RawCommit) (events : List Taken) : CommitPhase → Prop
  | .recovering e _ => AllSilent events ∧ e.isChainBreak = false
  | .saving _ decoded chainError => AllSilent events ∧
      decodeCommitCar config.texts raw = .ok decoded ∧
        ∀ e, chainError = some e → config.opts.verifierPolicy = .error ∧ e.isChainBreak = true
  | .returned (.ok (some _)) => True
  | .returned (.error e) =>
      if config.opts.verifierPolicy = .error ∧ e.isChainBreak = true then
        AdvancesOnce config raw events
      else AllSilent events
  | _ => AllSilent events

/-- What the steps of a call may have changed when its repository is at a phase. -/
def ResyncPhase.Framed (events : List Taken) : ResyncPhase → Prop
  | .returned (.ok _) => True
  | _ => AllSilent events

/-- What the steps of a call may have changed when the state it verifies is at a phase. -/
def SyncPhase.Framed (events : List Taken) : SyncPhase → Prop
  | .returned (.ok _) => True
  | .resyncing phase => phase.Framed events
  | _ => AllSilent events

/-- What the steps of a call may have changed. -/
def Task.Framed (events : List Taken) : Task → Prop
  | .verifyCommit raw phase => phase.Framed config raw events
  | .verifySync _ phase => phase.Framed events
  | _ => True

variable {config} {s s₁ : State} {t : ℕ} {input : Input} {entries : List Entry}
  {events : List Taken} {e : Taken}

theorem CommitPhase.framed_error {raw : RawCommit} {error : VerifierError}
    (hbreak : error.isChainBreak = false) (h : AllSilent events) :
  CommitPhase.Framed config raw events (.returned (.error error))
  := by
  rw [CommitPhase.Framed, if_neg]
  · exact h
  · rintro ⟨-, herror⟩
    rw [hbreak] at herror
    cases herror

omit [Hashing] in
theorem silent_of_eq (hbefore : e.before = s) (hchains : e.after.chains = s₁.chains)
    (hhostings : e.after.hostings = s₁.hostings) (hc : s₁.chains = s.chains)
    (hh : s₁.hostings = s.hostings) :
  Silent e
  := by
  rw [Silent, hchains, hhostings, hbefore]
  exact ⟨hc, hh⟩

/-- The verification of a commit changes stored states as it may. -/
theorem CommitMove.framed {raw : RawCommit} {allowAsyncResync : Bool} {phase next : CommitPhase}
    {task : Task} (move : CommitMove config s t raw allowAsyncResync input phase next s₁ entries)
    (hlabel : e.label = .task t task input) (hbefore : e.before = s)
    (hchains : e.after.chains = s₁.chains) (hhostings : e.after.hostings = s₁.hostings)
    (h : phase.Framed config raw events) :
  next.Framed config raw (e :: events)
  := by
  have hquiet := silent_of_eq hbefore hchains hhostings
  cases move with
  | refused hrefused =>
      exact CommitPhase.framed_error (rejectFutureRev_unbroken _ _ _ _ hrefused)
        (.cons (hquiet rfl rfl) h)
  | admitted =>
      cases allowAsyncResync with
      | true => exact .cons (hquiet rfl rfl) h
      | false => exact .cons (hquiet rfl rfl) h
  | buffered =>
      obtain ⟨hc, hh⟩ := pushPending_silent config s _ _
      exact .cons (hquiet hc hh) h
  | inactive hgate =>
      exact CommitPhase.framed_error (checkGate_unbroken _ _ _ _ _ hgate) (.cons (hquiet rfl rfl) h)
  | unloaded hload =>
      exact CommitPhase.framed_error (loadChain_unbroken _ _ _ _ hload) (.cons (hquiet rfl rfl) h)
  | @failed chain _ hload check =>
      have hlate := checkCommit_breaksLate config.texts config.opts raw chain input.answer
      rw [check] at hlate
      exact CommitPhase.framed_error hlate (.cons (hquiet rfl rfl) h)
  | @diverged chain _ hload check =>
      have hlate := checkCommit_breaksLate config.texts config.opts raw chain input.answer
      rw [check] at hlate
      exact ⟨.cons (hquiet rfl rfl) h, hlate⟩
  | @accepted chain decoded chainError hload check =>
      have hlate := checkCommit_breaksLate config.texts config.opts raw chain input.answer
      rw [check] at hlate
      exact ⟨.cons (hquiet rfl rfl) h, (checkCommit_eq_accepted.mp check).decode, hlate⟩
  | enqueued =>
      obtain ⟨hc, hh⟩ := enqueueResync_silent _ _ _ _ _ _
      exact .cons (hquiet hc hh) h.1
  | spawned =>
      obtain ⟨hc, hh⟩ := enqueueResync_silent _ _ _ _ _ _
      exact .cons (hquiet hc hh) h.1
  | unrecovered => exact CommitPhase.framed_error h.2 (.cons (hquiet rfl rfl) h.1)
  | @unsaved message chain decoded chainError hsave =>
      obtain ⟨hsilent, hdecode, hreport⟩ := h
      cases chainError with
      | none => exact CommitPhase.framed_error rfl (.cons (hquiet rfl rfl) hsilent)
      | some error =>
          rw [CommitPhase.Framed, Option.getD_some, if_pos (hreport error rfl)]
          refine ⟨[], e, events, decoded, t, task, input, rfl, .nil, hsilent, hlabel, hdecode, ?_,
            ?_, ?_⟩
          · exact (hquiet rfl rfl).2
          · intro hnone
            rw [hsave] at hnone
            cases hnone
          · exact fun _ => (hquiet rfl rfl).1
  | @broken error chain decoded hsave =>
      obtain ⟨hsilent, hdecode, hreport⟩ := h
      rw [CommitPhase.Framed, if_pos (hreport error rfl)]
      refine ⟨[], e, events, decoded, t, task, input, rfl, .nil, hsilent, hlabel, hdecode, ?_, ?_,
        ?_⟩
      · rw [hhostings, hbefore]
        rfl
      · intro _
        rw [hchains, hbefore]
        rfl
      · exact fun hsome => absurd hsave hsome
  | saved => trivial
  | _ => exact .cons (hquiet rfl rfl) h

/-- The fetch of a repository changes stored states as it may. -/
theorem ResyncMove.framed {did : Did} {phase next : ResyncPhase}
    (move : ResyncMove config s t did input phase next s₁) (hbefore : e.before = s)
    (hchains : e.after.chains = s₁.chains) (hhostings : e.after.hostings = s₁.hostings)
    (h : phase.Framed events) :
  next.Framed (e :: events)
  := by
  have hquiet := silent_of_eq hbefore hchains hhostings
  cases move with
  | saved => trivial
  | failed error waiting running =>
      cases phase with
      | returned result => exact absurd rfl (running result)
      | _ => exact .cons (hquiet rfl rfl) h
  | _ => exact .cons (hquiet rfl rfl) h

/-- The verification of the state of a repository changes stored states as it may. -/
theorem SyncMove.framed {raw : RawSync} {phase next : SyncPhase}
    (move : SyncMove config s t raw input phase next s₁) (hbefore : e.before = s)
    (hchains : e.after.chains = s₁.chains) (hhostings : e.after.hostings = s₁.hostings)
    (h : phase.Framed events) :
  next.Framed (e :: events)
  := by
  have hquiet := silent_of_eq hbefore hchains hhostings
  cases move with
  | replayed => trivial
  | saved => trivial
  | resync move => exact move.framed hbefore hchains hhostings h
  | @resynced result =>
      cases result with
      | error error => exact .cons (hquiet rfl rfl) h
      | ok ops => trivial
  | failed error waiting own running =>
      cases phase with
      | returned result => exact absurd rfl (running result)
      | resyncing inner => exact absurd rfl (own inner)
      | _ => exact .cons (hquiet rfl rfl) h
  | _ => exact .cons (hquiet rfl rfl) h

/-- A step of a call that has returned changes nothing. -/
theorem Task.Framed.idle {task : Task} (hfinished : task.Finished) (h : task.Framed config events)
    (he : Silent e) :
  task.Framed config (e :: events)
  := by
  cases task with
  | verifyCommit raw phase =>
      obtain ⟨result, rfl⟩ := hfinished
      rcases result with error | _ | ops
      · rw [Task.Framed, CommitPhase.Framed] at h ⊢
        split_ifs at h ⊢
        · obtain ⟨later, e', earlier, decoded, t, task, input, rfl, hlater, hrest⟩ := h
          exact ⟨e :: later, e', earlier, decoded, t, task, input, rfl, .cons he hlater, hrest⟩
        · exact .cons he h
      · exact AllSilent.cons he h
      · trivial
  | verifySync raw phase =>
      obtain ⟨result, rfl⟩ := hfinished
      cases result with
      | error error => exact AllSilent.cons he h
      | ok ops => trivial
  | _ => trivial

/-- Every call changes stored states as it may. -/
theorem runs_framed_task {allowed : Task → Input → Prop} {start : State} (hstart : start.Initial)
    (run : Runs config allowed start events s) :
  ∀ t task, s.tasks t = some task → task.Framed config (callEvents t events)
  := by
  apply run.invariant
    (I := fun events s => ∀ t task, s.tasks t = some task →
      task.Framed config (callEvents t events))
  · intro t task htask
    rw [hstart.tasks] at htask
    cases htask
  · intro events s label s' run ih hstep t task' htask'
    cases hstep.origin htask' with
    | kept hold other old =>
        by_cases hown : ∃ task input, label = .task t task input
        · obtain ⟨task, input, rfl⟩ := hown
          obtain ⟨rfl, hfinished, hsame⟩ := other task input rfl
          rw [callEvents_task]
          apply Task.Framed.idle hfinished (ih t task' hold)
          rw [hsame]
          exact ⟨rfl, rfl⟩
        · rw [callEvents_other]
          · exact ih t task' hold
          · exact fun task input heq => hown ⟨task, input, heq⟩
          · exact old
    | @called call new heq =>
        rw [heq, callEvents_call]
        cases call with
        | verifyCommit raw => exact AllSilent.nil
        | verifySync raw => exact AllSilent.nil
        | _ => trivial
    | @moved task input s₁ entries hold ready move =>
        rw [callEvents_task]
        have hframed := ih t task hold
        cases move with
        | commit move => exact move.framed rfl rfl rfl rfl hframed
        | sync move => exact move.framed rfl rfl rfl hframed
        | _ => trivial
    | spawned new other number heq =>
        rw [heq]
        trivial

/-- Calls that do not let their event through leave the stored states alone: a commit that is
dropped, put aside or fails, and a state of a repository that fails. Only a commit that breaks the
chain under the policy to report it advances the state to its own, once. -/
theorem runs_framed {allowed : Task → Input → Prop} {start : State} (hstart : start.Initial)
    (run : Runs config allowed start events s) (t : ℕ) :
  (∀ raw result, s.tasks t = some (.verifyCommit raw (.returned result)) →
      (result = .ok none ∨ ∃ error, result = .error error ∧
        ¬(config.opts.verifierPolicy = .error ∧ error.isChainBreak = true)) →
      AllSilent (callEvents t events)) ∧
    (∀ raw error, s.tasks t = some (.verifyCommit raw (.returned (.error error))) →
      config.opts.verifierPolicy = .error → error.isChainBreak = true →
        AdvancesOnce config raw (callEvents t events)) ∧
    (∀ raw error, s.tasks t = some (.verifySync raw (.returned (.error error))) →
      AllSilent (callEvents t events))
  := by
  have hframed := runs_framed_task hstart run t
  refine ⟨?_, ?_, ?_⟩
  · rintro raw result htask (rfl | ⟨error, rfl, herror⟩)
    · exact hframed _ htask
    · have h := hframed _ htask
      rwa [Task.Framed, CommitPhase.Framed, if_neg herror] at h
  · intro raw error htask hpolicy hbreak
    have h := hframed _ htask
    rwa [Task.Framed, CommitPhase.Framed, if_pos ⟨hpolicy, hbreak⟩] at h
  · intro raw error htask
    exact hframed _ htask

end

namespace Sample

attribute [local instance] Hashing.checksum

/-- A verifier that reports errors and is not lenient. -/
def strict : VerifierConfig := { config with opts := { config.opts with lenientInversion := false } }

/-- Whether a call returned a break of the chain. -/
def brokeChain : Option Task → Bool
  | some (.verifyCommit _ (.returned (.error error))) => error.isChainBreak
  | _ => false

/-- A commit that breaks the chain advances the state once. -/
theorem raw_framed :
  ∃ events s raw error, Runs strict (fun _ _ => True) start events s ∧
    s.tasks 0 = some (.verifyCommit raw (.returned (.error error))) ∧ error.isChainBreak = true ∧
      AdvancesOnce strict raw (callEvents 0 events)
  := by
  have hscript : (((start.put strict 0 (.verifyCommit raw .starting)).script strict (fun _ => true)
      (List.replicate 6 (0, input))).any fun s => brokeChain (s.tasks 0)) = true := by
    decide +kernel
  obtain ⟨s, hs, hbroke⟩ := (Option.any_eq_true _ _).mp hscript
  have hcall : Runs strict (fun _ _ => True) start [⟨start, .call 0 (.verifyCommit raw), _⟩]
      (start.put strict 0 (.verifyCommit raw .starting)) :=
    .tail .refl (.call (.verifyCommit raw) rfl)
  obtain ⟨events, run, -⟩ := Runs.script hcall hs (by simp)
  rw [brokeChain.eq_def] at hbroke
  split at hbroke
  · rename_i raw' error htask
    exact ⟨_, s, raw', error, run, htask, hbroke,
      (runs_framed start_initial run 0).2.1 raw' error htask rfl hbroke⟩
  · cases hbroke

end Sample

end Shrike.Sync
