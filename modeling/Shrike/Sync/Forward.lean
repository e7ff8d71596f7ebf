import Shrike.Sync.Leniency

/-!
# The history of the stored states

What happened in a run of a verifier: every state that was saved advances the one before it, and
every commit that was let through is the one whose state was just saved.
-/

namespace Shrike.Sync

open Cbor Syntax Mst Car Repo Bytes Streaming

/-! ### Histories -/

/-- The state that an entry saves of a repository. -/
def Entry.savedState (did : Did) : Entry → Option ChainState
  | .saved d _ state => if d = did then some state else none
  | _ => none

/-- The state of a repository that is stored after what happened. -/
def storedAfter (start : State) (log : List Entry) (did : Did) : Option ChainState :=
  (log.findSome? (Entry.savedState did)).or (start.chains did)

/-- The repository and the revision of a commit that is let through. -/
def Entry.delivered : Entry → Option (Did × Tid)
  | .verified _ raw _ => some (raw.repo, raw.rev)
  | _ => none

/-- The repositories and revisions of the commits that were let through. -/
def delivered (log : List Entry) : List (Did × Tid) := log.filterMap Entry.delivered

/-- The revisions of the commits that were let through are not after the stored ones. -/
def Below (s : State) : Prop :=
  ∀ did rev, (did, rev) ∈ delivered s.log → ∃ chain current, s.chains did = some chain ∧
    Tid.tryFrom chain.rev = .ok current ∧ rev.value ≤ current.value

section

variable {config : VerifierConfig} {owns : Did → VerifyingKey → Prop} {start s : State} {t : ℕ}

variable {entries : List Entry}

theorem findSome?_quiet (h : ∀ e ∈ entries, e.Quiet) (did : Did) :
  entries.findSome? (Entry.savedState did) = none
  := by
  rw [List.findSome?_eq_none_iff]
  intro e he
  have hquiet := h e he
  cases e with
  | saved d prior state => exact absurd hquiet id
  | _ => rfl

theorem storedAfter_quiet (h : ∀ e ∈ entries, e.Quiet) (log : List Entry) (did : Did) :
  storedAfter start (entries ++ log) did = storedAfter start log did
  := by
  rw [storedAfter, List.findSome?_append, findSome?_quiet h, Option.none_or, ← storedAfter]

theorem delivered_quiet (h : ∀ e ∈ entries, e.Quiet) (log : List Entry) :
  delivered (entries ++ log) = delivered log
  := by
  have hnil : delivered entries = [] := by
    rw [delivered, List.filterMap_eq_nil_iff]
    intro e he
    have hquiet := h e he
    cases e with
    | verified t raw ops => exact absurd hquiet id
    | _ => rfl
  rw [delivered, List.filterMap_append, ← delivered, hnil]
  rfl

/-- The stored revision of a repository only grows. -/
theorem Below.store {did : Did} {state : ChainState} (h : Below s)
    (hadvances : Advances (s.chains did) state) :
  Below (s.store did state)
  := by
  intro d rev hmem
  obtain ⟨chain, current, hchain, hcurrent, hle⟩ := h d rev hmem
  by_cases hd : d = did
  · rw [hd] at hchain
    obtain ⟨current', next, hcurrent', hnext, hadvance⟩ := hadvances chain hchain
    rw [hcurrent] at hcurrent'
    cases hcurrent'
    refine ⟨state, next, ?_, hnext, ?_⟩
    · rw [hd]
      exact Function.update_self ..
    · rcases hadvance with hlt | ⟨rfl, -⟩
      · exact UInt64.le_of_lt (UInt64.lt_of_le_of_lt hle hlt)
      · exact hle
  · exact ⟨chain, current, (Function.update_of_ne hd ..).trans hchain, hcurrent, hle⟩

section

variable [Hashing]

/-- What holds when something happens: a state is saved that advances the stored one and is that of
a signed commit, and a commit is let through right after its state is saved. -/
def Entry.Justified (config : VerifierConfig) (owns : Did → VerifyingKey → Prop) (start : State)
    (before : List Entry) : Entry → Prop
  | .saved did prior state =>
      prior = storedAfter start before did ∧ Advances prior state ∧ Authentic owns did state
  | .verified _ raw _ => ∃ prior decoded earlier, decodeCommitCar config.texts raw = .ok decoded ∧
      before = .saved raw.repo prior ⟨raw.rev.format, decoded.inner.data⟩ :: earlier
  | _ => True

/-- The stored states are those that were saved last, everything that happened is justified, what
calls returned happened, and no commit was let through twice. -/
structure ChainSafe (config : VerifierConfig) (owns : Did → VerifyingKey → Prop) (start s : State) :
    Prop where
  stored : ∀ did, s.chains did = storedAfter start s.log did
  justified : ∀ e before, e :: before <:+ s.log → e.Justified config owns start before
  returned : ∀ t raw ops, s.tasks t = some (.verifyCommit raw (.returned (.ok (some ops)))) →
    .verified t raw ops ∈ s.log
  once : (delivered s.log).Nodup

/-- Quiet entries are justified by whatever happened before. -/
theorem justified_quiet {entries log : List Entry} (h : ∀ e ∈ entries, e.Quiet)
    (hlog : ∀ e before, e :: before <:+ log → e.Justified config owns start before) :
  ∀ e before, e :: before <:+ entries ++ log → e.Justified config owns start before
  := by
  induction entries with
  | nil => exact hlog
  | cons e entries ih =>
      intro e' before hsuffix
      rcases List.suffix_cons_iff.mp hsuffix with heq | hsuffix
      · cases heq
        have hquiet := h e List.mem_cons_self
        cases e with
        | saved did prior state => exact absurd hquiet id
        | verified t raw ops => exact absurd hquiet id
        | _ => trivial
      · exact ih (fun e he => h e (List.mem_cons_of_mem _ he)) e' before hsuffix

namespace ChainSafe

/-- Nothing is saved. -/
theorem quiet (h : ChainSafe config owns start s ∧ Below s) (s' : State) (entries : List Entry)
    (hchains : s'.chains = s.chains) (hlog : s'.log = entries ++ s.log)
    (hquiet : ∀ e ∈ entries, e.Quiet)
    (htasks : ∀ u task, s'.tasks u = some task → task.letThrough = none ∨ s.tasks u = some task) :
  ChainSafe config owns start s' ∧ Below s'
  := by
  constructor
  · constructor
    · intro did
      rw [hchains, hlog, storedAfter_quiet hquiet, h.1.stored]
    · rw [hlog]
      exact justified_quiet hquiet h.1.justified
    · intro u raw ops htask
      rw [hlog]
      rcases htasks u _ htask with hnone | hold
      · cases hnone
      · exact List.mem_append_right _ (h.1.returned u raw ops hold)
    · rw [hlog, delivered_quiet hquiet]
      exact h.1.once
  · intro did rev hmem
    rw [hlog, delivered_quiet hquiet] at hmem
    rw [hchains]
    exact h.2 did rev hmem

/-- A state is saved. -/
theorem store (h : ChainSafe config owns start s) {did : Did} {state : ChainState}
    (hadvances : Advances (s.chains did) state) (hauthentic : Authentic owns did state) :
  ChainSafe config owns start (s.store did state)
  := by
  constructor
  · intro d
    by_cases hd : d = did
    · rw [hd, storedAfter, State.store]
      dsimp only
      rw [Function.update_self, List.findSome?_cons, Entry.savedState, if_pos rfl]
      rfl
    · rw [storedAfter, State.store]
      dsimp only
      rw [Function.update_of_ne hd, List.findSome?_cons, Entry.savedState, if_neg (Ne.symm hd)]
      exact h.stored d
  · intro e before hsuffix
    rcases List.suffix_cons_iff.mp hsuffix with heq | hsuffix
    · cases heq
      exact ⟨h.stored did, hadvances, hauthentic⟩
    · exact h.justified e before hsuffix
  · intro u raw ops htask
    exact List.mem_cons_of_mem _ (h.returned u raw ops htask)
  · exact h.once

/-- A commit is let through right after its state is saved. -/
theorem verified (h : ChainSafe config owns start s ∧ Below s) (s' : State) {raw : RawCommit}
    {decoded : DecodedCommitCar} {ops : List VerifierOp}
    (hadvances : Newer (s.chains raw.repo) raw.rev)
    (hauthentic : Authentic owns raw.repo ⟨raw.rev.format, decoded.inner.data⟩)
    (hdecode : decodeCommitCar config.texts raw = .ok decoded)
    (hchains : s'.chains = (s.store raw.repo ⟨raw.rev.format, decoded.inner.data⟩).chains)
    (hlog : s'.log =
      .verified t raw ops :: (s.store raw.repo ⟨raw.rev.format, decoded.inner.data⟩).log)
    (htasks : ∀ u raw' ops', s'.tasks u = some (.verifyCommit raw' (.returned (.ok (some ops')))) →
      (u = t ∧ raw' = raw ∧ ops' = ops) ∨
        s.tasks u = some (.verifyCommit raw' (.returned (.ok (some ops'))))) :
  ChainSafe config owns start s' ∧ Below s'
  := by
  have hstored := h.1.store (hadvances.advances decoded.inner.data) hauthentic
  have hbelow := h.2.store (hadvances.advances decoded.inner.data)
  have hself : (s.store raw.repo ⟨raw.rev.format, decoded.inner.data⟩).chains raw.repo =
      some ⟨raw.rev.format, decoded.inner.data⟩ := Function.update_self ..
  constructor
  · constructor
    · intro did
      rw [hchains, hstored.stored, hlog]
      rfl
    · intro e before hsuffix
      rw [hlog] at hsuffix
      rcases List.suffix_cons_iff.mp hsuffix with heq | hsuffix
      · cases heq
        exact ⟨_, decoded, _, hdecode, rfl⟩
      · exact hstored.justified e before hsuffix
    · intro u raw' ops' htask
      rw [hlog]
      rcases htasks u raw' ops' htask with ⟨rfl, rfl, rfl⟩ | hold
      · exact List.mem_cons_self
      · exact List.mem_cons_of_mem _ (List.mem_cons_of_mem _ (h.1.returned u raw' ops' hold))
    · rw [hlog]
      apply List.nodup_cons.mpr
      refine ⟨?_, h.1.once⟩
      intro hmem
      obtain ⟨chain, current, hchain, hcurrent, hle⟩ := h.2 raw.repo raw.rev hmem
      obtain ⟨current', hcurrent', hlt⟩ := hadvances chain hchain
      rw [hcurrent] at hcurrent'
      cases hcurrent'
      exact UInt64.not_le.mpr hlt hle
  · intro did rev hmem
    rw [hlog] at hmem
    rw [hchains]
    rcases List.mem_cons.mp hmem with heq | hmem
    · cases heq
      exact ⟨_, raw.rev, hself, raw.rev.tryFrom_format, UInt64.le_refl _⟩
    · exact hbelow did rev hmem

/-- Every step of a task keeps the histories. -/
theorem effect (h : ChainSafe config owns start s ∧ Below s) {task : Task} {s' : State}
    (heffect : Effect config owns s t task s') :
  ChainSafe config owns start s' ∧ Below s'
  := by
  cases heffect with
  | stay => exact h
  | @move s₁ next entries around locks did holds prepared through hquiet =>
      obtain ⟨earlier, hlog, hearlier⟩ := around.log
      apply quiet h ((s₁.put config t next).record entries) (entries ++ earlier) around.chains
      · rw [List.append_assoc, ← hlog]
        rfl
      · intro e he
        rcases List.mem_append.mp he with he | he
        · exact hquiet e he
        · exact hearlier e he
      · intro u task' htask'
        by_cases hu : u = t
        · rw [hu, State.record_tasks, State.put_tasks_self] at htask'
          cases htask'
          exact .inl through
        · rw [State.record_tasks, s₁.put_tasks_of_ne config hu] at htask'
          rcases around.tasks u task' htask' with hold | ⟨-, did, rfl⟩
          · exact .inr hold
          · exact .inl rfl
  | @lock next waiting did prepared through =>
      apply quiet h ((s.lock config task.did t).put config t next) [] rfl rfl
      · exact fun e he => absurd he List.not_mem_nil
      · intro u task' htask'
        by_cases hu : u = t
        · rw [hu, State.put_tasks_self] at htask'
          cases htask'
          exact .inl through
        · rw [State.put_tasks_of_ne config _ hu] at htask'
          exact .inr htask'
  | @save next state entries holds did released advances authentic prepared through =>
      rcases through with ⟨through, rfl⟩ | ⟨raw, ops, rfl, hraw, hrev, hnewer, ⟨decoded, hdecode, hdata⟩, hthrough⟩
      · apply quiet ⟨h.1.store advances authentic, h.2.store advances⟩
          (((s.store task.did state).put config t next).record []) [] rfl rfl
        · exact fun e he => absurd he List.not_mem_nil
        · intro u task' htask'
          by_cases hu : u = t
          · rw [hu, show (((s.store task.did state).put config t next).record []).tasks t =
              some next from State.put_tasks_self config _ t next] at htask'
            cases htask'
            exact .inl through
          · exact .inr ((State.put_tasks_of_ne config _ hu next).symm.trans htask')
      · obtain ⟨rev, data⟩ := state
        dsimp only at hrev hdata
        rw [hrev, hdata, ← hraw] at authentic ⊢
        rw [← hraw] at hnewer
        apply verified h (((s.store raw.repo ⟨raw.rev.format, decoded.inner.data⟩).put config t
          next).record [.verified t raw ops]) hnewer authentic hdecode rfl rfl
        intro u raw' ops' htask'
        by_cases hu : u = t
        · left
          rw [hu, show (((s.store raw.repo ⟨raw.rev.format, decoded.inner.data⟩).put config t
            next).record [.verified t raw ops]).tasks t = some next from
              State.put_tasks_self config _ t next] at htask'
          cases htask'
          exact ⟨hu, hthrough raw' ops' rfl⟩
        · exact .inr ((State.put_tasks_of_ne config _ hu next).symm.trans htask')

theorem initial (h : start.Initial) :
  ChainSafe config owns start start ∧ Below start
  := by
  constructor
  · constructor
    · intro did
      rw [h.log]
      rfl
    · intro e before hsuffix
      rw [h.log] at hsuffix
      cases List.suffix_nil.mp hsuffix
    · intro t raw ops htask
      rw [h.tasks t] at htask
      cases htask
    · rw [h.log]
      exact List.nodup_nil
  · intro did rev hmem
    rw [h.log] at hmem
    cases hmem

/-- Every step of the verifier keeps the histories. -/
theorem step (hlocked : Locked config owns s) (h : ChainSafe config owns start s ∧ Below s)
    {s' : State} (hstep : Step config (fun task input => input.answer.Correct owns task.did) s s') :
  ChainSafe config owns start s' ∧ Below s'
  := by
  have hnil : ∀ e ∈ ([] : List Entry), e.Quiet := fun e he => absurd he List.not_mem_nil
  cases hstep with
  | @call t call new =>
      apply quiet h (s.put config t call.start) [] rfl rfl hnil
      intro u task htask
      by_cases hu : u = t
      · rw [hu, State.put_tasks_self] at htask
        cases htask
        left
        cases call <;> rfl
      · rw [State.put_tasks_of_ne config s hu] at htask
        exact .inr htask
  | @task t task input running ready spawned ok =>
      exact effect h
        (stepTask_effect running (hlocked.prepared t task running) hlocked.queued ok spawned)
  | drop given =>
      apply quiet h (s.drop given) [] rfl rfl hnil
      intro u task htask
      rw [State.drop] at htask
      dsimp only at htask
      split_ifs at htask
      exact .inr htask
  | close => exact quiet h s.close [] rfl rfl hnil fun u task htask => .inr htask

end ChainSafe

/-- Whatever is interleaved, the stored states only move forward to states that their owners
signed, and a commit is let through once, right after its state is saved. -/
theorem steps_chainSafe (config : VerifierConfig) (owns : Did → VerifyingKey → Prop)
    {start s : State} (hstart : start.Initial)
    (hsteps : Steps config (fun task input => input.answer.Correct owns task.did) start s) :
  ChainSafe config owns start s
  := by
  have hrun : Locked config owns s ∧ ChainSafe config owns start s ∧ Below s := by
    induction hsteps with
    | refl => exact ⟨Locked.initial hstart, ChainSafe.initial hstart⟩
    | tail _ hstep ih => exact ⟨ih.1.step hstep, ChainSafe.step ih.1 ih.2 hstep⟩
  exact hrun.2.1

end

end

namespace Sample

attribute [local instance] Hashing.checksum

/-- In a run that verifies a commit, the stored states move forward. -/
theorem run_chainSafe :
  ∃ s, s.tasks 0 = some (.verifyCommit raw (.returned (verifyCommit config start raw input))) ∧
    ChainSafe config (fun _ k => k = key) start s
  := by
  have hcall : Step config (fun task input => input.answer.Correct (fun _ k => k = key) task.did)
      start (start.put config 0 (.verifyCommit raw .starting)) := .call (.verifyCommit raw) rfl
  have halone : Alone config
      (fun task input => input.answer.Correct (fun _ k => k = key) task.did)
      (start.put config 0 (.verifyCommit raw .starting)) 0 raw .starting input := by
    have hcorrect : input.answer.Correct (fun _ k => k = key) raw.repo := by
      rintro k (hk | hk)
      · cases hk
        rfl
      · cases hk
    refine ⟨rfl, fun _ => rfl, rfl, ?_, fun _ => hcorrect⟩
    exact ⟨{ input with spawned := 2 }, by decide, rfl, fun _ => hcorrect⟩
  obtain ⟨s, hsteps, hs⟩ := halone.starting
  exact ⟨s, hs, steps_chainSafe config _ start_initial (.head hcall hsteps)⟩

end Sample

end Shrike.Sync
