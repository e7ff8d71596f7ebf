import Shrike.OAuth.Refresh

/-!
# Refresh tokens are used once

Every refresh token is in one place: in the store under one user, or with the task that was given
it. A refresh takes it from the store and, when the refresh is granted, puts another one there
before any other refresh can look.
-/

namespace Shrike.OAuth

open Bytes

variable {ν Key : Type}

/-- A place where a refresh token can be. -/
inductive Slot where
  | store (did : Bytes)
  | task (t : ℕ)

/-- The refresh token in a place. -/
def State.held (s : State Key) : Slot → Option Bytes
  | .store did => (s.sessions did).bind fun session => session.tokenSet.refreshToken
  | .task t => (s.tasks t).bind Task.holds

/-- A refresh token that was in the store at the start, or was handed out since. -/
def Issued (start s : State Key) (r : Bytes) : Prop :=
  (∃ did, start.held (.store did) = some r) ∨ .issued r ∈ s.log

/-- The refresh token of a refresh that a server granted. -/
def Event.grantedToken : Event → Option Bytes
  | .granted r => some r
  | _ => none

/-- The refresh tokens of the refreshes that were granted. -/
def granted (log : List Event) : List Bytes := log.filterMap Event.grantedToken

/-- The servers hand out every refresh token once, and answer a refresh with tokens of the same
user. -/
structure HandedOutOnce (config : OAuthConfig ν Key) (start s : State Key) (task : Task Key)
    (input : Input ν) : Prop where
  fresh : ∀ tokens, task.received config input.answer = .ok tokens →
    ∀ r, tokens.refreshToken = some r → ¬Issued start s r
  sameSub : ∀ did session key verifiedPds tokens,
    task = .getSession did (.refreshing session key verifiedPds) →
      task.received config input.answer = .ok tokens → tokens.sub = session.tokenSet.sub

/-- No two users have one refresh token. -/
def Distinct (start : State Key) : Prop :=
  ∀ did did' r, start.held (.store did) = some r → start.held (.store did') = some r → did = did'

theorem mem_granted {log : List Event} {r : Bytes} :
  r ∈ granted log ↔ .granted r ∈ log
  := by
  rw [granted, List.mem_filterMap]
  constructor
  · rintro ⟨e, he, hr⟩
    cases e with
    | granted r' =>
        cases hr
        exact he
    | _ => cases hr
  · intro h
    exact ⟨_, h, rfl⟩

/-- Every refresh token is in one place, and one that was spent is about to be replaced. -/
structure Single (start s : State Key) : Prop where
  distinct : ∀ x y r, s.held x = some r → s.held y = some r → x = y
  known : ∀ x r, s.held x = some r → Issued start s r
  grantedKnown : ∀ r, .granted r ∈ s.log → Issued start s r
  readKnown : ∀ t task did session r, s.tasks t = some task → task.reads = some (did, session) →
    session.tokenSet.refreshToken = some r → Issued start s r
  readHeld : ∀ t task did session r x, s.tasks t = some task → task.reads = some (did, session) →
    session.tokenSet.refreshToken = some r → s.held x = some r → x = .store did
  readUnspent : ∀ t task did session r, s.tasks t = some task → task.reads = some (did, session) →
    session.tokenSet.refreshToken = some r → task.isStoring = false → .granted r ∉ s.log
  spent : ∀ x r, s.held x = some r → .granted r ∈ s.log → ∃ t task did session,
    x = .store did ∧ s.tasks t = some task ∧ task.reads = some (did, session) ∧
      task.isStoring = true
  nodup : (granted s.log).Nodup

namespace Single

theorem initial {start : State Key} (hstart : start.Initial) (hdistinct : Distinct start) :
  Single start start
  := by
  have htask : ∀ t r, start.held (.task t) ≠ some r := by
    intro t r h
    rw [State.held, hstart.tasks] at h
    cases h
  have hgranted : ∀ r, .granted r ∉ start.log := by
    intro r h
    rw [hstart.log] at h
    cases h
  have hnone : ∀ t task, start.tasks t ≠ some task := by
    intro t task h
    rw [hstart.tasks] at h
    cases h
  constructor
  · intro x y r hx hy
    cases x with
    | task t => exact absurd hx (htask t r)
    | store did =>
        cases y with
        | task t => exact absurd hy (htask t r)
        | store did' => rw [hdistinct did did' r hx hy]
  · intro x r hx
    cases x with
    | task t => exact absurd hx (htask t r)
    | store did => exact .inl ⟨did, hx⟩
  · intro r h
    exact absurd h (hgranted r)
  · intro t task did session r h
    exact absurd h (hnone t task)
  · intro t task did session r x h
    exact absurd h (hnone t task)
  · intro t task did session r h
    exact absurd h (hnone t task)
  · intro x r _ h
    exact absurd h (hgranted r)
  · rw [hstart.log]
    exact List.nodup_nil

variable {start s s' : State Key}

variable {log events : List Event} {t : ℕ}

variable {r did : Bytes} {session newSession : Session} {tokens newTokens : TokenSet}

theorem issued_append (hlog : s'.log = events ++ s.log) (h : Issued start s r) :
  Issued start s' r
  := by
  apply h.imp_right
  intro hmem
  rw [hlog]
  exact List.mem_append_right _ hmem

theorem granted_append (h : ∀ r, .granted r ∉ events) :
  granted (events ++ log) = granted log
  := by
  have hnil : events.filterMap Event.grantedToken = [] := by
    rw [List.filterMap_eq_nil_iff]
    intro e he
    cases e with
    | granted r => exact absurd he (h r)
    | _ => rfl
  rw [granted, List.filterMap_append, hnil]
  rfl

/-- A task that reads a session after a step did so before, or there is no task that stores one. -/
def ReadBefore (s s' : State Key) : Prop :=
  ∀ u task' read, s'.tasks u = some task' → task'.reads = some read →
    (∃ task, s.tasks u = some task ∧ task.reads = some read ∧
      (task'.isStoring = false → task.isStoring = false)) ∨
    (s.sessions read.1 = some read.2 ∧
      ∀ u task, s.tasks u = some task → task.isStoring = false)

/-- A step that hands out no tokens: every refresh token stays where it was, or `t` puts it into the
store, where it replaces the one that was spent. -/
theorem move (h : Single start s) (t : ℕ) (d : Bytes) (events : List Event)
    (hheld : ∀ x r, s'.held x = some r → s.held x = some r ∨
      (s.held (.task t) = some r ∧ s'.held (.task t) = none ∧ x = .store d))
    (hreads : ReadBefore s s')
    (hstoring : ∀ u task did session, s.tasks u = some task → task.reads = some (did, session) →
      task.isStoring = true →
      (∃ task', s'.tasks u = some task' ∧ task'.reads = some (did, session) ∧
        task'.isStoring = true) ∨
      ∀ r, s'.held (.store did) = some r → s.held (.task t) = some r)
    (hlog : s'.log = events ++ s.log) (hevents : ∀ r, .granted r ∉ events) :
  Single start s'
  := by
  have hgranted : ∀ r, .granted r ∈ s'.log → .granted r ∈ s.log := by
    intro r hmem
    rw [hlog] at hmem
    exact (List.mem_append.mp hmem).resolve_left (hevents r)
  have hne : ∀ {r x}, s'.held x = some r → s.held (.task t) = some r →
      s'.held (.task t) = none → x = .store d := by
    intro r x hx ht hnone
    rcases hheld x r hx with hold | ⟨-, -, hstore⟩
    · rw [h.distinct x (.task t) r hold ht, hnone] at hx
      cases hx
    · exact hstore
  have hread : ∀ u task' did session r, s'.tasks u = some task' →
      task'.reads = some (did, session) → session.tokenSet.refreshToken = some r →
      Issued start s r ∧ (∀ x, s.held x = some r → x = .store did) ∧
        (task'.isStoring = false → .granted r ∉ s.log) := by
    intro u task' did session r htask' hread hr
    rcases hreads u task' _ htask' hread with ⟨task, htask, hread, hphase⟩ | ⟨hstored, hidle⟩
    · refine ⟨h.readKnown u task did session r htask hread hr, ?_, ?_⟩
      · intro x
        exact h.readHeld u task did session r x htask hread hr
      · intro hidle
        exact h.readUnspent u task did session r htask hread hr (hphase hidle)
    · have hstore : s.held (.store did) = some r := by
        rw [State.held, hstored]
        exact hr
      refine ⟨h.known _ r hstore, ?_, ?_⟩
      · intro x hx
        exact h.distinct x _ r hx hstore
      · intro _ hmem
        obtain ⟨u', task, -, -, -, htask, -, hstoring'⟩ := h.spent _ r hstore hmem
        rw [hidle u' task htask] at hstoring'
        cases hstoring'
  constructor
  · intro x y r hx hy
    rcases hheld x r hx with hx' | ⟨ht, hnone, rfl⟩
    · rcases hheld y r hy with hy' | ⟨ht, hnone, rfl⟩
      · exact h.distinct x y r hx' hy'
      · exact hne hx ht hnone
    · exact (hne hy ht hnone).symm
  · intro x r hx
    apply issued_append hlog
    rcases hheld x r hx with hx' | ⟨ht, -, -⟩
    · exact h.known x r hx'
    · exact h.known _ r ht
  · intro r hmem
    exact issued_append hlog (h.grantedKnown r (hgranted r hmem))
  · intro u task' did session r htask' hread' hr
    exact issued_append hlog (hread u task' did session r htask' hread' hr).1
  · intro u task' did session r x htask' hread' hr hx
    have hold := (hread u task' did session r htask' hread' hr).2.1
    rcases hheld x r hx with hx' | ⟨ht, -, -⟩
    · exact hold x hx'
    · cases hold _ ht
  · intro u task' did session r htask' hread' hr hidle hmem
    exact (hread u task' did session r htask' hread' hr).2.2 hidle (hgranted r hmem)
  · intro x r hx hmem
    rcases hheld x r hx with hx' | ⟨ht, -, -⟩
    · obtain ⟨u, task, did, session, rfl, htask, hread', hphase⟩ := h.spent x r hx' (hgranted r hmem)
      rcases hstoring u task did session htask hread' hphase with ⟨task', htask', hread'', hphase'⟩ |
        hreplaced
      · exact ⟨u, task', did, session, rfl, htask', hread'', hphase'⟩
      · cases h.distinct _ _ r hx' (hreplaced r hx)
    · obtain ⟨u, task, did, session, heq, -⟩ := h.spent _ r ht (hgranted r hmem)
      cases heq
  · rw [hlog, granted_append hevents]
    exact h.nodup

variable {next task : Task Key}

/-- A step in which `t` is given tokens, of which the refresh token is new. -/
theorem receive (h : Single start s) (htask : s.tasks t = some task)
    (hheld : ∀ x r, s'.held x = some r → s.held x = some r ∨
      (x = .task t ∧ ¬Issued start s r ∧ .issued r ∈ s'.log))
    (hreads : ∀ u task' read, s'.tasks u = some task' → task'.reads = some read →
      ∃ task, s.tasks u = some task ∧ task.reads = some read ∧
        (task'.isStoring = false → task.isStoring = false))
    (hstoring : ∀ u task, s.tasks u = some task → task.isStoring = true → s'.tasks u = some task)
    (hlog : s'.log = events ++ s.log)
    (hevents : ∀ r, .granted r ∈ events → ∃ did session task',
      task.reads = some (did, session) ∧ session.tokenSet.refreshToken = some r ∧
        task.isStoring = false ∧ s'.tasks t = some task' ∧ task'.reads = some (did, session) ∧
          task'.isStoring = true ∧
            ∀ u task'' read, s'.tasks u = some task'' → task''.reads = some read → u = t)
    (hnodup : (granted events).Nodup) :
  Single start s'
  := by
  have hspent : ∀ r, .granted r ∈ s'.log → .granted r ∈ s.log ∨ .granted r ∈ events := by
    intro r hmem
    rw [hlog] at hmem
    exact (List.mem_append.mp hmem).symm
  have hknown : ∀ r, .granted r ∈ events → Issued start s r := by
    intro r hmem
    obtain ⟨did, session, -, hread, hr, -⟩ := hevents r hmem
    exact h.readKnown t task did session r htask hread hr
  constructor
  · intro x y r hx hy
    rcases hheld x r hx with hx' | ⟨rfl, hnew, -⟩
    · rcases hheld y r hy with hy' | ⟨-, hnew, -⟩
      · exact h.distinct x y r hx' hy'
      · exact absurd (h.known x r hx') hnew
    · rcases hheld y r hy with hy' | ⟨rfl, -, -⟩
      · exact absurd (h.known y r hy') hnew
      · rfl
  · intro x r hx
    rcases hheld x r hx with hx' | ⟨-, -, hmem⟩
    · exact issued_append hlog (h.known x r hx')
    · exact .inr hmem
  · intro r hmem
    apply issued_append hlog
    rcases hspent r hmem with hmem | hmem
    · exact h.grantedKnown r hmem
    · exact hknown r hmem
  · intro u task' did session r htask' hread' hr
    obtain ⟨task₀, htask₀, hread₀, -⟩ := hreads u task' _ htask' hread'
    exact issued_append hlog (h.readKnown u task₀ did session r htask₀ hread₀ hr)
  · intro u task' did session r x htask' hread' hr hx
    obtain ⟨task₀, htask₀, hread₀, -⟩ := hreads u task' _ htask' hread'
    rcases hheld x r hx with hx' | ⟨-, hnew, -⟩
    · exact h.readHeld u task₀ did session r x htask₀ hread₀ hr hx'
    · exact absurd (h.readKnown u task₀ did session r htask₀ hread₀ hr) hnew
  · intro u task' did session r htask' hread' hr hidle hmem
    obtain ⟨task₀, htask₀, hread₀, hphase⟩ := hreads u task' _ htask' hread'
    rcases hspent r hmem with hmem | hmem
    · exact h.readUnspent u task₀ did session r htask₀ hread₀ hr (hphase hidle) hmem
    · obtain ⟨-, -, task'', -, -, -, htask'', -, hphase'', hunique⟩ := hevents r hmem
      rw [hunique u task' _ htask' hread', htask''] at htask'
      cases htask'
      rw [hphase''] at hidle
      cases hidle
  · intro x r hx hmem
    rcases hheld x r hx with hx' | ⟨-, hnew, -⟩
    · rcases hspent r hmem with hmem | hmem
      · obtain ⟨u, task₀, did, session, rfl, htask₀, hread₀, hphase⟩ := h.spent x r hx' hmem
        exact ⟨u, task₀, did, session, rfl, hstoring u task₀ htask₀ hphase, hread₀, hphase⟩
      · obtain ⟨did, session, task', hread, hr, -, htask', hread', hphase, -⟩ := hevents r hmem
        exact ⟨t, task', did, session, h.readHeld t task did session r x htask hread hr hx', htask',
          hread', hphase⟩
    · exfalso
      apply hnew
      rcases hspent r hmem with hmem | hmem
      · exact h.grantedKnown r hmem
      · exact hknown r hmem
  · rw [hlog, granted, List.filterMap_append, ← granted, ← granted, List.nodup_append']
    refine ⟨hnodup, h.nodup, ?_⟩
    intro r hr hr'
    rw [mem_granted] at hr hr'
    obtain ⟨did, session, -, hread, hrefresh, hidle, -⟩ := hevents r hr
    exact h.readUnspent t task did session r htask hread hrefresh hidle hr'

/-- The refresh tokens after a task goes on. -/
theorem held_put {s₁ : State Key} {x : Slot} (h : ((s₁.put t next).record events).held x = some r) :
  (x = .task t ∧ next.holds = some r) ∨ (x ≠ .task t ∧ s₁.held x = some r)
  := by
  cases x with
  | store did => exact .inr ⟨by simp, h⟩
  | task u =>
      obtain ⟨task', htask', hr⟩ := Option.bind_eq_some_iff.mp h
      rcases put_cases s₁ htask' with ⟨rfl, rfl⟩ | ⟨hu, hold⟩
      · exact .inl ⟨rfl, hr⟩
      · refine .inr ⟨fun heq => hu (Slot.task.inj heq), ?_⟩
        exact Option.bind_eq_some_iff.mpr ⟨task', hold, hr⟩

/-- A task whose session was read goes on, or another task did not change. -/
theorem readBefore_put (s₁ : State Key) (htasks : s₁.tasks = s.tasks)
    (htask : s.tasks t = some task) (hreads : next.reads = none ∨
      (next.reads = task.reads ∧ (next.isStoring = false → task.isStoring = false))) :
  ∀ u task' read, ((s₁.put t next).record events).tasks u = some task' → task'.reads = some read →
    ∃ task, s.tasks u = some task ∧ task.reads = some read ∧
      (task'.isStoring = false → task.isStoring = false)
  := by
  intro u task' read htask' hread
  rcases put_cases s₁ htask' with ⟨rfl, rfl⟩ | ⟨-, hold⟩
  · rcases hreads with hnone | ⟨hsame, hphase⟩
    · rw [hnone] at hread
      cases hread
    · exact ⟨task, htask, hsame ▸ hread, hphase⟩
  · exact ⟨task', (congrFun htasks u).symm.trans hold, hread, id⟩

theorem ReadBefore.of_put (s₁ : State Key) (htasks : s₁.tasks = s.tasks)
    (htask : s.tasks t = some task) (hreads : next.reads = none ∨
      (next.reads = task.reads ∧ (next.isStoring = false → task.isStoring = false))) :
  ReadBefore s ((s₁.put t next).record events)
  := by
  intro u task' read htask' hread
  exact .inl (readBefore_put s₁ htasks htask hreads u task' read htask' hread)

/-- The tasks that store a session stay while another one goes on. -/
theorem storing_put (s₁ : State Key) (htasks : s₁.tasks = s.tasks)
    (htask : s.tasks t = some task) (hidle : task.isStoring = false) (u : ℕ) (task' : Task Key)
    (htask' : s.tasks u = some task') (hphase : task'.isStoring = true) :
  ((s₁.put t next).record events).tasks u = some task'
  := by
  have hu : u ≠ t := by
    rintro rfl
    rw [htask] at htask'
    cases htask'
    rw [hidle] at hphase
    cases hphase
  rw [← htasks] at htask'
  exact (put_tasks_of_ne s₁ hu next).trans htask'

/-- A task that stores nothing goes on, and is given no tokens. -/
theorem quiet (h : Single start s) (s₁ : State Key) (events : List Event) (htasks : s₁.tasks = s.tasks)
    (hlog : s₁.log = s.log)
    (hstore : ∀ did r, s₁.held (.store did) = some r → s.held (.store did) = some r)
    (htask : s.tasks t = some task) (hidle : task.isStoring = false)
    (hholds : next.holds = none ∨ next.holds = task.holds) (hevents : ∀ r, .granted r ∉ events)
    (hreads : ReadBefore s ((s₁.put t next).record events)) :
  Single start ((s₁.put t next).record events)
  := by
  apply h.move t [] events _ hreads _ (congrArg (events ++ ·) hlog) hevents
  · intro x r hx
    left
    rcases held_put hx with ⟨rfl, hnext⟩ | ⟨hx, hold⟩
    · rw [State.held, htask]
      rcases hholds with hnone | hsame
      · rw [hnone] at hnext
        cases hnext
      · rw [hsame] at hnext
        exact hnext
    · cases x with
      | store did => exact hstore did r hold
      | task u =>
          rw [State.held, htasks] at hold
          exact hold
  · intro u task' did session htask' hread hphase
    exact .inl ⟨task', storing_put s₁ htasks htask hidle u task' htask' hphase, hread, hphase⟩

/-- A task puts the tokens that it was given into the store. -/
theorem deposit (h : Single start s) (htask : s.tasks t = some task)
    (hholds : task.holds = session.tokenSet.refreshToken)
    (hnext : next.holds = none ∧ next.reads = none)
    (hread : ∀ read, task.reads = some read → read.1 = did) {e : Event} (he : ∀ r, e ≠ .granted r) :
  Single start (((s.setSession did (some session)).put t next).record [e])
  := by
  have htaskHeld : s.held (.task t) = session.tokenSet.refreshToken := by
    rw [State.held, htask]
    exact hholds
  have hdeposit : ∀ r, (s.setSession did (some session)).held (.store did) = some r →
      s.held (.task t) = some r := by
    intro r hr
    rw [State.held, show (s.setSession did (some session)).sessions did = some session from
      Function.update_self ..] at hr
    exact htaskHeld.trans hr
  have hempty : (((s.setSession did (some session)).put t next).record [e]).held (.task t) = none := by
    rw [State.held, record_tasks_self]
    exact hnext.1
  apply h.move t did [e]
  · intro x r hx
    rcases held_put hx with ⟨rfl, hnone⟩ | ⟨hx, hold⟩
    · rw [hnext.1] at hnone
      cases hnone
    · cases x with
      | store d =>
          by_cases hd : d = did
          · rw [hd] at hold ⊢
            exact .inr ⟨hdeposit r hold, hempty, rfl⟩
          · left
            rw [State.held, show (s.setSession did (some session)).sessions d = s.sessions d from
              Function.update_of_ne hd ..] at hold
            exact hold
      | task u => exact .inl hold
  · exact .of_put (s.setSession did (some session)) rfl htask (.inl hnext.2)
  · intro u task' d session' htask' hread' hphase
    by_cases hu : u = t
    · right
      rw [hu, htask] at htask'
      cases htask'
      have hd : d = did := hread (d, session') hread'
      rw [hd]
      exact hdeposit
    · left
      exact ⟨task', (put_tasks_of_ne _ hu next).trans htask', hread', hphase⟩
  · rfl
  · intro r hmem
    exact he r (List.mem_singleton.mp hmem).symm

theorem granted_issuedEvents (tokens : TokenSet) :
  granted (issuedEvents tokens) = []
  := by
  rw [granted, List.filterMap_eq_nil_iff]
  intro e he
  obtain ⟨r, rfl⟩ := Tracks.isReread_issuedEvents tokens e he
  rfl

theorem not_granted_issuedEvents (tokens : TokenSet) (r : Bytes) :
  .granted r ∉ issuedEvents tokens
  := by
  intro hmem
  obtain ⟨r', heq⟩ := Tracks.isReread_issuedEvents tokens _ hmem
  cases heq

theorem issued_mem (h : tokens.refreshToken = some r) :
  .issued r ∈ issuedEvents tokens
  := by
  rw [issuedEvents, h]
  exact List.mem_singleton_self _

/-- The refresh tokens after a task is given some. -/
theorem held_receive (hnext : next.holds = tokens.refreshToken)
    (hevents : ∀ r, tokens.refreshToken = some r → .issued r ∈ events)
    (hfresh : ∀ r, tokens.refreshToken = some r → ¬Issued start s r) (x : Slot) (r : Bytes)
    (hx : ((s.put t next).record events).held x = some r) :
  s.held x = some r ∨
    (x = .task t ∧ ¬Issued start s r ∧ .issued r ∈ ((s.put t next).record events).log)
  := by
  rcases held_put hx with ⟨rfl, hr⟩ | ⟨-, hold⟩
  · rw [hnext] at hr
    exact .inr ⟨rfl, hfresh r hr, List.mem_append_left _ (hevents r hr)⟩
  · exact .inl hold

theorem held_delete (s : State Key) (did d : Bytes) (r : Bytes)
    (h : (s.setSession did none).held (.store d) = some r) :
  s.held (.store d) = some r
  := by
  by_cases hd : d = did
  · rw [hd, State.held, show (s.setSession did none).sessions did = none from
      Function.update_self ..] at h
    cases h
  · rwa [State.held, show (s.setSession did none).sessions d = s.sessions d from
      Function.update_of_ne hd ..] at h

theorem reads_of_storing {task : Task Key} (h : task.isStoring = true) :
  ∃ read, task.reads = some read
  := by
  cases task with
  | getSession did phase =>
      cases phase with
      | storing old new => exact ⟨_, rfl⟩
      | _ => cases h
  | signOut did phase => cases h
  | callback params phase => cases h

/-- A task that has the lock reads a session, while no other task stores one. -/
theorem reread (h : Single start s) (htracks : Tracks s)
    {phase : GetSession Key} (htask : s.tasks t = some (.getSession did .rereading))
    (hstored : s.sessions did = some session)
    (hreads : (Task.getSession did phase).reads = some (did, session))
    (hholds : (Task.getSession did phase).holds = none) :
  Single start ((s.put t (.getSession did phase)).record [.reread t did session])
  := by
  apply h.quiet s _ rfl rfl (fun _ _ hr => hr) htask rfl (.inl hholds) (by simp)
  intro u task' read htask' hread
  rcases put_cases s htask' with ⟨-, rfl⟩ | ⟨-, hold⟩
  · right
    rw [hreads] at hread
    cases hread
    refine ⟨hstored, ?_⟩
    intro v task' htask'
    rw [← Bool.not_eq_true]
    intro hphase
    obtain ⟨read, hread⟩ := reads_of_storing hphase
    rw [htracks.reads_unique htask htask' rfl hread, htask] at htask'
    cases htask'
    cases hphase
  · exact .inl ⟨task', hold, hread, id⟩

/-- A refresh is granted: the token of the session that was read is spent, and the task has the new
one. -/
theorem grant (h : Single start s) (htracks : Tracks s) {key : Key} {verifiedPds : Option Bytes}
    (htask : s.tasks t = some (.getSession did (.refreshing session key verifiedPds)))
    (htoken : session.tokenSet.refreshToken = some r)
    (hnew : newSession.tokenSet.refreshToken = newTokens.refreshToken)
    (hfresh : ∀ r', newTokens.refreshToken = some r' → ¬Issued start s r') :
  Single start ((s.put t (.getSession did (.storing session newSession))).record
    (issuedEvents newTokens ++ [.granted r]))
  := by
  have hholds : (Task.getSession did (.storing session newSession) : Task Key).holds
      = newTokens.refreshToken := hnew
  refine h.receive htask ?_ ?_ (storing_put s rfl htask rfl) rfl ?_ ?_
  · apply held_receive hholds _ hfresh
    intro r' hr
    exact List.mem_append_left _ (issued_mem hr)
  · apply readBefore_put s rfl htask
    exact .inr ⟨rfl, fun _ => rfl⟩
  · intro r' hmem
    rcases List.mem_append.mp hmem with hmem | hmem
    · exact absurd hmem (not_granted_issuedEvents newTokens r')
    · cases List.mem_singleton.mp hmem
      refine ⟨did, session, _, rfl, htoken, rfl, record_tasks_self s t _ _, rfl, rfl, ?_⟩
      intro u task' read htask' hread
      rcases put_cases s htask' with ⟨hu, -⟩ | ⟨-, hold⟩
      · exact hu
      · exact htracks.reads_unique htask hold rfl hread
  · rw [granted, List.filterMap_append, ← granted, granted_issuedEvents]
    exact List.nodup_singleton r

/-- Every step keeps the refresh tokens in one place, if the servers hand them out once. -/
theorem effect {config : OAuthConfig ν Key} {input : Input ν}
    (h : Single start s) (htracks : Tracks s) (htask : s.tasks t = some task)
    (hallowed : HandedOutOnce config start s task input)
    (heffect : Effect config input s t task s') :
  Single start s'
  := by
  cases heffect with
  | stay => exact h
  | @look did =>
      have hlook := @Tracks.call_look Key did (s.sessions did) input.now
      exact h.quiet s [] rfl rfl (fun _ _ hr => hr) htask rfl (.inl hlook.2.2) (by simp)
        (.of_put s rfl htask (.inl hlook.2.1))
  | @lock did =>
      exact h.quiet { s with refreshLock := some t } [] rfl rfl
        (fun _ _ hr => hr) htask rfl (.inl rfl) (by simp) (.of_put _ rfl htask (.inl rfl))
  | reread hstored hreads hholds => exact h.reread htracks htask hstored hreads hholds
  | wait _ _ _ hreads hholds hphase =>
      exact h.quiet s [] rfl rfl (fun _ _ hr => hr) htask hphase.1 hholds (by simp)
        (.of_put s rfl htask (hreads.imp_right fun hsame => ⟨hsame, fun _ => hphase.1⟩))
  | @issue params state key tokens hreceived =>
      apply h.receive htask
        (held_receive rfl (fun r => issued_mem) (hallowed.fresh tokens hreceived))
        (readBefore_put s rfl htask (.inl rfl)) (storing_put s rfl htask rfl) rfl
      · intro r hmem
        exact absurd hmem (not_granted_issuedEvents tokens r)
      · rw [granted_issuedEvents]
        exact List.nodup_nil
  | @grant did session key verifiedPds newTokens r htoken hreceived =>
      have hsub := hallowed.sameSub did session key verifiedPds newTokens rfl hreceived
      rw [acceptRefreshed, if_neg (not_not_intro hsub)]
      exact h.grant htracks htask htoken rfl (hallowed.fresh newTokens hreceived)
  | @store did session newSession =>
      apply h.deposit htask rfl ⟨rfl, rfl⟩
      · intro read hread
        cases hread
        rfl
      · intro r heq
        cases heq
  | @signOut did =>
      exact h.quiet (s.setSession did none) _ rfl rfl (held_delete s did) htask rfl (.inl rfl)
        (by simp) (.of_put _ rfl htask (.inl rfl))
  | @clear params key tokens =>
      exact h.quiet (s.setSession tokens.sub none) _ rfl rfl (held_delete s tokens.sub) htask rfl
        (.inr rfl) (by simp) (.of_put _ rfl htask (.inl rfl))
  | @set params session =>
      apply h.deposit htask rfl ⟨rfl, rfl⟩
      · intro read hread
        cases hread
      · intro r heq
        cases heq

/-- A new call holds no refresh token. -/
theorem call (h : Single start s) (hnew : s.tasks t = none) (c : Call) :
  Single start ((s.put t c.start).record [.called t c])
  := by
  have hstart : (c.start : Task Key).holds = none ∧ (c.start : Task Key).reads = none := by
    cases c with
    | getSession did => exact ⟨rfl, rfl⟩
    | signOut did => exact ⟨rfl, rfl⟩
    | callback params => exact ⟨rfl, rfl⟩
  apply h.move t [] [.called t c]
  · intro x r hx
    left
    rcases held_put hx with ⟨rfl, hr⟩ | ⟨-, hold⟩
    · rw [hstart.1] at hr
      cases hr
    · exact hold
  · intro u task' read htask' hread
    left
    rcases put_cases s htask' with ⟨-, rfl⟩ | ⟨-, hold⟩
    · rw [hstart.2] at hread
      cases hread
    · exact ⟨task', hold, hread, id⟩
  · intro u task' did session htask' hread hphase
    left
    have hu : u ≠ t := by
      rintro rfl
      rw [hnew] at htask'
      cases htask'
    exact ⟨task', (put_tasks_of_ne s hu _).trans htask', hread, hphase⟩
  · rfl
  · intro r hmem
    cases List.mem_singleton.mp hmem

end Single

/-- In a run in which the servers hand out every refresh token once, no refresh token is part of two
refreshes that are granted. -/
theorem steps_single {config : OAuthConfig ν Key} {start s : State Key} (hstart : start.Initial)
    (hdistinct : Distinct start) (hsteps : Steps config (HandedOutOnce config start) start s) :
  Single start s
  := by
  induction hsteps with
  | refl => exact .initial hstart hdistinct
  | @tail b _ hsteps hstep ih =>
      have htracks := (Tracks.initial hstart).steps hsteps
      cases hstep with
      | call c hnew => exact ih.call hnew c
      | @task t task input hrunning _ hallowed =>
          exact ih.effect htracks hrunning hallowed (stepTask_effect config input b t task)

end Shrike.OAuth
