import Shrike.OAuth.Client

/-!
# What the steps of the client do

The effects that a step of a task can have, and what holds in every state of a run: who has the
lock of refreshes, which task a call belongs to, and that a session that is being refreshed is the
one that is stored, unless it was replaced or deleted since it was read.
-/

namespace Shrike.OAuth

open Bytes
open Except (bind_eq_ok)

variable {ν Key : Type}

namespace Task

/-- The session that a task refreshes, and whose it is. -/
def reads : Task Key → Option (Bytes × Session)
  | .getSession did (.verifying session _) => some (did, session)
  | .getSession did (.refreshing session _ _) => some (did, session)
  | .getSession did (.storing session _) => some (did, session)
  | _ => none

/-- The refresh token that a task was given and has not stored yet. -/
def holds : Task Key → Option Bytes
  | .getSession _ (.storing _ newSession) => newSession.tokenSet.refreshToken
  | .callback _ (.verifying _ _ tokens) => tokens.refreshToken
  | .callback _ (.reading _ tokens) => tokens.refreshToken
  | .callback _ (.deleting _ tokens) => tokens.refreshToken
  | .callback _ (.setting session) => session.tokenSet.refreshToken
  | _ => none

/-- Whether a task is about to store refreshed tokens. -/
def isStoring : Task Key → Bool
  | .getSession _ (.storing _ _) => true
  | _ => false

/-- A task that has not looked for the session yet, or found none. -/
def Settled (did : Bytes) (task : Task Key) : Prop :=
  task = .getSession did .looking ∨ task = .getSession did (.returned (.error (.noSession did)))

theorem holdsLock_of_reads {task : Task Key} {read : Bytes × Session} (h : task.reads = some read) :
  task.holdsLock = true
  := by
  unfold reads at h
  split at h
  · rfl
  · rfl
  · rfl
  · cases h

end Task

/-! ### Effects -/

/-- What a step of a task does. -/
inductive Effect (config : OAuthConfig ν Key) (input : Input ν) (s : State Key) (t : ℕ) :
    Task Key → State Key → Prop where
  | stay {task : Task Key} (reads : task.reads = none) : Effect config input s t task s
  | look {did} : Effect config input s t (.getSession did .looking)
      (s.put t (.getSession did (look did (s.sessions did) input.now)))
  | lock {did} : Effect config input s t (.getSession did .locking)
      ({ s with refreshLock := some t }.put t (.getSession did .rereading))
  | reread {did session next} (stored : s.sessions did = some session)
      (reads : (Task.getSession did next).reads = some (did, session))
      (holds : (Task.getSession did next).holds = none)
      (storing : (Task.getSession did next).isStoring = false) :
      Effect config input s t (.getSession did .rereading)
        ((s.put t (.getSession did next)).record [.reread t did session])
  | wait {task next : Task Key} (unsettled : ∀ did, ¬task.Settled did) (call : next.call = task.call)
      (lock : next.holdsLock = true → task.holdsLock = true)
      (reads : next.reads = none ∨ next.reads = task.reads)
      (holds : next.holds = none ∨ next.holds = task.holds)
      (storing : task.isStoring = false ∧ next.isStoring = false) :
      Effect config input s t task (s.put t next)
  | issue {params state key tokens}
      (received : exchangeCallback config input.answer state = .ok tokens) :
      Effect config input s t (.callback params (.exchanging state key))
        ((s.put t (.callback params (.verifying state key tokens))).record (issuedEvents tokens))
  | grant {did} {session : Session} {key verifiedPds newTokens r}
      (token : session.tokenSet.refreshToken = some r)
      (received : refreshTokens config.tokens input.answer session.tokenSet = .ok newTokens) :
      Effect config input s t (.getSession did (.refreshing session key verifiedPds))
        ((s.put t (.getSession did
          (acceptRefreshed config session key verifiedPds newTokens))).record
            (issuedEvents newTokens ++ [.granted r]))
  | store {did session newSession} :
      Effect config input s t (.getSession did (.storing session newSession))
        (((s.setSession did (some newSession)).put t
          (.getSession did (.returned (.ok newSession)))).record
            [.refreshed t did session newSession])
  | signOut {did} : Effect config input s t (.signOut did .deleting)
      (((s.setSession did none).put t (.signOut did .returned)).record [.signedOut did])
  | clear {params key} {tokens : TokenSet} :
      Effect config input s t (.callback params (.deleting key tokens))
        (((s.setSession tokens.sub none).put t (.callback params
          (.setting (.fromKeyAndTokens config.keys key tokens)))).record [.cleared tokens.sub])
  | set {params} {session : Session} :
      Effect config input s t (.callback params (.setting session))
        (((s.setSession session.tokenSet.sub (some session)).put t
          (.callback params (.returned (.ok session)))).record
            [.stored session.tokenSet.sub session])

theorem Task.not_settled_getSession {d : Bytes} {phase : GetSession Key} (hlook : phase ≠ .looking)
    (hreturned : ∀ result, phase ≠ .returned result) (did : Bytes) :
  ¬(Task.getSession d phase).Settled did
  := by
  rintro (h | h)
  · cases h
    exact hlook rfl
  · cases h
    exact hreturned _ rfl

theorem reread_effect (config : OAuthConfig ν Key) (input : Input ν) (s : State Key) (t : ℕ)
    (did : Bytes) :
  Effect config input s t (.getSession did .rereading)
    (stepGetSession config s t did .rereading input)
  := by
  have hunsettled := @Task.not_settled_getSession Key did .rereading (by simp) (by simp)
  have hreturned : ∀ result, Effect config input s t (.getSession did .rereading)
      ((s.put t (.getSession did (.returned result))).record []) := by
    intro result
    exact Effect.wait hunsettled rfl (fun _ => rfl) (.inl rfl) (.inl rfl) ⟨rfl, rfl⟩
  rw [stepGetSession, reread.eq_def]
  split
  · apply hreturned
  · rename_i session hsession
    split_ifs
    · apply hreturned
    · split
      · apply hreturned
      · exact .reread hsession rfl rfl rfl
    · split
      · apply hreturned
      · exact .reread hsession rfl rfl rfl

theorem stepGetSession_effect (config : OAuthConfig ν Key) (input : Input ν) (s : State Key) (t : ℕ)
    (did : Bytes) (phase : GetSession Key) :
  Effect config input s t (.getSession did phase) (stepGetSession config s t did phase input)
  := by
  cases phase with
  | looking => exact .look
  | locking => exact .lock
  | rereading => apply reread_effect
  | verifying session key =>
      rw [stepGetSession, reverify]
      apply Effect.wait (Task.not_settled_getSession (by simp) (by simp))
      · rfl
      · intro _
        rfl
      · split
        · exact .inl rfl
        · exact .inr rfl
      · split
        · exact .inl rfl
        · exact .inl rfl
      · split
        · exact ⟨rfl, rfl⟩
        · exact ⟨rfl, rfl⟩
  | refreshing session key verifiedPds =>
      rw [stepGetSession]
      split
      · apply Effect.wait (Task.not_settled_getSession (by simp) (by simp))
        · rfl
        · intro _
          rfl
        · exact .inl rfl
        · exact .inl rfl
        · exact ⟨rfl, rfl⟩
      · rename_i newTokens hreceived
        cases htoken : session.tokenSet.refreshToken with
        | none =>
            rw [refreshTokens, htoken] at hreceived
            cases hreceived
        | some r => exact .grant htoken hreceived
  | storing session newSession => exact .store
  | returned result => exact .stay rfl

theorem stepSignOut_effect (config : OAuthConfig ν Key) (input : Input ν) (s : State Key) (t : ℕ)
    (did : Bytes) (phase : SignOut) :
  Effect config input s t (.signOut did phase) (stepSignOut s t did phase)
  := by
  cases phase with
  | reading =>
      apply Effect.wait
      · rintro did (h | h)
        · cases h
        · cases h
      · rfl
      · intro h
        cases h
      · exact .inl rfl
      · exact .inl rfl
      · exact ⟨rfl, rfl⟩
  | deleting => exact .signOut
  | returned => exact .stay rfl

/-- Only the audience of tokens changes when they are verified. -/
theorem verifyCallback_ok {config : OAuthConfig ν Key} {world : World} {state : AuthState}
    {tokens bound : TokenSet} (h : verifyCallback config world state tokens = .ok bound) :
  ∃ aud, bound = { tokens with aud }
  := by
  rw [verifyCallback] at h
  split_ifs at h
  · cases h
    exact ⟨tokens.aud, rfl⟩
  · obtain ⟨pdsUrl, -, h⟩ := bind_eq_ok.mp h
    cases h
    exact ⟨pdsUrl, rfl⟩

theorem stepCallback_effect (config : OAuthConfig ν Key) (input : Input ν) (s : State Key) (t : ℕ)
    (params : CallbackParams) (phase : Callback Key) :
  Effect config input s t (.callback params phase) (stepCallback config s t params phase input)
  := by
  have hwait : ∀ {phase next : Callback Key},
      (Task.callback params next).holds = none ∨
        (Task.callback params next).holds = (Task.callback params phase).holds →
      Effect config input s t (.callback params phase) (s.put t (.callback params next)) := by
    intro phase next hholds
    apply Effect.wait
    · rintro did (h | h)
      · cases h
      · cases h
    · rfl
    · intro h
      cases h
    · exact .inl rfl
    · exact hholds
    · exact ⟨rfl, rfl⟩
  cases phase with
  | taking =>
      rw [stepCallback]
      split
      · exact hwait (.inl rfl)
      · exact hwait (.inl rfl)
  | exchanging state key =>
      rw [stepCallback]
      split
      · exact hwait (.inl rfl)
      · rename_i tokens hreceived
        exact .issue hreceived
  | verifying state key tokens =>
      rw [stepCallback]
      split
      · exact hwait (.inl rfl)
      · rename_i bound hbound
        apply hwait
        obtain ⟨aud, rfl⟩ := verifyCallback_ok hbound
        exact .inr rfl
  | reading key tokens => exact hwait (.inr rfl)
  | deleting key tokens => exact .clear
  | setting session => exact .set
  | returned result => exact .stay rfl

theorem stepTask_effect (config : OAuthConfig ν Key) (input : Input ν) (s : State Key) (t : ℕ)
    (task : Task Key) :
  Effect config input s t task (stepTask config s t task input)
  := by
  cases task with
  | getSession did phase => apply stepGetSession_effect
  | signOut did phase => apply stepSignOut_effect
  | callback params phase => apply stepCallback_effect

/-! ### The log -/

namespace Event

/-- Whether a session was read in order to be refreshed. -/
def isReread : Event → Bool
  | .reread _ _ _ => true
  | _ => false

/-- The session of a user is deleted by a sign-out, or replaced by that of a new flow. -/
def Replaces (did : Bytes) (e : Event) : Prop :=
  e = .signedOut did ∨ ∃ session, e = .stored did session

/-- The session of a user is replaced or deleted. -/
def Touches (did : Bytes) (e : Event) : Prop := e.Replaces did ∨ e = .cleared did

end Event

/-- What happened since a session was last read in order to be refreshed. -/
def sinceReread (log : List Event) : List Event := log.takeWhile fun e => !e.isReread

theorem sinceReread_append {events log : List Event} (h : ∀ e ∈ events, e.isReread = false) :
  sinceReread (events ++ log) = events ++ sinceReread log
  := by
  apply List.takeWhile_append_of_pos
  intro e he
  rw [h e he]
  rfl

theorem find_append {events log : List Event} (h : ∀ e ∈ events, e.isReread = false) :
  (events ++ log).find? Event.isReread = log.find? Event.isReread
  := by
  rw [List.find?_append, List.find?_eq_none.mpr]
  · rfl
  · intro e he
    rw [h e he]
    exact Bool.false_ne_true

/-- What holds in every state of a run. -/
structure Tracks (s : State Key) : Prop where
  lock : ∀ t task, s.tasks t = some task → task.holdsLock = true → s.refreshLock = some t
  called : ∀ t call, .called t call ∈ s.log → ∃ task, s.tasks t = some task ∧ task.call = call
  latest : ∀ t task did session, s.tasks t = some task → task.reads = some (did, session) →
    s.log.find? Event.isReread = some (.reread t did session)
  current : ∀ t task did session, s.tasks t = some task → task.reads = some (did, session) →
    (∀ e ∈ sinceReread s.log, ¬e.Touches did) → s.sessions did = some session

namespace Tracks

theorem initial {s : State Key} (h : s.Initial) :
  Tracks s
  := by
  constructor
  · intro t task htask
    rw [h.tasks] at htask
    cases htask
  · intro t call hmem
    rw [h.log] at hmem
    cases hmem
  · intro t task did session htask
    rw [h.tasks] at htask
    cases htask
  · intro t task did session htask
    rw [h.tasks] at htask
    cases htask

/-- The task that reads a session is the only one. -/
theorem reads_unique {s : State Key} (h : Tracks s) {t u : ℕ} {task task' : Task Key}
    (htask : s.tasks t = some task) (htask' : s.tasks u = some task')
    (hlock : task.holdsLock = true) {read : Bytes × Session} (hreads : task'.reads = some read) :
  u = t
  := by
  have ht := h.lock t task htask hlock
  have hu := h.lock u task' htask' (Task.holdsLock_of_reads hreads)
  rw [ht] at hu
  exact (Option.some.inj hu).symm

end Tracks

theorem put_tasks_self (s : State Key) (t : ℕ) (task : Task Key) :
  (s.put t task).tasks t = some task
  := Function.update_self ..

variable {t u : ℕ}

theorem put_tasks_of_ne (s : State Key) (h : u ≠ t) (task : Task Key) :
  (s.put t task).tasks u = s.tasks u
  := Function.update_of_ne h ..

theorem record_tasks_self (s : State Key) (t : ℕ) (task : Task Key) (events : List Event) :
  ((s.put t task).record events).tasks t = some task
  := put_tasks_self s t task

/-- When `t` goes on, every task is the one that `t` goes on as, or was there before. -/
theorem put_cases (s : State Key) {task task' : Task Key}
    (h : (s.put t task).tasks u = some task') :
  (u = t ∧ task = task') ∨ (u ≠ t ∧ s.tasks u = some task')
  := by
  by_cases hu : u = t
  · rw [hu, put_tasks_self] at h
    exact .inl ⟨hu, Option.some.inj h⟩
  · rw [put_tasks_of_ne s hu] at h
    exact .inr ⟨hu, h⟩

/-- A task that goes on keeps the lock with the one that has it. -/
theorem lock_put {s : State Key} {task : Task Key}
    (h : ∀ u task', u ≠ t → s.tasks u = some task' → task'.holdsLock = true →
      s.refreshLock = some u) (hnew : task.holdsLock = true → s.refreshLock = some t) :
  ∀ u task', (s.put t task).tasks u = some task' → task'.holdsLock = true →
    (s.put t task).refreshLock = some u
  := by
  intro u task' htask' hlock
  show (if s.refreshLock = some t ∧ task.holdsLock = false then none else s.refreshLock) = some u
  rcases put_cases s htask' with ⟨rfl, rfl⟩ | ⟨hu, htask'⟩
  · rw [if_neg, hnew hlock]
    rintro ⟨-, hfalse⟩
    rw [hlock] at hfalse
    cases hfalse
  · have hlock' := h u task' hu htask' hlock
    rw [if_neg, hlock']
    rintro ⟨ht, -⟩
    rw [hlock'] at ht
    exact hu (Option.some.inj ht)

/-- The client with another store of sessions. -/
def State.withSessions (s : State Key) (sessions : Bytes → Option Session) : State Key :=
  { s with sessions }

namespace Tracks

variable {t u : ℕ} {next task : Task Key} {s s' start : State Key}

/-- A call that was made is still there when a task goes on with its own. -/
theorem called_put (h : Tracks s)
    (htask : s.tasks t = some task) (next : Task Key) (hcall : next.call = task.call) {c : Call}
    (hmem : .called u c ∈ s.log) :
  ∃ task', (s.put t next).tasks u = some task' ∧ task'.call = c
  := by
  obtain ⟨task', htask', hcall'⟩ := h.called u c hmem
  by_cases hu : u = t
  · rw [hu, htask] at htask'
    cases htask'
    rw [hu]
    exact ⟨next, put_tasks_self s t next, hcall.trans hcall'⟩
  · exact ⟨task', (put_tasks_of_ne s hu next).trans htask', hcall'⟩

/-- A step of a task that reads no session anew. -/
theorem move (h : Tracks s)
    (htask : s.tasks t = some task) {sessions : Bytes → Option Session} (events : List Event)
    (hreread : ∀ e ∈ events, e.isReread = false) (hcalled : ∀ u c, .called u c ∉ events)
    (hcall : next.call = task.call) (hlock : next.holdsLock = true → task.holdsLock = true)
    (hreads : next.reads = none ∨ next.reads = task.reads)
    (hsessions : ∀ did, sessions did = s.sessions did ∨ (∃ e ∈ events, e.Touches did) ∨
      (task.holdsLock = true ∧ next.reads = none)) :
  Tracks (((s.withSessions sessions).put t next).record events)
  := by
  have htasks : ∀ u task' read, (((s.withSessions sessions).put t next).record events).tasks u = some task' →
      task'.reads = some read → ∃ task'', s.tasks u = some task'' ∧ task''.reads = some read := by
    intro u task' read htask' hread
    rcases put_cases (s.withSessions sessions) htask' with ⟨rfl, rfl⟩ | ⟨-, hold⟩
    · rcases hreads with hnone | hsame
      · rw [hnone] at hread
        cases hread
      · exact ⟨task, htask, hsame ▸ hread⟩
    · exact ⟨task', hold, hread⟩
  constructor
  · apply lock_put
    · intro u task' _ htask' hholds
      exact h.lock u task' htask' hholds
    · intro hholds
      exact h.lock t task htask (hlock hholds)
  · intro u c hmem
    rcases List.mem_append.mp hmem with hmem | hmem
    · exact absurd hmem (hcalled u c)
    · exact h.called_put htask next hcall hmem
  · intro u task' did session htask' hread
    obtain ⟨task'', htask'', hread''⟩ := htasks u task' _ htask' hread
    exact (find_append hreread).trans (h.latest u task'' did session htask'' hread'')
  · intro u task' did session htask' hread hquiet
    obtain ⟨task'', htask'', hread''⟩ := htasks u task' _ htask' hread
    have hsince : sinceReread (events ++ s.log) = events ++ sinceReread s.log :=
      sinceReread_append hreread
    have hquiet' : ∀ e ∈ events ++ sinceReread s.log, ¬e.Touches did := by
      rw [← hsince]
      exact hquiet
    have hstored := h.current u task'' did session htask'' hread''
      fun e he => hquiet' e (List.mem_append_right _ he)
    rcases hsessions did with hsame | ⟨e, he, htouch⟩ | ⟨hholds, hnone⟩
    · exact hsame.trans hstored
    · exact absurd htouch (hquiet' e (List.mem_append_left _ he))
    · exfalso
      have hu := h.reads_unique htask htask'' hholds hread''
      rw [hu, record_tasks_self] at htask'
      cases htask'
      rw [hnone] at hread
      cases hread

/-- A task stores or deletes the session of a user, and records that. -/
theorem setSession (h : Tracks s)
    (htask : s.tasks t = some task) (did : Bytes) {session : Option Session} {e : Event}
    (he : e.isReread = false ∧ ∀ u c, e ≠ .called u c) (hcall : next.call = task.call)
    (hnext : next.holdsLock = false ∧ next.reads = none)
    (htouches : e.Touches did ∨ task.holdsLock = true) :
  Tracks (((s.setSession did session).put t next).record [e])
  := by
  apply h.move htask [e] _ _ hcall _ (.inl hnext.2)
  · intro d
    by_cases hd : d = did
    · rw [hd]
      exact .inr (htouches.imp (fun htouch => ⟨e, List.mem_singleton_self e, htouch⟩)
        fun hholds => ⟨hholds, hnext.2⟩)
    · exact .inl (Function.update_of_ne hd ..)
  · intro e' he'
    rw [List.mem_singleton.mp he']
    exact he.1
  · intro u c hmem
    exact he.2 u c (List.mem_singleton.mp hmem).symm
  · intro hlock
    rw [hnext.1] at hlock
    cases hlock

theorem call_look (did : Bytes) (stored : Option Session) (now : ℕ) :
  (Task.getSession did (look did stored now) : Task Key).holdsLock = false ∧
    (Task.getSession did (look did stored now) : Task Key).reads = none ∧
      (Task.getSession did (look did stored now) : Task Key).holds = none
  := by
  rw [look.eq_def]
  split
  · exact ⟨rfl, rfl, rfl⟩
  · split_ifs
    · exact ⟨rfl, rfl, rfl⟩
    · exact ⟨rfl, rfl, rfl⟩

theorem reads_acceptRefreshed (config : OAuthConfig ν Key) (did : Bytes) (session : Session)
    (key : Key) (verifiedPds : Option Bytes) (newTokens : TokenSet) :
  (Task.getSession did (acceptRefreshed config session key verifiedPds newTokens)).reads = none ∨
    (Task.getSession did (acceptRefreshed config session key verifiedPds newTokens)).reads =
      some (did, session)
  := by
  rw [acceptRefreshed]
  split_ifs
  · exact .inl rfl
  · exact .inr rfl

/-- A task reads a session anew. -/
theorem reread (h : Tracks s) {did : Bytes} {session : Session}
    {next : GetSession Key} (htask : s.tasks t = some (.getSession did .rereading))
    (hstored : s.sessions did = some session)
    (hreads : (Task.getSession did next).reads = some (did, session)) :
  Tracks ((s.put t (.getSession did next)).record [.reread t did session])
  := by
  have hother : ∀ u task' read,
      ((s.put t (.getSession did next)).record [.reread t did session]).tasks u = some task' →
      task'.reads = some read → u = t ∧ read = (did, session) := by
    intro u task' read htask' hread
    rcases put_cases s htask' with ⟨hu, rfl⟩ | ⟨hu, hold⟩
    · rw [hreads] at hread
      exact ⟨hu, (Option.some.inj hread).symm⟩
    · exact absurd (h.reads_unique htask hold rfl hread) hu
  constructor
  · apply lock_put
    · intro u task' _ htask' hholds
      exact h.lock u task' htask' hholds
    · intro _
      exact h.lock t _ htask rfl
  · intro u c hmem
    rcases List.mem_cons.mp hmem with hmem | hmem
    · cases hmem
    · exact h.called_put htask (.getSession did next) rfl hmem
  · intro u task' did' session' htask' hread
    obtain ⟨rfl, heq⟩ := hother u task' _ htask' hread
    cases heq
    rfl
  · intro u task' did' session' htask' hread _
    obtain ⟨rfl, heq⟩ := hother u task' _ htask' hread
    cases heq
    exact hstored

/-- A task takes the lock. -/
theorem acquire (h : Tracks s) {did : Bytes}
    (htask : s.tasks t = some (.getSession did .locking)) (hfree : s.refreshLock = none) :
  Tracks ({ s with refreshLock := some t }.put t (.getSession did .rereading))
  := by
  have hnone : ∀ u task', s.tasks u = some task' → task'.holdsLock = false := by
    intro u task' htask'
    rw [Bool.eq_false_iff]
    intro hholds
    rw [h.lock u task' htask' hholds] at hfree
    cases hfree
  have hreads : ∀ u task' read,
      ({ s with refreshLock := some t }.put t (Task.getSession did .rereading)).tasks u = some task' →
      task'.reads ≠ some read := by
    intro u task' read htask' hread
    rcases put_cases { s with refreshLock := some t } htask' with ⟨rfl, rfl⟩ | ⟨-, hold⟩
    · cases hread
    · have hholds := hnone u task' hold
      rw [Task.holdsLock_of_reads hread] at hholds
      cases hholds
  constructor
  · apply lock_put
    · intro u task' _ htask' hholds
      rw [hnone u task' htask'] at hholds
      cases hholds
    · intro _
      rfl
  · intro u c hmem
    exact h.called_put htask (.getSession did .rereading) rfl hmem
  · intro u task' did' session htask' hread
    exact absurd hread (hreads u task' _ htask')
  · intro u task' did' session htask' hread
    exact absurd hread (hreads u task' _ htask')

/-- A new call. -/
theorem call (h : Tracks s) (hnew : s.tasks t = none) (c : Call) :
  Tracks ((s.put t c.start).record [.called t c])
  := by
  have hstart : (c.start : Task Key).holdsLock = false ∧ (c.start : Task Key).reads = none ∧
      (c.start : Task Key).call = c := by
    cases c with
    | getSession did => exact ⟨rfl, rfl, rfl⟩
    | signOut did => exact ⟨rfl, rfl, rfl⟩
    | callback params => exact ⟨rfl, rfl, rfl⟩
  have hold : ∀ u task' read, ((s.put t c.start).record [.called t c]).tasks u = some task' →
      task'.reads = some read → s.tasks u = some task' := by
    intro u task' read htask' hread
    rcases put_cases s htask' with ⟨rfl, rfl⟩ | ⟨-, hold⟩
    · rw [hstart.2.1] at hread
      cases hread
    · exact hold
  have hreread : ∀ e ∈ [Event.called t c], e.isReread = false := by
    intro e he
    rw [List.mem_singleton.mp he]
    rfl
  constructor
  · apply lock_put
    · intro u task' _ htask' hholds
      exact h.lock u task' htask' hholds
    · intro hholds
      rw [hstart.1] at hholds
      cases hholds
  · intro u c' hmem
    rcases List.mem_cons.mp hmem with hmem | hmem
    · cases hmem
      exact ⟨_, put_tasks_self s t _, hstart.2.2⟩
    · obtain ⟨task', htask', hcall'⟩ := h.called u c' hmem
      have hu : u ≠ t := by
        rintro rfl
        rw [hnew] at htask'
        cases htask'
      exact ⟨task', (put_tasks_of_ne s hu _).trans htask', hcall'⟩
  · intro u task' did session htask' hread
    exact (find_append hreread).trans (h.latest u task' did session (hold u task' _ htask' hread) hread)
  · intro u task' did session htask' hread hquiet
    apply h.current u task' did session (hold u task' _ htask' hread) hread
    intro e he
    apply hquiet e
    show e ∈ sinceReread ([.called t c] ++ s.log)
    rw [sinceReread_append hreread]
    exact List.mem_append_right _ he

theorem isReread_issuedEvents (tokens : TokenSet) :
  ∀ e ∈ issuedEvents tokens, ∃ r, e = .issued r
  := by
  intro e he
  obtain ⟨r, -, rfl⟩ := List.mem_map.mp he
  exact ⟨r, rfl⟩

/-- Every step keeps track. -/
theorem effect {config : OAuthConfig ν Key} {input : Input ν} (h : Tracks s)
    (htask : s.tasks t = some task) (hready : task.Ready s)
    (heffect : Effect config input s t task s') :
  Tracks s'
  := by
  cases heffect with
  | stay => exact h
  | @look did =>
      have hlook := @call_look Key did (s.sessions did) input.now
      apply h.move htask []
      · simp
      · simp
      · rfl
      · intro hlock
        rw [hlook.1] at hlock
        cases hlock
      · exact .inl hlook.2.1
      · exact fun _ => .inl rfl
  | lock => exact h.acquire htask hready
  | reread hstored hreads => exact h.reread htask hstored hreads
  | wait _ hcall hlock hreads =>
      apply h.move htask []
      · simp
      · simp
      · exact hcall
      · exact hlock
      · exact hreads
      · exact fun _ => .inl rfl
  | @issue params state key tokens _ =>
      apply h.move htask _
      · intro e he
        obtain ⟨r, rfl⟩ := isReread_issuedEvents tokens e he
        rfl
      · intro u c he
        obtain ⟨r, heq⟩ := isReread_issuedEvents tokens _ he
        cases heq
      · rfl
      · intro hlock
        cases hlock
      · exact .inl rfl
      · exact fun _ => .inl rfl
  | @grant did session key verifiedPds newTokens r _ _ =>
      apply h.move htask _
      · intro e he
        rcases List.mem_append.mp he with he | he
        · obtain ⟨r, rfl⟩ := isReread_issuedEvents newTokens e he
          rfl
        · rw [List.mem_singleton.mp he]
          rfl
      · intro u c he
        rcases List.mem_append.mp he with he | he
        · obtain ⟨r, heq⟩ := isReread_issuedEvents newTokens _ he
          cases heq
        · cases List.mem_singleton.mp he
      · rfl
      · intro _
        rfl
      · exact reads_acceptRefreshed config did session key verifiedPds newTokens
      · exact fun _ => .inl rfl
  | @store did session newSession =>
      exact h.setSession htask did ⟨rfl, by simp⟩ rfl ⟨rfl, rfl⟩ (.inr rfl)
  | @signOut did =>
      exact h.setSession htask did ⟨rfl, by simp⟩ rfl ⟨rfl, rfl⟩ (.inl (.inl (.inl rfl)))
  | @clear params key tokens =>
      exact h.setSession htask tokens.sub ⟨rfl, by simp⟩ rfl ⟨rfl, rfl⟩ (.inl (.inr rfl))
  | @set params session =>
      exact h.setSession htask session.tokenSet.sub ⟨rfl, by simp⟩ rfl ⟨rfl, rfl⟩
        (.inl (.inl (.inr ⟨session, rfl⟩)))

/-- Every run keeps track. -/
theorem steps {config : OAuthConfig ν Key} {allowed : State Key → Task Key → Input ν → Prop}
    (h : Tracks start) (hsteps : Steps config allowed start s) :
  Tracks s
  := by
  induction hsteps with
  | refl => exact h
  | tail _ hstep ih =>
      cases hstep with
      | call c hnew => exact ih.call hnew c
      | task input hrunning hready _ =>
          exact ih.effect hrunning hready (stepTask_effect config input _ _ _)

end Tracks

end Shrike.OAuth
