import Shrike.OAuth.Tasks

/-!
# Refreshed sessions

A refresh reads the session of a user, waits for the network, and then stores the new session
whatever is stored by then. As long as no sign-out and no new flow replaces the session in between,
a user who has signed out stays signed out, and a session is only replaced by a refresh of itself.
A refresh token is used once if the servers hand it out once.
-/

namespace Shrike.OAuth

open Bytes

variable {ν Key : Type}

/-! ### What is allowed -/

/-- A task does not store refreshed tokens of a user whose session was replaced since the task read
it. -/
def Uncontested (s : State Key) (task : Task Key) (_ : Input ν) : Prop :=
  ∀ did session newSession, task = .getSession did (.storing session newSession) →
    ∀ e ∈ sinceReread s.log, ¬e.Replaces did

/-! ### Positions in the log -/

variable {t u : ℕ} {d did : Bytes} {e x read : Event}

/-- What was appended to a log lies after an earlier event, or contains it. -/
theorem append_eq_append_cons {events log post pre : List Event}
    (h : events ++ log = post ++ e :: pre) :
  (∃ post', post = events ++ post' ∧ log = post' ++ e :: pre) ∨ ∃ mid, events = post ++ e :: mid
  := by
  rcases List.append_eq_append_iff.mp h with ⟨post', hpost, hlog⟩ | ⟨mid, hevents, hmid⟩
  · exact .inl ⟨post', hpost, hlog⟩
  · cases mid with
    | nil =>
        rw [List.append_nil] at hevents
        exact .inl ⟨[], by rw [hevents, List.append_nil], hmid.symm⟩
    | cons e' mid =>
        rw [List.cons_append] at hmid
        cases hmid
        exact .inr ⟨mid, hevents⟩

theorem cons_eq_append_cons {log post pre : List Event} (h : [x] ++ log = post ++ e :: pre) :
  (∃ post', post = [x] ++ post' ∧ log = post' ++ e :: pre) ∨ (post = [] ∧ x = e)
  := by
  rcases append_eq_append_cons h with hpost | ⟨mid, hmid⟩
  · exact .inl hpost
  · cases post with
    | nil =>
        cases hmid
        exact .inr ⟨rfl, rfl⟩
    | cons y post =>
        have hlength := congrArg List.length hmid
        simp at hlength

variable {config : OAuthConfig ν Key} {s s' start : State Key} {pre post events : List Event}

/-- A session was last read after an event, if the event did not happen since then. -/
theorem mem_of_find (he : e.isReread = false)
    (hfind : (post ++ e :: pre).find? Event.isReread = some read)
    (hsince : e ∉ sinceReread (post ++ e :: pre)) :
  read ∈ post ∧ ∀ e' ∈ sinceReread (post ++ e :: pre), e' ∈ post
  := by
  induction post with
  | nil =>
      exfalso
      apply hsince
      rw [List.nil_append, sinceReread, List.takeWhile_cons_of_pos]
      · exact List.mem_cons_self
      · rw [he]
        rfl
  | cons x post ih =>
      rw [List.cons_append] at hfind hsince ⊢
      cases hx : x.isReread with
      | true =>
          rw [List.find?_cons_of_pos hx] at hfind
          cases hfind
          refine ⟨List.mem_cons_self, ?_⟩
          intro e' he'
          rw [sinceReread, List.takeWhile_cons_of_neg] at he'
          · cases he'
          · rw [hx]
            exact Bool.false_ne_true
      | false =>
          have hcons : sinceReread (x :: (post ++ e :: pre)) =
              x :: sinceReread (post ++ e :: pre) := by
            rw [sinceReread, List.takeWhile_cons_of_pos]
            · rfl
            · rw [hx]
              rfl
          rw [List.find?_cons_of_neg (by rw [hx]; exact Bool.false_ne_true)] at hfind
          rw [hcons] at hsince ⊢
          obtain ⟨hread, hall⟩ := ih hfind (List.not_mem_of_not_mem_cons hsince)
          refine ⟨List.mem_cons_of_mem x hread, ?_⟩
          intro e' he'
          rcases List.mem_cons.mp he' with rfl | he'
          · exact List.mem_cons_self
          · exact List.mem_cons_of_mem x (hall e' he')

/-! ### Signing out -/

/-- After a sign-out, `post` happened, in which no new session was stored. -/
def SignedOutSince (log : List Event) (did : Bytes) (post : List Event) : Prop :=
  (∃ pre, log = post ++ .signedOut did :: pre) ∧ ∀ session, .stored did session ∉ post

/-- There is no session: none is stored, no call since the sign-out found one, and none is being
refreshed. -/
structure Gone (s : State Key) (did : Bytes) (post : List Event) : Prop where
  sessions : s.sessions did = none
  settled : ∀ t, .called t (.getSession did) ∈ post →
    ∀ task, s.tasks t = some task → task.Settled did
  unread : ∀ t session, .reread t did session ∉ post

/-- There is no session of a user who has signed out. -/
def StaysOut (s : State Key) : Prop := ∀ did post, SignedOutSince s.log did post → Gone s did post

variable {session newSession : Session} {input : Input ν} {task : Task Key}

/-- A task that is settled stays so, while there is no session. -/
theorem Effect.settled (heffect : Effect config input s t task s')
    (htask : s.tasks t = some task) (hsettled : task.Settled did) (hnone : s.sessions did = none) :
  ∃ task', s'.tasks t = some task' ∧ task'.Settled did ∧ s'.log = s.log ∧ s'.sessions = s.sessions
  := by
  have hcall : task.call = .getSession did := by
    rcases hsettled with rfl | rfl
    · rfl
    · rfl
  cases heffect with
  | stay => exact ⟨task, htask, hsettled, rfl, rfl⟩
  | @look d =>
      cases hcall
      refine ⟨_, put_tasks_self s t _, ?_, rfl, rfl⟩
      rw [hnone]
      exact .inr rfl
  | wait hunsettled => exact absurd hsettled (hunsettled did)
  | lock => exact absurd hsettled (Task.not_settled_getSession (by simp) (by simp) did)
  | reread => exact absurd hsettled (Task.not_settled_getSession (by simp) (by simp) did)
  | issue => cases hcall
  | grant => exact absurd hsettled (Task.not_settled_getSession (by simp) (by simp) did)
  | store => exact absurd hsettled (Task.not_settled_getSession (by simp) (by simp) did)
  | signOut => cases hcall
  | clear => cases hcall
  | set => cases hcall

/-- What a step does to the session of a user: nothing, or it is stored or deleted. -/
inductive SessionChange (s s' : State Key) (t : ℕ) (task : Task Key) (did : Bytes) :
    List Event → Prop where
  | same {events : List Event} (sessions : s'.sessions did = s.sessions did)
      (quiet : ∀ e ∈ events, ¬e.Touches did ∧
        (∀ u session, e = .reread u did session → s.sessions did = some session) ∧
        ∀ u session newSession, e ≠ .refreshed u did session newSession) :
      SessionChange s s' t task did events
  | refreshed {session newSession : Session}
      (storing : task = .getSession did (.storing session newSession))
      (sessions : s'.sessions did = some newSession) :
      SessionChange s s' t task did [.refreshed t did session newSession]
  | removed {e : Event} (event : e = .signedOut did ∨ e = .cleared did)
      (sessions : s'.sessions did = none) : SessionChange s s' t task did [e]
  | stored {session : Session} (sessions : s'.sessions did = some session) :
      SessionChange s s' t task did [.stored did session]

theorem SessionChange.same_of_ne (hd : d ≠ did) (sessions : s'.sessions d = s.sessions d)
    (he : e = .signedOut did ∨ e = .cleared did ∨ (∃ session, e = .stored did session) ∨
      ∃ u session newSession, e = .refreshed u did session newSession) :
  SessionChange s s' t task d [e]
  := by
  apply SessionChange.same sessions
  intro e' he'
  rw [List.mem_singleton.mp he']
  rcases he with rfl | rfl | ⟨session, rfl⟩ | ⟨u, session, newSession, rfl⟩
  · simp [Event.Touches, Event.Replaces, hd.symm]
  · simp [Event.Touches, Event.Replaces, hd.symm]
  · simp [Event.Touches, Event.Replaces, hd.symm]
  · simp [Event.Touches, Event.Replaces, hd.symm]

/-- What a step of a task does to the session of a user, and what is recorded about it. -/
theorem Effect.change (heffect : Effect config input s t task s') (did : Bytes) :
  ∃ events, s'.log = events ++ s.log ∧ SessionChange s s' t task did events ∧
    ∀ u c, .called u c ∉ events
  := by
  have hquiet : ∀ tokens, ∀ e ∈ issuedEvents tokens, ¬e.Touches did ∧
      (∀ u session, e = .reread u did session → s.sessions did = some session) ∧
      ∀ u session newSession, e ≠ .refreshed u did session newSession := by
    intro tokens e he
    obtain ⟨r, rfl⟩ := Tracks.isReread_issuedEvents tokens e he
    simp [Event.Touches, Event.Replaces]
  cases heffect with
  | stay => exact ⟨[], rfl, .same rfl (by simp), by simp⟩
  | look => exact ⟨[], rfl, .same rfl (by simp), by simp⟩
  | lock => exact ⟨[], rfl, .same rfl (by simp), by simp⟩
  | wait => exact ⟨[], rfl, .same rfl (by simp), by simp⟩
  | @reread d session next hstored =>
      refine ⟨_, rfl, .same rfl ?_, by simp⟩
      intro e he
      rw [List.mem_singleton.mp he]
      refine ⟨by simp [Event.Touches, Event.Replaces], ?_, by simp⟩
      intro u session' heq
      cases heq
      exact hstored
  | @issue params state key tokens =>
      refine ⟨_, rfl, .same rfl (hquiet tokens), ?_⟩
      intro u c hmem
      obtain ⟨r, heq⟩ := Tracks.isReread_issuedEvents tokens _ hmem
      cases heq
  | @grant d session key verifiedPds newTokens r =>
      refine ⟨_, rfl, .same rfl ?_, ?_⟩
      · intro e he
        rcases List.mem_append.mp he with he | he
        · exact hquiet newTokens e he
        · rw [List.mem_singleton.mp he]
          simp [Event.Touches, Event.Replaces]
      · intro u c hmem
        rcases List.mem_append.mp hmem with hmem | hmem
        · obtain ⟨r, heq⟩ := Tracks.isReread_issuedEvents newTokens _ hmem
          cases heq
        · cases List.mem_singleton.mp hmem
  | @store d session newSession =>
      refine ⟨_, rfl, ?_, by simp⟩
      by_cases hd : did = d
      · rw [hd]
        exact .refreshed rfl (Function.update_self ..)
      · exact .same_of_ne hd (Function.update_of_ne hd ..) (.inr (.inr (.inr ⟨_, _, _, rfl⟩)))
  | @signOut d =>
      refine ⟨_, rfl, ?_, by simp⟩
      by_cases hd : did = d
      · rw [hd]
        exact .removed (.inl rfl) (Function.update_self ..)
      · exact .same_of_ne hd (Function.update_of_ne hd ..) (.inl rfl)
  | @clear params key tokens =>
      refine ⟨_, rfl, ?_, by simp⟩
      by_cases hd : did = tokens.sub
      · rw [hd]
        exact .removed (.inr rfl) (Function.update_self ..)
      · exact .same_of_ne hd (Function.update_of_ne hd ..) (.inr (.inl rfl))
  | @set params session =>
      refine ⟨_, rfl, ?_, by simp⟩
      by_cases hd : did = session.tokenSet.sub
      · rw [hd]
        exact .stored (Function.update_self ..)
      · exact .same_of_ne hd (Function.update_of_ne hd ..) (.inr (.inr (.inl ⟨_, rfl⟩)))

/-- The other tasks stay. -/
theorem Effect.tasks_of_ne (heffect : Effect config input s t task s') (hu : u ≠ t) :
  s'.tasks u = s.tasks u
  := by
  cases heffect with
  | stay => rfl
  | look => exact put_tasks_of_ne s hu _
  | lock => exact put_tasks_of_ne _ hu _
  | reread => exact put_tasks_of_ne s hu _
  | wait => exact put_tasks_of_ne s hu _
  | issue => exact put_tasks_of_ne s hu _
  | grant => exact put_tasks_of_ne s hu _
  | store => exact put_tasks_of_ne _ hu _
  | signOut => exact put_tasks_of_ne _ hu _
  | clear => exact put_tasks_of_ne _ hu _
  | set => exact put_tasks_of_ne _ hu _

/-- When a task stores refreshed tokens, it has read the session after an earlier event that
replaced the session. -/
theorem reread_mem (h : Tracks s)
    (htask : s.tasks t = some (.getSession did (.storing session newSession)))
    (hallowed : Uncontested s (Task.getSession did (.storing session newSession)) input)
    (hlog : s.log = post ++ e :: pre) (he : e.Replaces did) :
  .reread t did session ∈ post ∧ ∀ e' ∈ sinceReread s.log, e' ∈ post
  := by
  have hlatest := h.latest t _ did session htask rfl
  have hsince := hallowed did session newSession rfl
  rw [hlog] at hlatest hsince ⊢
  apply mem_of_find _ hlatest
  · intro hmem
    exact hsince e hmem he
  · rcases he with rfl | ⟨session', rfl⟩
    · rfl
    · rfl

theorem StaysOut.call (h : StaysOut s) (hnew : s.tasks t = none) (htracks : Tracks s) (c : Call) :
  StaysOut ((s.put t c.start).record [.called t c])
  := by
  rintro did post ⟨⟨pre, hlog⟩, hstored⟩
  rcases cons_eq_append_cons hlog with ⟨post', rfl, hlog'⟩ | ⟨-, hx⟩
  · have hgone := h did post' ⟨⟨pre, hlog'⟩, fun session hmem =>
      hstored session (List.mem_cons_of_mem _ hmem)⟩
    constructor
    · exact hgone.sessions
    · intro u hmem task htask
      rcases List.mem_cons.mp hmem with heq | hpost
      · cases heq
        rw [record_tasks_self] at htask
        cases htask
        exact .inl rfl
      · have hu : u ≠ t := by
          rintro rfl
          have hlogged : .called u (.getSession did) ∈ s.log := by
            rw [show s.log = post' ++ .signedOut did :: pre from hlog']
            exact List.mem_append_left _ hpost
          obtain ⟨task', htask', -⟩ := htracks.called u _ hlogged
          rw [hnew] at htask'
          cases htask'
        exact hgone.settled u hpost task ((put_tasks_of_ne s hu _).symm.trans htask)
    · intro u session hmem
      rcases List.mem_cons.mp hmem with heq | hmem
      · cases heq
      · exact hgone.unread u session hmem
  · cases hx

theorem StaysOut.effect (h : StaysOut s) (htracks : Tracks s) (htask : s.tasks t = some task)
    (heffect : Effect config input s t task s') (hallowed : Uncontested s task input) :
  StaysOut s'
  := by
  rintro did post ⟨⟨pre, hlog⟩, hstored⟩
  obtain ⟨events, hevents, hchange, hcalled⟩ := heffect.change did
  rw [hevents] at hlog
  have hsettled : ∀ post', Gone s did post' → post = events ++ post' → ∀ u,
      .called u (.getSession did) ∈ post → ∀ task', s'.tasks u = some task' → task'.Settled did := by
    intro post' hgone hpost u hmem task' htask'
    rw [hpost] at hmem
    rcases List.mem_append.mp hmem with hmem | hmem
    · exact absurd hmem (hcalled u _)
    · by_cases hu : u = t
      · rw [hu] at hmem htask'
        obtain ⟨task'', htask'', hsettled, -⟩ :=
          heffect.settled htask (hgone.settled t hmem task htask) hgone.sessions
        rw [htask'] at htask''
        cases htask''
        exact hsettled
      · exact hgone.settled u hmem task' ((heffect.tasks_of_ne hu).symm.trans htask')
  have holder : ∀ post', post = events ++ post' → s.log = post' ++ .signedOut did :: pre →
      Gone s did post' := by
    intro post' hpost hlog'
    apply h did post' ⟨⟨pre, hlog'⟩, ?_⟩
    intro session hmem
    apply hstored session
    rw [hpost]
    exact List.mem_append_right _ hmem
  cases hchange with
  | same hsessions hquiet =>
      rcases append_eq_append_cons hlog with ⟨post', hpost, hlog'⟩ | ⟨mid, hmid⟩
      · have hgone := holder post' hpost hlog'
        constructor
        · exact hsessions.trans hgone.sessions
        · exact hsettled post' hgone hpost
        · intro u session hmem
          rw [hpost] at hmem
          rcases List.mem_append.mp hmem with hmem | hmem
          · have hsome := (hquiet _ hmem).2.1 u session rfl
            rw [hgone.sessions] at hsome
            cases hsome
          · exact hgone.unread u session hmem
      · exfalso
        apply (hquiet (.signedOut did) _).1 (.inl (.inl rfl))
        rw [hmid]
        exact List.mem_append_right _ List.mem_cons_self
  | @refreshed session newSession hstoring hsessions =>
      rw [hstoring] at htask hallowed
      rcases cons_eq_append_cons hlog with ⟨post', hpost, hlog'⟩ | ⟨-, hx⟩
      · have hgone := holder post' hpost hlog'
        exact absurd (reread_mem htracks htask hallowed hlog' (.inl rfl)).1 (hgone.unread t session)
      · cases hx
  | @removed e hevent hsessions =>
      rcases cons_eq_append_cons hlog with ⟨post', hpost, hlog'⟩ | ⟨hpost, -⟩
      · have hgone := holder post' hpost hlog'
        constructor
        · exact hsessions
        · exact hsettled post' hgone hpost
        · intro u session hmem
          rw [hpost] at hmem
          rcases List.mem_cons.mp hmem with heq | hmem
          · rcases hevent with rfl | rfl
            · cases heq
            · cases heq
          · exact hgone.unread u session hmem
      · rw [hpost]
        constructor
        · exact hsessions
        · intro u hmem
          cases hmem
        · intro u session hmem
          cases hmem
  | @stored session hsessions =>
      rcases cons_eq_append_cons hlog with ⟨post', hpost, hlog'⟩ | ⟨-, hx⟩
      · exfalso
        apply hstored session
        rw [hpost]
        exact List.mem_cons_self
      · cases hx

/-! ### Storing a session -/

/-- After a session was stored by a callback, `post` happened, in which no other one was, and the
session was not deleted. -/
def StoredSince (log : List Event) (did : Bytes) (session : Session) (post : List Event) : Prop :=
  (∃ pre, log = post ++ .stored did session :: pre) ∧ ∀ e ∈ post, ¬e.Touches did

/-- A session was read and replaced by a refresh of it. -/
def RefreshedTo (post : List Event) (did : Bytes) (session newSession : Session) : Prop :=
  ∃ t, .refreshed t did session newSession ∈ post ∧ .reread t did session ∈ post

/-- The session that is stored is `session` or comes from it by refreshes, and no refresh of an
older session was stored. -/
structure Kept (s : State Key) (did : Bytes) (session : Session) (post : List Event) : Prop where
  sessions : ∃ current, s.sessions did = some current ∧
    Relation.ReflTransGen (RefreshedTo post did) session current
  refreshes : ∀ t old new, .refreshed t did old new ∈ post → .reread t did old ∈ post

/-- A session that a callback stored stays, up to refreshes of it. -/
def StaysIn (s : State Key) : Prop :=
  ∀ did session post, StoredSince s.log did session post → Kept s did session post

theorem RefreshedTo.append (h : RefreshedTo post did session newSession) :
  RefreshedTo (events ++ post) did session newSession
  := by
  obtain ⟨t, hrefreshed, hreread⟩ := h
  exact ⟨t, List.mem_append_right _ hrefreshed, List.mem_append_right _ hreread⟩

theorem Kept.append (h : Kept s did session post) (hsessions : s'.sessions did = s.sessions did)
    (hevents : ∀ t old new, .refreshed t did old new ∉ events) :
  Kept s' did session (events ++ post)
  := by
  obtain ⟨current, hcurrent, hchain⟩ := h.sessions
  constructor
  · refine ⟨current, hsessions.trans hcurrent, ?_⟩
    exact hchain.lift id fun _ _ => RefreshedTo.append
  · intro t old new hmem
    rcases List.mem_append.mp hmem with hmem | hmem
    · exact absurd hmem (hevents t old new)
    · exact List.mem_append_right _ (h.refreshes t old new hmem)

theorem StoredSince.tail {log : List Event} (hquiet : ∀ e ∈ events ++ post, ¬e.Touches did)
    (hlog : log = post ++ .stored did session :: pre) :
  StoredSince log did session post
  := ⟨⟨pre, hlog⟩, fun e he => hquiet e (List.mem_append_right _ he)⟩

theorem StaysIn.call (h : StaysIn s) (t : ℕ) (c : Call) :
  StaysIn ((s.put t c.start).record [.called t c])
  := by
  rintro did session post ⟨⟨pre, hlog⟩, hquiet⟩
  rcases cons_eq_append_cons hlog with ⟨post', rfl, hlog'⟩ | ⟨-, hx⟩
  · have hkept : Kept ((s.put t c.start).record [.called t c]) did session ([.called t c] ++ post') :=
      (h did session post' (.tail hquiet hlog')).append rfl (by simp)
    exact hkept
  · cases hx

theorem StaysIn.effect (h : StaysIn s) (htracks : Tracks s) (htask : s.tasks t = some task)
    (heffect : Effect config input s t task s') (hallowed : Uncontested s task input) :
  StaysIn s'
  := by
  rintro did session post ⟨⟨pre, hlog⟩, hquiet⟩
  obtain ⟨events, hevents, hchange, -⟩ := heffect.change did
  rw [hevents] at hlog
  cases hchange with
  | same hsessions hevents' =>
      rcases append_eq_append_cons hlog with ⟨post', rfl, hlog'⟩ | ⟨mid, hmid⟩
      · apply (h did session post' (.tail hquiet hlog')).append hsessions
        intro u old new hmem
        exact (hevents' _ hmem).2.2 u old new rfl
      · exfalso
        apply (hevents' (.stored did session) _).1 (.inl (.inr ⟨session, rfl⟩))
        rw [hmid]
        exact List.mem_append_right _ List.mem_cons_self
  | @refreshed old new hstoring hsessions =>
      rw [hstoring] at htask hallowed
      rcases cons_eq_append_cons hlog with ⟨post', rfl, hlog'⟩ | ⟨-, hx⟩
      · have hkept := h did session post' (.tail hquiet hlog')
        obtain ⟨hreread, hsince⟩ := reread_mem htracks htask hallowed hlog' (.inr ⟨session, rfl⟩)
        have hcurrent := htracks.current t _ did old htask rfl fun e he =>
          hquiet e (List.mem_append_right _ (hsince e he))
        obtain ⟨current, hcurrent', hchain⟩ := hkept.sessions
        rw [hcurrent] at hcurrent'
        cases hcurrent'
        constructor
        · refine ⟨new, hsessions, ?_⟩
          apply (hchain.lift id fun _ _ => RefreshedTo.append).tail
          exact ⟨t, List.mem_cons_self, List.mem_cons_of_mem _ hreread⟩
        · intro u old' new' hmem
          rcases List.mem_cons.mp hmem with heq | hmem
          · cases heq
            exact List.mem_cons_of_mem _ hreread
          · exact List.mem_cons_of_mem _ (hkept.refreshes u old' new' hmem)
      · cases hx
  | @removed e hevent hsessions =>
      have htouches : e.Touches did := by
        rcases hevent with rfl | rfl
        · exact .inl (.inl rfl)
        · exact .inr rfl
      rcases cons_eq_append_cons hlog with ⟨post', rfl, hlog'⟩ | ⟨-, rfl⟩
      · exact absurd htouches (hquiet e List.mem_cons_self)
      · rcases hevent with heq | heq
        · cases heq
        · cases heq
  | @stored session' hsessions =>
      rcases cons_eq_append_cons hlog with ⟨post', rfl, hlog'⟩ | ⟨rfl, hx⟩
      · exact absurd (.inl (.inr ⟨session', rfl⟩)) (hquiet _ List.mem_cons_self)
      · cases hx
        constructor
        · exact ⟨session, hsessions, .refl⟩
        · intro u old new hmem
          cases hmem

/-! ### Runs -/

/-- In a run in which no task stores refreshed tokens of a user whose session was replaced since,
users who have signed out stay so, and sessions that callbacks stored stay up to refreshes. -/
theorem steps_stay (hstart : start.Initial) (hsteps : Steps config Uncontested start s) :
  StaysOut s ∧ StaysIn s
  := by
  induction hsteps with
  | refl =>
      constructor
      · rintro did post ⟨⟨pre, hlog⟩, -⟩
        rw [hstart.log] at hlog
        exact absurd hlog.symm (by simp)
      · rintro did session post ⟨⟨pre, hlog⟩, -⟩
        rw [hstart.log] at hlog
        exact absurd hlog.symm (by simp)
  | @tail b _ hsteps hstep ih =>
      have htracks := (Tracks.initial hstart).steps hsteps
      cases hstep with
      | call c hnew => exact ⟨ih.1.call hnew htracks c, ih.2.call _ c⟩
      | @task t task input hrunning _ hallowed =>
          have heffect := stepTask_effect config input b t task
          exact ⟨ih.1.effect htracks hrunning heffect hallowed,
            ih.2.effect htracks hrunning heffect hallowed⟩

end Shrike.OAuth
