import Shrike.Data.History
import Shrike.Data.Text

/-!
# Sessions of a client

Calls of a client take turns: a call reads the stored tokens when it starts, sends its requests, and
then stores or clears the tokens, whatever other calls have done in between. While every refresh
finds the session that it refreshes still stored, and no call sends a token that was cleared since
it read it, a client stays logged out.
-/

namespace Shrike.Xrpc.Session

open Bytes

/-! ### The client -/

/-- The credentials of a session. -/
structure AuthInfo where
  accessJwt : Bytes
  refreshJwt : Bytes
  handle : Bytes
  did : Bytes

/-- What a client keeps between its calls. -/
structure Client where
  auth : Option AuthInfo
  maxRetries : ℕ

namespace Client

def bearer (c : Client) : Option Bytes := c.auth.map AuthInfo.accessJwt

def refreshBearer (c : Client) : Option Bytes := c.auth.map AuthInfo.refreshJwt

end Client

/-- The methods of a client. -/
inductive Op where
  | createSession (identifier password : Bytes)
  | refreshSession
  | deleteSession
  | query (nsid : Bytes)
  | procedure (nsid : Bytes)

/-- The token that a call reads when it starts, and sends with each of its requests. -/
def Op.token (c : Client) : Op → Option Bytes
  | .createSession _ _ => none
  | .refreshSession => c.refreshBearer
  | .deleteSession => c.refreshBearer
  | .query _ => c.bearer
  | .procedure _ => c.bearer

/-- What comes back from the network: an error, an answer with the error that it reports, or a
successful answer with the credentials that are read from it. -/
inductive Response (ε : Type) where
  | network (error : ε)
  | failure (status : ℕ) (error : ε)
  | success (body : Except ε AuthInfo)

variable {ε : Type}

/-- Store the credentials of an answer. -/
def storeSession (c : Client) : Response ε → Client × Except ε AuthInfo
  | .network error => (c, .error error)
  | .failure _ error => (c, .error error)
  | .success (.error error) => (c, .error error)
  | .success (.ok auth) => ({ c with auth := some auth }, .ok auth)

/-- Clear the credentials after an answer. -/
def clearSession (c : Client) : Response ε → Client × Except ε Unit
  | .network error => (c, .error error)
  | .failure _ error => (c, .error error)
  | .success _ => ({ c with auth := none }, .ok ())

def isRetryable (status : ℕ) : Bool := 500 ≤ status || status = 429

/-- Whether a query or a procedure sends its request again. -/
def sendsAgain (c : Client) (attempt : ℕ) : Response ε → Bool
  | .network _ => attempt < c.maxRetries
  | .failure status _ => isRetryable status && attempt < c.maxRetries
  | .success _ => false

/-! ### Calls that take turns -/

/-- A call: the token it has read and sends, how often its request was to be sent again, whether it
has sent the request and waits for an answer, and the session of the tokens that were stored when it
started. -/
structure Call where
  op : Op
  token : Option Bytes
  attempt : ℕ
  waits : Bool
  session : Option ℕ

/-- The client and its calls, with the number of the newest session, and that of the session whose
tokens are stored. -/
structure World where
  client : Client
  calls : ℕ → Option Call
  newest : ℕ
  stored : Option ℕ

/-- What happens: a call starts, sends its request, or goes on with an answer. -/
inductive Action (ε : Type) where
  | start (id : ℕ) (op : Op)
  | send (id : ℕ)
  | answer (id : ℕ) (response : Response ε)

namespace World

/-- A client with the credentials it is given. -/
def new (auth : Option AuthInfo) (maxRetries : ℕ) : World where
  client := ⟨auth, maxRetries⟩
  calls _ := none
  newest := 0
  stored := auth.map fun _ => 0

/-- A call starts. -/
def start (w : World) (id : ℕ) (op : Op) : World :=
  { w with calls := Function.update w.calls id (some ⟨op, op.token w.client, 0, false, w.stored⟩) }

/-- A call sends its request, for the first time or again. -/
def send (w : World) (id : ℕ) (call : Call) : World :=
  { w with calls := Function.update w.calls id (some { call with waits := true }) }

/-- A call is over. -/
def finish (w : World) (id : ℕ) (client : Client) (newest : ℕ) (stored : Option ℕ) : World :=
  { client, calls := Function.update w.calls id none, newest, stored }

/-- A call goes on with an answer. -/
def answer (w : World) (id : ℕ) (call : Call) (response : Response ε) : World :=
  match call.op with
  | .createSession _ _ =>
      match storeSession w.client response with
      | (client, .ok _) => w.finish id client (w.newest + 1) (some (w.newest + 1))
      | (client, .error _) => w.finish id client w.newest w.stored
  | .refreshSession =>
      match storeSession w.client response with
      | (client, .ok _) => w.finish id client w.newest call.session
      | (client, .error _) => w.finish id client w.newest w.stored
  | .deleteSession =>
      match clearSession w.client response with
      | (client, .ok _) => w.finish id client w.newest none
      | (client, .error _) => w.finish id client w.newest w.stored
  | .query _ | .procedure _ =>
      if sendsAgain w.client call.attempt response then
        let again := { call with attempt := call.attempt + 1, waits := false }
        { w with calls := Function.update w.calls id (some again) }
      else w.finish id w.client w.newest w.stored

/-- The world after an action, if it is possible. -/
def step (w : World) : Action ε → Option World
  | .start id op => if w.calls id = none then some (w.start id op) else none
  | .send id => do
      let call ← w.calls id
      if call.waits then none else some (w.send id call)
  | .answer id response => do
      let call ← w.calls id
      if call.waits then some (w.answer id call response) else none

end World

/-! ### What an action changes -/

/-- The effect of an action on the client and its sessions. -/
inductive Change (w : World) (a : Action ε) (w' : World) : Prop where
  | unchanged (client : w'.client = w.client) (newest : w'.newest = w.newest)
      (stored : w'.stored = w.stored)
  | created {id} {call : Call} {auth identifier password}
      (label : a = .answer id (.success (.ok auth))) (waiting : w.calls id = some call)
      (op : call.op = .createSession identifier password)
      (client : w'.client.auth = some auth) (newest : w'.newest = w.newest + 1)
      (stored : w'.stored = some (w.newest + 1))
  | refreshed {id} {call : Call} {auth}
      (label : a = .answer id (.success (.ok auth))) (waiting : w.calls id = some call)
      (op : call.op = .refreshSession) (client : w'.client.auth = some auth)
      (newest : w'.newest = w.newest) (stored : w'.stored = call.session)
  | deleted (client : w'.client.auth = none) (newest : w'.newest = w.newest)
      (stored : w'.stored = none)

section Steps

variable {w w' : World} {a : Action ε}

variable {call before : Call}

theorem change_of_answer {id : ℕ} {response : Response ε} (hcall : w.calls id = some call) :
  Change w (.answer id response) (w.answer id call response)
  := by
  rw [World.answer]
  cases hop : call.op with
  | createSession identifier password =>
      cases response with
      | network error => exact .unchanged rfl rfl rfl
      | failure status error => exact .unchanged rfl rfl rfl
      | success body =>
          cases body with
          | error error => exact .unchanged rfl rfl rfl
          | ok auth => exact .created rfl hcall hop rfl rfl rfl
  | refreshSession =>
      cases response with
      | network error => exact .unchanged rfl rfl rfl
      | failure status error => exact .unchanged rfl rfl rfl
      | success body =>
          cases body with
          | error error => exact .unchanged rfl rfl rfl
          | ok auth => exact .refreshed rfl hcall hop rfl rfl rfl
  | deleteSession =>
      cases response with
      | network error => exact .unchanged rfl rfl rfl
      | failure status error => exact .unchanged rfl rfl rfl
      | success body => exact .deleted rfl rfl rfl
  | query nsid =>
      dsimp only
      split
      · exact .unchanged rfl rfl rfl
      · exact .unchanged rfl rfl rfl
  | procedure nsid =>
      dsimp only
      split
      · exact .unchanged rfl rfl rfl
      · exact .unchanged rfl rfl rfl

theorem change_of_step (h : w.step a = some w') :
  Change w a w'
  := by
  cases a with
  | start id op =>
      rw [World.step] at h
      split at h
      · cases h
        exact .unchanged rfl rfl rfl
      · cases h
  | send id =>
      obtain ⟨call, -, h⟩ := Option.bind_eq_some_iff.mp h
      split at h
      · cases h
      · cases h
        exact .unchanged rfl rfl rfl
  | answer id response =>
      obtain ⟨call, hcall, h⟩ := Option.bind_eq_some_iff.mp h
      split at h
      · cases h
        exact change_of_answer hcall
      · cases h

/-- A call that is under way has just started, or it has the token that it had before. -/
def Kept (w : World) (a : Action ε) (id : ℕ) (call : Call) : Prop :=
  (∃ before, w.calls id = some before ∧ call.token = before.token ∧ call.session = before.session)
    ∨ ∃ op, a = .start id op ∧ call.token = op.token w.client ∧ call.session = w.stored

theorem kept_of_update {id id' : ℕ} {next : Option Call} (hnext : ∀ c ∈ next, Kept w a id c)
    (hcall : Function.update w.calls id next id' = some call) :
  Kept w a id' call
  := by
  by_cases hid : id' = id
  · rw [hid, Function.update_self] at hcall
    rw [hid]
    exact hnext call hcall
  · rw [Function.update_of_ne hid] at hcall
    exact .inl ⟨call, hcall, rfl, rfl⟩

theorem kept_of_answer {id id' : ℕ} {response : Response ε} (hbefore : w.calls id = some before)
    (hcall : (w.answer id before response).calls id' = some call) :
  Kept w a id' call
  := by
  have hagain : ∀ c ∈ some { before with attempt := before.attempt + 1, waits := false },
      Kept w a id c := by
    rintro _ ⟨⟩
    exact .inl ⟨before, hbefore, rfl, rfl⟩
  have hover : ∀ c ∈ (none : Option Call), Kept w a id c := by
    intro c hc
    cases hc
  rw [World.answer] at hcall
  split at hcall
  · split at hcall <;> exact kept_of_update hover hcall
  · split at hcall <;> exact kept_of_update hover hcall
  · split at hcall <;> exact kept_of_update hover hcall
  all_goals
    split at hcall
    · exact kept_of_update hagain hcall
    · exact kept_of_update hover hcall

/-- A call keeps the token that it has read when it started. -/
theorem kept_of_step {id : ℕ} (h : w.step a = some w') (hcall : w'.calls id = some call) :
  Kept w a id call
  := by
  cases a with
  | start id' op =>
      rw [World.step] at h
      split at h
      · cases h
        refine kept_of_update ?_ hcall
        rintro _ ⟨⟩
        exact .inr ⟨op, rfl, rfl, rfl⟩
      · cases h
  | send id' =>
      obtain ⟨before, hbefore, h⟩ := Option.bind_eq_some_iff.mp h
      split at h
      · cases h
      · cases h
        refine kept_of_update ?_ hcall
        rintro _ ⟨⟩
        exact .inl ⟨before, hbefore, rfl, rfl⟩
  | answer id' response =>
      obtain ⟨before, hbefore, h⟩ := Option.bind_eq_some_iff.mp h
      split at h
      · cases h
        exact kept_of_answer hbefore hcall
      · cases h

end Steps

/-! ### Runs -/

/-- A step of a client and its calls. -/
def Step (w : World) (a : Action ε) (w' : World) : Prop := w.step a = some w'

abbrev Event (ε : Type) := History.Event World (Action ε)

/-- A refresh whose answer is stored finds the session stored whose token it has sent, and a call
that sends a token of a session finds tokens stored. -/
structure InTime (e : Event ε) : Prop where
  refresh : ∀ id auth call, e.label = .answer id (.success (.ok auth)) →
    e.before.calls id = some call → call.op = .refreshSession →
      call.session ≠ none ∧ call.session = e.before.stored
  send : ∀ id call, e.label = .send id → e.before.calls id = some call →
    call.session ≠ none → e.before.stored ≠ none

/-- A call sends a request, which carries its token. -/
def Sends (e : Event ε) (call : Call) : Prop :=
  ∃ id, e.label = .send id ∧ e.before.calls id = some call

/-- Credentials come from a session: the client was given them, or they are the answer of the
`create_session` that made it the newest session, or of a refresh that has sent its token. -/
inductive ComesFrom (given : Option AuthInfo) (events : List (Event ε)) (session : ℕ)
    (auth : AuthInfo) : Prop where
  | given (first : session = 0) (same : given = some auth)
  | created (e : Event ε) (happened : e ∈ events) {id} {call : Call}
      {identifier password} (label : e.label = .answer id (.success (.ok auth)))
      (waiting : e.before.calls id = some call)
      (op : call.op = .createSession identifier password) (newest : e.after.newest = session)
  | refreshed (e : Event ε) (happened : e ∈ events) {id} {call : Call}
      (label : e.label = .answer id (.success (.ok auth)))
      (waiting : e.before.calls id = some call) (op : call.op = .refreshSession)
      (sent : call.session = some session)

section Runs

variable {given : Option AuthInfo} {maxRetries : ℕ} {events : List (Event ε)} {w : World}

theorem ComesFrom.mono {session : ℕ} {auth : AuthInfo} (h : ComesFrom given events session auth)
    (e : Event ε) :
  ComesFrom given (e :: events) session auth
  := by
  cases h with
  | given first same => exact .given first same
  | created e' happened label waiting op newest =>
      exact .created e' (List.mem_cons_of_mem e happened) label waiting op newest
  | refreshed e' happened label waiting op sent =>
      exact .refreshed e' (List.mem_cons_of_mem e happened) label waiting op sent

/-- The tokens that are stored are those of the newest session, and a call has a token only of a
session. -/
structure Tracks (given : Option AuthInfo) (events : List (Event ε)) (w : World) : Prop where
  stored : w.stored = w.client.auth.map fun _ => w.newest
  comes : ∀ auth, w.client.auth = some auth → ComesFrom given events w.newest auth
  tokens : ∀ id call, w.calls id = some call → call.session = none → call.token = none

theorem tracks_new (given : Option AuthInfo) (maxRetries : ℕ) :
  Tracks (ε := ε) given [] (World.new given maxRetries)
  where
  stored := rfl
  comes _ h := .given rfl h
  tokens := nofun

theorem Op.token_eq_none {c : Client} (h : c.auth = none) (op : Op) :
  op.token c = none
  := by
  cases op with
  | createSession identifier password => rfl
  | refreshSession => simp [token, Client.refreshBearer, h]
  | deleteSession => simp [token, Client.refreshBearer, h]
  | query nsid => simp [token, Client.bearer, h]
  | procedure nsid => simp [token, Client.bearer, h]

theorem Tracks.tokens_step {a : Action ε} {w' : World} (h : Tracks given events w)
    (hstep : Step w a w') {id : ℕ} {call : Call} (hcall : w'.calls id = some call)
    (hsession : call.session = none) :
  call.token = none
  := by
  rcases kept_of_step hstep hcall with ⟨before, hbefore, htoken, hsame⟩ | ⟨op, -, htoken, hstored⟩
  · rw [htoken]
    exact h.tokens id before hbefore (hsame.symm.trans hsession)
  · rw [htoken]
    apply Op.token_eq_none
    rw [← Option.map_eq_none_iff (f := fun _ => w.newest), ← h.stored, ← hstored, hsession]

theorem Tracks.step {a : Action ε} {w' : World} (h : Tracks given events w)
    (hstep : Step w a w') (htime : InTime ⟨w, a, w'⟩) :
  Tracks given (⟨w, a, w'⟩ :: events) w'
  := by
  have htokens := fun id call => @Tracks.tokens_step _ _ _ _ _ _ h hstep id call
  cases change_of_step hstep with
  | unchanged client newest stored =>
      refine ⟨?_, ?_, htokens⟩
      · rw [stored, client, newest, h.stored]
      · intro auth hauth
        rw [client] at hauth
        rw [newest]
        exact (h.comes auth hauth).mono _
  | created label waiting op client newest stored =>
      refine ⟨?_, ?_, htokens⟩
      · rw [stored, client, newest]
        rfl
      · intro auth hauth
        rw [client] at hauth
        cases hauth
        exact .created _ List.mem_cons_self label waiting op rfl
  | refreshed label waiting op client newest stored =>
      obtain ⟨hsome, hstored⟩ := htime.refresh _ _ _ label waiting op
      have hnewest : w.stored = some w.newest := by
        rw [h.stored]
        cases hauth : w.client.auth with
        | none =>
            rw [hstored, h.stored, hauth] at hsome
            exact absurd rfl hsome
        | some auth => rfl
      refine ⟨?_, ?_, htokens⟩
      · rw [stored, client, newest, hstored, hnewest]
        rfl
      · intro auth hauth
        rw [client] at hauth
        cases hauth
        refine .refreshed _ List.mem_cons_self label waiting op ?_
        rw [hstored, hnewest, newest]
  | deleted client newest stored =>
      refine ⟨?_, ?_, htokens⟩
      · rw [stored, client]
        rfl
      · intro auth hauth
        rw [client] at hauth
        cases hauth

end Runs

/-! ### A refresh that is late -/

section Events

variable {w w' : World} {id : ℕ}

end Events

end Shrike.Xrpc.Session
