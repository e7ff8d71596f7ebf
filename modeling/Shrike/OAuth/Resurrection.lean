import Shrike.OAuth.SingleUse

/-!
# Sessions that come back

Without further conditions a refresh stores its session after the user has signed out. In the runs
in which this does not happen, signing out is final, and sessions only change as their users do.
-/

namespace Shrike.OAuth

open Bytes

variable {ν Key : Type}

/-- In every run in which no task stores refreshed tokens of a user whose session was replaced since
the task read it, users who have signed out have no session, and a session that a callback stored is
only replaced by refreshes of it. In every run in which the servers hand out every refresh token
once, no refresh token is part of two refreshes that are granted. -/
theorem steps_keepSessions (config : OAuthConfig ν Key) {start s : State Key}
    (hstart : start.Initial) :
  (Steps config Uncontested start s → StaysOut s ∧ StaysIn s) ∧
    (Distinct start → Steps config (HandedOutOnce config start) start s →
      (granted s.log).Nodup)
  := by
  constructor
  · exact steps_stay hstart
  · intro hdistinct hsteps
    exact (steps_single hstart hdistinct hsteps).nodup

namespace Sample

def alice : Bytes := ascii "did:plc:alice"

/-- A client that knows no keys but one. -/
def config : OAuthConfig ℕ Unit where
  url := Net.UrlLibrary.plain
  tokens := ⟨some, fun _ => .ok (ascii "https://auth.example")⟩
  keys := ⟨id, .ok, fun _ => List.replicate 32 1, fun _ => .ok ()⟩
  skipIssuerVerification := true
  addressPolicy := .denyLocal
  debug := id

/-- A session that has expired. -/
def expired : Session where
  dpopKeyBytes := List.replicate 32 1
  tokenSet := {
    issuer := ascii "https://auth.example"
    sub := alice
    aud := ascii "https://pds.example"
    scope := ascii "atproto"
    accessToken := ascii "a"
    tokenType := ascii "DPoP"
    expiresAt := some 0
    refreshToken := some (ascii "r")
    tokenEndpoint := ascii "https://auth.example/token"
    revocationEndpoint := [] }

/-- The answer to its refresh. -/
def refreshed : Response ℕ where
  status := 200
  body := .object [(ascii "access_token", .string (ascii "b")), (ascii "sub", .string alice),
    (ascii "scope", .string (ascii "atproto")), (ascii "refresh_token", .string (ascii "r'"))]

/-- The tokens of the answer. -/
def newTokens : TokenSet where
  issuer := ascii "https://auth.example"
  sub := alice
  aud := ascii "https://auth.example"
  scope := ascii "atproto"
  accessToken := ascii "b"
  tokenType := ascii "DPoP"
  expiresAt := none
  refreshToken := some (ascii "r'")
  tokenEndpoint := ascii "https://auth.example/token"
  revocationEndpoint := []

def input : Input ℕ where
  now := 1000
  taken := none
  answer := ⟨.ok refreshed, .ok refreshed, 1000⟩
  world := {
    protectedResource := fun _ => .error (.http [])
    authServer := fun _ => .error (.http [])
    lookupDid := fun _ => .error (.identity []) }

/-- The client of a user whose session has expired. -/
def start : State Unit where
  sessions := fun did => if did = alice then some expired else none
  refreshLock := none
  tasks := fun _ => none
  log := []

/-- A task goes on with what it is given. -/
def goWith (given : Input ℕ) (s : State Unit) (t : ℕ) : State Unit :=
  match s.tasks t with
  | some task => stepTask config s t task given
  | none => s

/-- A task goes on. -/
def go (s : State Unit) (t : ℕ) : State Unit := goWith input s t

variable {allowed : State Unit → Task Unit → Input ℕ → Prop}

variable {s : State Unit}

variable {task : Task Unit}

variable {given : Input ℕ}

theorem step_goWith (t : ℕ) (hrunning : s.tasks t = some task) (hready : task.Ready s)
    (hallowed : allowed s task given) :
  Step config allowed s (goWith given s t)
  := by
  rw [goWith, hrunning]
  exact .task given hrunning hready hallowed

theorem step_go (t : ℕ) (hrunning : s.tasks t = some task) (hready : task.Ready s)
    (hallowed : allowed s task input) :
  Step config allowed s (go s t)
  := step_goWith t hrunning hready hallowed

/-- The user's session is asked for. -/
def asked : State Unit :=
  (start.put 0 (.getSession alice .looking)).record [.called 0 (.getSession alice)]

/-- It is about to be refreshed. -/
def reread : State Unit := go (go (go asked 0) 0) 0

/-- The refresh is granted. -/
def answered : State Unit := go reread 0

theorem initial_start :
  start.Initial
  := ⟨rfl, fun _ => rfl, rfl⟩

theorem steps_answered (hlooking : allowed asked (.getSession alice .looking) input)
    (hlocking : allowed (go asked 0) (.getSession alice .locking) input)
    (hrereading : allowed (go (go asked 0) 0) (.getSession alice .rereading) input)
    (hrefreshing : allowed reread (.getSession alice (.refreshing expired () none)) input) :
  Steps config allowed start answered
  := by
  have hasked : Steps config allowed start asked := .single (.call (.getSession alice) rfl)
  have hlooked := hasked.tail (step_go 0 rfl trivial hlooking)
  have hlocked := hlooked.tail (step_go 0 rfl rfl hlocking)
  have hreread := hlocked.tail (step_go 0 rfl trivial hrereading)
  exact hreread.tail (step_go 0 rfl trivial hrefreshing)

/-- The session after the refresh. -/
def renewed : Session := ⟨List.replicate 32 1, newTokens⟩

/-- The user signs out before the refreshed session is stored. -/
def signedOut : State Unit :=
  go (go ((answered.put 1 (.signOut alice .reading)).record [.called 1 (.signOut alice)]) 1) 1

theorem steps_signedOut :
  Steps config (fun _ _ _ => True) start (go signedOut 0)
  := by
  have hanswered : Steps config (fun _ _ _ => True) start answered :=
    steps_answered trivial trivial trivial trivial
  have hcalled := hanswered.tail (.call (.signOut alice) (t := 1) rfl)
  have hread := hcalled.tail (step_go 1 rfl trivial trivial)
  have hdeleted := hread.tail (step_go 1 rfl trivial trivial)
  exact hdeleted.tail (step_go 0 rfl trivial trivial)

theorem signedOut_resurrected :
  start.Initial ∧ Steps config (fun _ _ _ => True) start (go signedOut 0) ∧
    SignedOutSince (go signedOut 0).log alice [.refreshed 0 alice expired renewed] ∧
    (go signedOut 0).sessions alice = some renewed ∧ ¬StaysOut (go signedOut 0)
  := by
  have hout : SignedOutSince (go signedOut 0).log alice [.refreshed 0 alice expired renewed] := by
    constructor
    · exact ⟨_, rfl⟩
    · intro session hmem
      cases List.mem_singleton.mp hmem
  have hstored : (go signedOut 0).sessions alice = some renewed := rfl
  refine ⟨initial_start, steps_signedOut, hout, hstored, ?_⟩
  intro hstays
  have hnone := (hstays alice _ hout).sessions
  rw [hstored] at hnone
  cases hnone

/-! ### A run with two users -/

def bob : Bytes := ascii "did:plc:bob"

/-- The flow of another user. -/
def flow : AuthState where
  issuer := ascii "https://auth.example"
  dpopKeyBytes := List.replicate 32 1
  authMethod := ascii "none"
  verifier := []
  redirectUri := []
  appState := []
  tokenEndpoint := ascii "https://auth.example/token"
  revocationEndpoint := []

/-- The other user comes back from the server. -/
def back : Call := .callback ⟨ascii "code", [], some (ascii "https://auth.example")⟩

/-- The answer to the other user's code. -/
def exchanged : Response ℕ where
  status := 200
  body := .object [(ascii "access_token", .string (ascii "c")), (ascii "sub", .string bob),
    (ascii "scope", .string (ascii "atproto")), (ascii "refresh_token", .string (ascii "s"))]

/-- The session of the other user. -/
def bobs : Session where
  dpopKeyBytes := List.replicate 32 1
  tokenSet := { newTokens with
    sub := bob, accessToken := ascii "c", refreshToken := some (ascii "s") }

/-- What the calls are given after the refresh. -/
def returning : Input ℕ :=
  { input with taken := some flow, answer := ⟨.ok exchanged, .ok exchanged, 1000⟩ }

/-- A task goes on after the refresh. -/
def resume (s : State Unit) (t : ℕ) : State Unit := goWith returning s t

/-- A call. -/
def calling (s : State Unit) (t : ℕ) (call : Call) : State Unit :=
  (s.put t call.start).record [.called t call]

/-- The refreshed session is stored, and the other user comes back. -/
def cameBack : State Unit := resume (calling (resume answered 0) 1 back) 1

/-- The session of the other user is stored. -/
def signedIn : State Unit := resume (resume (resume (resume (resume cameBack 1) 1) 1) 1) 1

/-- The first user signs out, and asks for the session. -/
def settled : State Unit :=
  resume (calling (resume (resume (calling signedIn 2 (.signOut alice)) 2) 2) 3
    (.getSession alice)) 3

/-- A task that waits for no tokens and is not about to store refreshed ones. -/
def Quiet (task : Task Unit) : Prop :=
  (∀ answer : TokenAnswer ℕ, task.received config answer = .error .noRefreshToken) ∧
    task.isStoring = false

theorem steps_settled (hquiet : ∀ s task given, Quiet task → allowed s task given)
    (hrefreshing : allowed reread (.getSession alice (.refreshing expired () none)) input)
    (hstoring : allowed answered (.getSession alice (.storing expired renewed)) returning)
    (hexchanging : allowed cameBack
      (.callback ⟨ascii "code", [], some (ascii "https://auth.example")⟩ (.exchanging flow ()))
      returning) :
  Steps config allowed start settled
  := by
  have hgo : ∀ {s : State Unit}, Steps config allowed start s → ∀ (t : ℕ) {task : Task Unit},
      s.tasks t = some task → task.Ready s → Quiet task →
      Steps config allowed start (resume s t) := by
    intro s hsteps t task hrunning hready hquiet'
    exact hsteps.tail (step_goWith t hrunning hready (hquiet s task returning hquiet'))
  have hanswered : Steps config allowed start answered :=
    steps_answered (hquiet _ _ _ ⟨fun _ => rfl, rfl⟩) (hquiet _ _ _ ⟨fun _ => rfl, rfl⟩)
      (hquiet _ _ _ ⟨fun _ => rfl, rfl⟩) hrefreshing
  have hstored : Steps config allowed start (resume answered 0) :=
    hanswered.tail (step_goWith 0 rfl trivial hstoring)
  have hcalled : Steps config allowed start (calling (resume answered 0) 1 back) :=
    hstored.tail (.call back rfl)
  have hbegun : Steps config allowed start cameBack :=
    hgo hcalled 1 rfl trivial ⟨fun _ => rfl, rfl⟩
  have hexchanged : Steps config allowed start (resume cameBack 1) :=
    hbegun.tail (step_goWith 1 rfl trivial hexchanging)
  have hverified := hgo hexchanged 1 rfl trivial ⟨fun _ => rfl, rfl⟩
  have hread := hgo hverified 1 rfl trivial ⟨fun _ => rfl, rfl⟩
  have hcleared := hgo hread 1 rfl trivial ⟨fun _ => rfl, rfl⟩
  have hset : Steps config allowed start signedIn := hgo hcleared 1 rfl trivial ⟨fun _ => rfl, rfl⟩
  have hleaving : Steps config allowed start (calling signedIn 2 (.signOut alice)) :=
    hset.tail (.call (.signOut alice) rfl)
  have hleft := hgo hleaving 2 rfl trivial ⟨fun _ => rfl, rfl⟩
  have hout := hgo hleft 2 rfl trivial ⟨fun _ => rfl, rfl⟩
  have hasked : Steps config allowed start (calling (resume (resume (calling signedIn 2
      (.signOut alice)) 2) 2) 3 (.getSession alice)) := hout.tail (.call (.getSession alice) rfl)
  exact hgo hasked 3 rfl trivial ⟨fun _ => rfl, rfl⟩

theorem steps_uncontested :
  Steps config Uncontested start settled
  := by
  have hnever : ∀ (s : State Unit) task (given : Input ℕ), task.isStoring = false →
      Uncontested s task given := by
    intro s task given hstoring did session newSession htask
    rw [htask] at hstoring
    cases hstoring
  apply steps_settled
  · intro s task given hquiet
    exact hnever s task given hquiet.2
  · exact hnever _ _ _ rfl
  · intro did session newSession htask e hmem hreplaces
    have hsince : sinceReread answered.log = [.issued (ascii "r'"), .granted (ascii "r")] := rfl
    rw [hsince] at hmem
    rcases hreplaces with rfl | ⟨session', rfl⟩
    · simp at hmem
    · simp at hmem
  · exact hnever _ _ _ rfl

theorem held_start {did r : Bytes} (h : start.held (.store did) = some r) :
  did = alice ∧ r = ascii "r"
  := by
  by_cases hdid : did = alice
  · rw [hdid] at h
    exact ⟨hdid, (Option.some.inj h).symm⟩
  · rw [State.held, show start.sessions did = none from if_neg hdid] at h
    cases h

theorem handedOutOnce {tokens : TokenSet}
    {r : Bytes} (hreceived : task.received config given.answer = .ok tokens)
    (htoken : tokens.refreshToken = some r) (hnew : r ≠ ascii "r") (hlog : .issued r ∉ s.log)
    (hsub : ∀ did session key verifiedPds,
      task = .getSession did (.refreshing session key verifiedPds) →
        tokens.sub = session.tokenSet.sub) :
  HandedOutOnce config start s task given
  := by
  constructor
  · intro tokens' htokens r' hr'
    rw [hreceived] at htokens
    cases htokens
    rw [htoken] at hr'
    cases hr'
    rintro (⟨did, hheld⟩ | hmem)
    · exact hnew (held_start hheld).2
    · exact hlog hmem
  · intro did session key verifiedPds tokens' htask htokens
    rw [hreceived] at htokens
    cases htokens
    exact hsub did session key verifiedPds htask

theorem steps_handedOutOnce :
  Steps config (HandedOutOnce config start) start settled
  := by
  have hidle : ∀ (s : State Unit) task given,
      task.received config given.answer = .error .noRefreshToken →
      HandedOutOnce config start s task given := by
    intro s task given hnone
    constructor
    · intro tokens hreceived
      rw [hnone] at hreceived
      cases hreceived
    · intro did session key verifiedPds tokens htask hreceived
      rw [hnone] at hreceived
      cases hreceived
  apply steps_settled
  · intro s task given hquiet
    exact hidle s task given (hquiet.1 given.answer)
  · apply @handedOutOnce reread _ input newTokens (ascii "r'") rfl rfl (by decide)
    · rw [show reread.log = [.reread 0 alice expired, .called 0 (.getSession alice)] from rfl]
      simp
    · intro did session key verifiedPds htask
      cases htask
      rfl
  · exact hidle _ _ _ rfl
  · apply @handedOutOnce cameBack _ returning bobs.tokenSet (ascii "s") rfl rfl (by decide)
    · rw [show cameBack.log = [.called 1 back, .refreshed 0 alice expired renewed,
        .issued (ascii "r'"), .granted (ascii "r"), .reread 0 alice expired,
        .called 0 (.getSession alice)] from rfl]
      simp [ascii]
    · intro did session key verifiedPds htask
      cases htask

theorem distinct_start :
  Distinct start
  := by
  intro did did' r hdid hdid'
  rw [(held_start hdid).1, (held_start hdid').1]

/-- The user who signed out gets no session, and the other one's is kept. -/
theorem settled_keepSessions :
  ((StaysOut settled ∧ StaysIn settled) ∧ (granted settled.log).Nodup) ∧
    SignedOutSince settled.log alice [.called 3 (.getSession alice)] ∧
      settled.tasks 3 = some (.getSession alice (.returned (.error (.noSession alice)))) ∧
      StoredSince settled.log bob bobs [.called 3 (.getSession alice), .signedOut alice,
        .called 2 (.signOut alice)] ∧ settled.sessions bob = some bobs
  := by
  have hkeep := steps_keepSessions config (s := settled) initial_start
  refine ⟨⟨hkeep.1 steps_uncontested, hkeep.2 distinct_start steps_handedOutOnce⟩,
    ⟨⟨_, rfl⟩, ?_⟩, rfl, ⟨⟨_, rfl⟩, ?_⟩, rfl⟩
  · intro session hmem
    simp at hmem
  · intro e hmem htouch
    rcases htouch with (rfl | ⟨session, rfl⟩) | rfl
    · simp [show bob ≠ alice by decide] at hmem
    · simp at hmem
    · simp at hmem

end Sample

end Shrike.OAuth
