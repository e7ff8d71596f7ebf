import Shrike.OAuth.Metadata

/-!
# The client

The calls of the client as tasks that interleave at every point where they wait: for the store of
sessions, for the lock of refreshes, and for the network.
-/

/-!
## Sessions

What is stored about a signed-in user, and about a flow that is not finished.
-/

namespace Shrike.OAuth

open Bytes
open Except (refuse)

/-- The keys of DPoP, and how their bytes are written as text. -/
structure KeyLibrary (Key : Type) where
  base64urlEncode : Bytes → Bytes
  base64urlDecode : Bytes → Except OAuthError Bytes
  toBytes : Key → Bytes
  fromBytes : Bytes → Except OAuthError Key

variable {Key : Type}

/-- The key that a text stores. -/
def KeyLibrary.recover (keys : KeyLibrary Key) (dpopKeyBytes : Bytes) : Except OAuthError Key := do
  let bytes ← keys.base64urlDecode dpopKeyBytes
  refuse (bytes.length ≠ 32) (.crypto (ascii "key must be 32 bytes"))
  keys.fromBytes bytes

/-- The session of a user. -/
structure Session where
  dpopKeyBytes : Bytes
  tokenSet : TokenSet
  deriving DecidableEq

/-- The key of a session. -/
def Session.dpopKey (keys : KeyLibrary Key) (session : Session) : Except OAuthError Key :=
  keys.recover session.dpopKeyBytes

/-- A session of a key and tokens. -/
def Session.fromKeyAndTokens (keys : KeyLibrary Key) (key : Key) (tokenSet : TokenSet) :
    Session where
  dpopKeyBytes := keys.base64urlEncode (keys.toBytes key)
  tokenSet := tokenSet

/-- What is stored between the start of a flow and its callback. -/
structure AuthState where
  issuer : Bytes
  dpopKeyBytes : Bytes
  authMethod : Bytes
  verifier : Bytes
  redirectUri : Bytes
  appState : Bytes
  tokenEndpoint : Bytes
  revocationEndpoint : Bytes
  deriving DecidableEq

/-- The key of a flow. -/
def AuthState.dpopKey (keys : KeyLibrary Key) (state : AuthState) : Except OAuthError Key :=
  keys.recover state.dpopKeyBytes

end Shrike.OAuth

/-! ## The client -/

namespace Shrike.OAuth

open Bytes Net Outbound Shrike.Syntax
open Except (ofOption refuse)

variable {ν Key : Type}

/-- The configuration of the client, with the libraries that it uses and the text of strings in
messages. -/
structure OAuthConfig (ν Key : Type) where
  url : Net.UrlLibrary
  tokens : TokenLibrary ν
  keys : KeyLibrary Key
  skipIssuerVerification : Bool
  addressPolicy : AddressPolicy
  debug : Bytes → Bytes

/-! ### Verification of the issuer -/

/-- A resolved identity: the endpoints of its services. -/
structure Identity where
  services : List (Bytes × Bytes)

/-- The endpoint of the server of repositories. -/
def Identity.pdsEndpoint (identity : Identity) : Option Bytes :=
  identity.services.lookup (ascii "#atproto_pds")

/-- What the network answers at one moment, with the identities that DIDs resolve to. -/
structure World extends Network where
  lookupDid : Did → Except OAuthError Identity

/-- Verify that the server of a user names an issuer as its authorization server. The result is the
URL of the server. -/
def verifyIssuerResolvePds (config : OAuthConfig ν Key) (world : World) (sub issuer : Bytes) :
    Except OAuthError Bytes := do
  let subDid ← (Did.tryFrom sub).mapError fun e =>
    OAuthError.identity (ascii "invalid sub DID: invalid DID: " ++ config.debug sub ++ ascii ": " ++
      ascii e)
  let identity ← world.lookupDid subDid
  let pdsUrl ← ofOption (.issuerVerification (ascii "no PDS endpoint in DID document"))
    identity.pdsEndpoint
  let resource ← fetchProtectedResourceMetadata config.url world.toNetwork config.addressPolicy
    pdsUrl
  let actualIssuer ← ofOption
    (.issuerVerification (ascii "no authorization servers in resource metadata"))
    resource.authorizationServers.head?
  refuse (actualIssuer ≠ issuer) (.issuerVerification
    (ascii "AS mismatch: expected " ++ issuer ++ ascii ", got " ++ actualIssuer))
  return pdsUrl

/-! ### The callback -/

/-- The parameters of a callback. -/
structure CallbackParams where
  code : Bytes
  state : Bytes
  iss : Option Bytes

/-- Check the issuer that a callback names against the one of its flow. -/
def checkIssuer (params : CallbackParams) (state : AuthState) : Except OAuthError Unit :=
  match params.iss with
  | some iss => refuse (iss ≠ state.issuer) (.issuerMismatch state.issuer iss)
  | none => .error .missingIssuer

/-- The start of a callback: take the state of its flow, check the issuer and recover the key. -/
def beginCallback (config : OAuthConfig ν Key) (params : CallbackParams)
    (taken : Option AuthState) : Except OAuthError (AuthState × Key) := do
  let state ← ofOption .invalidState taken
  checkIssuer params state
  let key ← state.dpopKey config.keys
  return (state, key)

/-- Exchange the code of a callback for tokens. -/
def exchangeCallback (config : OAuthConfig ν Key) (answer : TokenAnswer ν) (state : AuthState) :
    Except OAuthError TokenSet :=
  exchangeCode config.tokens answer state.tokenEndpoint state.revocationEndpoint

/-- Verify the issuer of the tokens, and bind them to the server of the user. -/
def verifyCallback (config : OAuthConfig ν Key) (world : World) (state : AuthState)
    (tokens : TokenSet) : Except OAuthError TokenSet := do
  if config.skipIssuerVerification then return tokens
  else
    let pdsUrl ← verifyIssuerResolvePds config world tokens.sub state.issuer
    return { tokens with aud := pdsUrl }

/-! ### Tasks -/

/-- Where a call of `getSession` waits, or what it returned. -/
inductive GetSession (Key : Type) where
  | looking
  | locking
  | rereading
  | verifying (session : Session) (key : Key)
  | refreshing (session : Session) (key : Key) (verifiedPds : Option Bytes)
  | storing (session newSession : Session)
  | returned (result : Except OAuthError Session)

/-- Where a call of `signOut` waits. The revocation of the token that was read changes nothing
here. -/
inductive SignOut where
  | reading
  | deleting
  | returned

/-- Where a call of `callback` waits, or what it returned. The revocation of the tokens that were
read, or that were not accepted, changes nothing here. -/
inductive Callback (Key : Type) where
  | taking
  | exchanging (state : AuthState) (key : Key)
  | verifying (state : AuthState) (key : Key) (tokens : TokenSet)
  | reading (key : Key) (tokens : TokenSet)
  | deleting (key : Key) (tokens : TokenSet)
  | setting (session : Session)
  | returned (result : Except OAuthError Session)

/-- A call that is under way. -/
inductive Task (Key : Type) where
  | getSession (did : Bytes) (phase : GetSession Key)
  | signOut (did : Bytes) (phase : SignOut)
  | callback (params : CallbackParams) (phase : Callback Key)

/-- The call of a task. -/
inductive Call where
  | getSession (did : Bytes)
  | signOut (did : Bytes)
  | callback (params : CallbackParams)

/-- The call of a task. -/
def Task.call : Task Key → Call
  | .getSession did _ => .getSession did
  | .signOut did _ => .signOut did
  | .callback params _ => .callback params

/-- The task of a call, before its first step. -/
def Call.start : Call → Task Key
  | .getSession did => .getSession did .looking
  | .signOut did => .signOut did .reading
  | .callback params => .callback params .taking

/-- Whether a task is past the lock of refreshes and has not returned. -/
def Task.holdsLock : Task Key → Bool
  | .getSession _ .rereading => true
  | .getSession _ (.verifying _ _) => true
  | .getSession _ (.refreshing _ _ _) => true
  | .getSession _ (.storing _ _) => true
  | _ => false

/-- What happened: a call, a session that is read in order to be refreshed, tokens that a server
handed out, a refresh that a server granted, and the changes of the store of sessions. -/
inductive Event where
  | called (task : ℕ) (call : Call)
  | reread (task : ℕ) (did : Bytes) (session : Session)
  | issued (refreshToken : Bytes)
  | granted (refreshToken : Bytes)
  | refreshed (task : ℕ) (did : Bytes) (session newSession : Session)
  | signedOut (did : Bytes)
  | cleared (did : Bytes)
  | stored (did : Bytes) (session : Session)

/-- The client: the store of sessions, the lock of refreshes, the calls, and what happened so far,
the latest first. -/
structure State (Key : Type) where
  sessions : Bytes → Option Session
  refreshLock : Option ℕ
  tasks : ℕ → Option (Task Key)
  log : List Event

/-- What a waiting call is given: the time, the state that is stored for a flow, the answer to a
token request, and the answers of the network. -/
structure Input (ν : Type) where
  now : ℕ
  taken : Option AuthState
  answer : TokenAnswer ν
  world : World

namespace State

/-- A task goes on. When it has returned, it releases the lock. -/
def put (s : State Key) (t : ℕ) (task : Task Key) : State Key :=
  { s with
    tasks := Function.update s.tasks t (some task)
    refreshLock := if s.refreshLock = some t ∧ task.holdsLock = false then none else s.refreshLock }

/-- Something happens. -/
def record (s : State Key) (events : List Event) : State Key := { s with log := events ++ s.log }

/-- Store or delete the session of a user. -/
def setSession (s : State Key) (did : Bytes) (session : Option Session) : State Key :=
  { s with sessions := Function.update s.sessions did session }

end State

/-! ### The steps of the calls -/

/-- The first look at the session. -/
def look (did : Bytes) (stored : Option Session) (now : ℕ) : GetSession Key :=
  match stored with
  | none => .returned (.error (.noSession did))
  | some session =>
      if !session.tokenSet.isStale now || session.tokenSet.refreshToken.isNone then
        .returned (.ok session)
      else .locking

/-- The second look at the session, with the lock. -/
def reread (config : OAuthConfig ν Key) (did : Bytes) (stored : Option Session) (now : ℕ) :
    GetSession Key :=
  match stored with
  | none => .returned (.error (.noSession did))
  | some session =>
      if !session.tokenSet.isStale now then .returned (.ok session)
      else
        match session.dpopKey config.keys with
        | .error e => .returned (.error e)
        | .ok key =>
            if config.skipIssuerVerification then .refreshing session key none
            else .verifying session key

/-- The verification of the issuer before a refresh. -/
def reverify (config : OAuthConfig ν Key) (world : World) (session : Session) (key : Key) :
    GetSession Key :=
  match verifyIssuerResolvePds config world session.tokenSet.sub session.tokenSet.issuer with
  | .error e => .returned (.error e)
  | .ok pdsUrl => .refreshing session key (some pdsUrl)

/-- The session of refreshed tokens, unless they are of another user. -/
def acceptRefreshed (config : OAuthConfig ν Key) (session : Session) (key : Key)
    (verifiedPds : Option Bytes) (newTokens : TokenSet) : GetSession Key :=
  if newTokens.sub ≠ session.tokenSet.sub then
    .returned (.error (.issuerVerification (ascii "refresh returned a different sub: expected " ++
      session.tokenSet.sub ++ ascii ", got " ++ newTokens.sub)))
  else
    .storing session (.fromKeyAndTokens config.keys key
      { newTokens with aud := verifiedPds.getD newTokens.aud })

/-- The tokens of a task's request, if it is waiting for some and gets them. -/
def Task.received (config : OAuthConfig ν Key) (answer : TokenAnswer ν) :
    Task Key → Except OAuthError TokenSet
  | .getSession _ (.refreshing session _ _) =>
      refreshTokens config.tokens answer session.tokenSet
  | .callback _ (.exchanging state _) => exchangeCallback config answer state
  | _ => .error .noRefreshToken

/-- What is recorded about tokens that a server hands out. -/
def issuedEvents (tokens : TokenSet) : List Event :=
  tokens.refreshToken.toList.map .issued

/-- A step of `getSession`. -/
def stepGetSession (config : OAuthConfig ν Key) (s : State Key) (t : ℕ) (did : Bytes)
    (phase : GetSession Key) (input : Input ν) : State Key :=
  match phase with
  | .looking => s.put t (.getSession did (look did (s.sessions did) input.now))
  | .locking => { s with refreshLock := some t }.put t (.getSession did .rereading)
  | .rereading =>
      let next := reread config did (s.sessions did) input.now
      let read : List Event :=
        match next with
        | .verifying session _ => [.reread t did session]
        | .refreshing session _ _ => [.reread t did session]
        | _ => []
      (s.put t (.getSession did next)).record read
  | .verifying session key =>
      s.put t (.getSession did (reverify config input.world session key))
  | .refreshing session key verifiedPds =>
      match refreshTokens config.tokens input.answer session.tokenSet with
      | .error e => s.put t (.getSession did (.returned (.error e)))
      | .ok newTokens =>
          (s.put t (.getSession did
            (acceptRefreshed config session key verifiedPds newTokens))).record
              (issuedEvents newTokens ++ session.tokenSet.refreshToken.toList.map .granted)
  | .storing session newSession =>
      ((s.setSession did (some newSession)).put t
        (.getSession did (.returned (.ok newSession)))).record [.refreshed t did session newSession]
  | .returned _ => s

/-- A step of `signOut`. -/
def stepSignOut (s : State Key) (t : ℕ) (did : Bytes) (phase : SignOut) : State Key :=
  match phase with
  | .reading => s.put t (.signOut did .deleting)
  | .deleting => ((s.setSession did none).put t (.signOut did .returned)).record [.signedOut did]
  | .returned => s

/-- A step of `callback`. -/
def stepCallback (config : OAuthConfig ν Key) (s : State Key) (t : ℕ) (params : CallbackParams)
    (phase : Callback Key) (input : Input ν) : State Key :=
  match phase with
  | .taking =>
      match beginCallback config params input.taken with
      | .error e => s.put t (.callback params (.returned (.error e)))
      | .ok (state, key) => s.put t (.callback params (.exchanging state key))
  | .exchanging state key =>
      match exchangeCallback config input.answer state with
      | .error e => s.put t (.callback params (.returned (.error e)))
      | .ok tokens =>
          (s.put t (.callback params (.verifying state key tokens))).record (issuedEvents tokens)
  | .verifying state key tokens =>
      match verifyCallback config input.world state tokens with
      | .error e => s.put t (.callback params (.returned (.error e)))
      | .ok tokens => s.put t (.callback params (.reading key tokens))
  | .reading key tokens => s.put t (.callback params (.deleting key tokens))
  | .deleting key tokens =>
      ((s.setSession tokens.sub none).put t (.callback params
        (.setting (.fromKeyAndTokens config.keys key tokens)))).record [.cleared tokens.sub]
  | .setting session =>
      ((s.setSession session.tokenSet.sub (some session)).put t
        (.callback params (.returned (.ok session)))).record
          [.stored session.tokenSet.sub session]
  | .returned _ => s

/-- A step of a task. -/
def stepTask (config : OAuthConfig ν Key) (s : State Key) (t : ℕ) (task : Task Key)
    (input : Input ν) : State Key :=
  match task with
  | .getSession did phase => stepGetSession config s t did phase input
  | .signOut did phase => stepSignOut s t did phase
  | .callback params phase => stepCallback config s t params phase input

/-- Whether a task can go on: one that waits for the lock goes on when nobody holds it. -/
def Task.Ready (s : State Key) : Task Key → Prop
  | .getSession _ .locking => s.refreshLock = none
  | _ => True

/-- The steps of the client whose tasks go on only as `allowed`: a call, and a step of a task. -/
inductive Step (config : OAuthConfig ν Key)
    (allowed : State Key → Task Key → Input ν → Prop) : State Key → State Key → Prop where
  | call {s : State Key} {t : ℕ} (call : Call) (new : s.tasks t = none) :
      Step config allowed s ((s.put t call.start).record [.called t call])
  | task {s : State Key} {t : ℕ} {task : Task Key} (input : Input ν)
      (running : s.tasks t = some task) (ready : task.Ready s) (ok : allowed s task input) :
      Step config allowed s (stepTask config s t task input)

/-- The runs of the client. -/
abbrev Steps (config : OAuthConfig ν Key) (allowed : State Key → Task Key → Input ν → Prop) :
    State Key → State Key → Prop :=
  Relation.ReflTransGen (Step config allowed)

/-- The client before its first call. -/
structure State.Initial (s : State Key) : Prop where
  refreshLock : s.refreshLock = none
  tasks : ∀ t, s.tasks t = none
  log : s.log = []

end Shrike.OAuth

/-!
## The start of a flow

How a user's server and its authorization server are found, what is stored for the callback, and
where the user is sent.
-/

namespace Shrike.OAuth

open Bytes Net Outbound Shrike.Syntax
open Except (bind_eq_ok mapError_eq_ok ofOption ofOption_eq_ok refuse refuse_eq_ok)

variable {ν Key : Type}

/-- How a flow is started. -/
structure AuthorizeOptions where
  input : Bytes
  redirectUri : Bytes
  scope : Option Bytes
  state : Option Bytes

/-- Where the user is sent, and the state of the flow. -/
structure AuthorizeResult where
  url : Bytes
  state : Bytes
  deriving DecidableEq

/-- What a client states about itself. -/
structure ClientMetadata where
  clientId : Bytes
  redirectUris : List Bytes
  scope : Bytes
  tokenEndpointAuthMethod : Bytes

/-- A client: its metadata, whether they agree with its key, the parameters that it adds to a
request in order to authenticate, its proofs of possession, and how URLs are written with a query
and texts as they are shown in errors. -/
structure Client (Key : Type) where
  metadata : ClientMetadata
  validateClientAuth : Except OAuthError Unit
  apply : Bytes → Except OAuthError (List (Bytes × Bytes))
  createDpopProof : Key → Bytes → Except OAuthError Bytes
  appendPairs : Url → List (Bytes × Bytes) → Bytes
  debug : Bytes → Bytes

/-- What is drawn at random for a flow: a key, the secret of the proof of key exchange and its hash,
and a state. -/
structure Chance (Key : Type) where
  dpopKey : Key
  verifier : Bytes
  challenge : Bytes
  state : Bytes

/-- The answers of the network while a flow starts. -/
structure AuthorizeWorld (ν : Type) extends World where
  resolveHandle : Bytes → Except OAuthError Did
  setState : Bytes → AuthState → Except OAuthError Unit
  push : Bytes → List (Bytes × Bytes) → Sent ν × Sent ν

/-- The DID that an input names. -/
def resolveInputToDid (world : AuthorizeWorld ν) (input : Bytes) : Except OAuthError Did :=
  match Did.tryFrom input with
  | .ok did => .ok did
  | .error _ => world.resolveHandle input

/-- The first authorization server of the server of a user. -/
def discoverIssuer (config : OAuthConfig ν Key) (world : World) (did : Did) :
    Except OAuthError Bytes := do
  let identity ← world.lookupDid did
  let pdsUrl ← ofOption (.identity (ascii "no PDS endpoint in DID document")) identity.pdsEndpoint
  let resource ← fetchProtectedResourceMetadata config.url world.toNetwork config.addressPolicy
    pdsUrl
  ofOption (.invalidMetadata (ascii "no authorization servers in resource metadata"))
    resource.authorizationServers.head?

/-- The authorization server of a user, as the user's server calls it and as it describes itself. -/
def discover (config : OAuthConfig ν Key) (client : Client Key) (world : World) (did : Did) :
    Except OAuthError (Bytes × AuthServerMetadata) := do
  let issuer ← discoverIssuer config world did
  let server ← fetchAuthServerMetadata config.url world.toNetwork config.addressPolicy issuer
  validateAuthServerMetadata server
  checkAuthServerEndpoints config.url client.debug server config.addressPolicy
  return (issuer, server)

/-- The name of a pushed request in the response to it. -/
def extractRequestUri (body : Json ν) : Except OAuthError Bytes :=
  ofOption (.oauthResponse (ascii "invalid_response")
    (ascii "missing or empty request_uri in PAR response")) (nonEmptyStr (body.index (ascii "request_uri")))

/-- Push a request, and once more if the server asks for its nonce. -/
def pushRequest (sent : Sent ν × Sent ν) : Except OAuthError Bytes := do
  let resp ← sent.1
  if isDpopNonceError resp then
    let resp ← sent.2
    if resp.isSuccess then extractRequestUri resp.body else .error (oauthErrorFromJson resp.body)
  else if resp.isSuccess then extractRequestUri resp.body
  else .error (oauthErrorFromJson resp.body)

/-- What is stored for the callback of a flow. -/
def AuthState.ofFlow (keys : KeyLibrary Key) (client : Client Key) (opts : AuthorizeOptions)
    (chance : Chance Key) (issuer : Bytes) (server : AuthServerMetadata) : AuthState where
  issuer := issuer
  dpopKeyBytes := keys.base64urlEncode (keys.toBytes chance.dpopKey)
  authMethod := client.metadata.tokenEndpointAuthMethod
  verifier := chance.verifier
  redirectUri := opts.redirectUri
  appState := opts.state.getD chance.state
  tokenEndpoint := server.tokenEndpoint
  revocationEndpoint := server.revocationEndpoint

/-- The parameters of the request that is pushed. -/
def parParams (client : Client Key) (opts : AuthorizeOptions) (chance : Chance Key) :
    List (Bytes × Bytes) :=
  [(ascii "response_type", ascii "code"), (ascii "code_challenge", chance.challenge),
    (ascii "code_challenge_method", ascii "S256"),
    (ascii "state", opts.state.getD chance.state), (ascii "redirect_uri", opts.redirectUri),
    (ascii "scope", opts.scope.getD client.metadata.scope), (ascii "login_hint", opts.input)]

/-- Start a flow. The result is what is stored for its callback, and where the user is sent. -/
def authorize (config : OAuthConfig ν Key) (client : Client Key) (world : AuthorizeWorld ν)
    (chance : Chance Key) (opts : AuthorizeOptions) :
    Except OAuthError (AuthState × AuthorizeResult) := do
  client.validateClientAuth
  refuse (client.metadata.redirectUris ≠ [] ∧ opts.redirectUri ∉ client.metadata.redirectUris)
    (.invalidMetadata (ascii "redirect_uri " ++ client.debug opts.redirectUri ++
      ascii " is not registered in client metadata"))
  let did ← resolveInputToDid world opts.input
  let (issuer, server) ← discover config client world.toWorld did
  let state := AuthState.ofFlow config.keys client opts chance issuer server
  world.setState state.appState state
  let parOrigin ← config.tokens.originFromUrl server.pushedAuthorizationRequestEndpoint
  let auth ← client.apply parOrigin
  let _ ← client.createDpopProof chance.dpopKey server.pushedAuthorizationRequestEndpoint
  let requestUri ← pushRequest
    (world.push server.pushedAuthorizationRequestEndpoint (parParams client opts chance ++ auth))
  let authUrl ← (config.url.parse server.authorizationEndpoint).mapError fun e =>
    OAuthError.http (ascii "invalid authorization endpoint URL: " ++ e)
  let url := client.appendPairs authUrl
    [(ascii "client_id", client.metadata.clientId), (ascii "request_uri", requestUri)]
  return (state, { url, state := state.appState })

/-- A flow that has started has found an authorization server, which calls itself as the user's
server calls it up to slashes at the end. -/
theorem authorize_ok {config : OAuthConfig ν Key} {client : Client Key} {world : AuthorizeWorld ν}
    {chance : Chance Key} {opts : AuthorizeOptions} {state : AuthState} {result : AuthorizeResult}
    (h : authorize config client world chance opts = .ok (state, result)) :
  ∃ did issuer server, resolveInputToDid world opts.input = .ok did ∧
    discover config client world.toWorld did = .ok (issuer, server) ∧
      state = AuthState.ofFlow config.keys client opts chance issuer server
  := by
  obtain ⟨-, -, h⟩ := bind_eq_ok.mp h
  obtain ⟨-, -, h⟩ := bind_eq_ok.mp h
  obtain ⟨did, hdid, h⟩ := bind_eq_ok.mp h
  obtain ⟨⟨issuer, server⟩, hdiscover, h⟩ := bind_eq_ok.mp h
  obtain ⟨-, -, h⟩ := bind_eq_ok.mp h
  obtain ⟨origin, -, h⟩ := bind_eq_ok.mp h
  obtain ⟨auth, -, h⟩ := bind_eq_ok.mp h
  obtain ⟨proof, -, h⟩ := bind_eq_ok.mp h
  obtain ⟨requestUri, -, h⟩ := bind_eq_ok.mp h
  obtain ⟨authUrl, -, h⟩ := bind_eq_ok.mp h
  cases h
  exact ⟨did, issuer, server, hdid, hdiscover, rfl⟩

end Shrike.OAuth
