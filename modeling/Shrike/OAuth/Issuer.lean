import Shrike.OAuth.Tasks

/-!
# The issuer of a flow

An authorization server has three names: the one by which the server of a user lists it, the one
that it gives itself, and the one that its token responses carry. A flow keeps to one issuer exactly
when the three are the same text.
-/

namespace Shrike.OAuth

open Bytes Net Outbound Shrike.Syntax
open Except (bind_eq_ok mapError_eq_ok ofOption ofOption_eq_ok refuse refuse_eq_ok)

variable {ν Key : Type}

/-! ### The name in a token response -/

/-- The response to a token request that is read. -/
def TokenAnswer.body (answer : TokenAnswer ν) : Except OAuthError (Json ν) := do
  let resp ← answer.first
  if isDpopNonceError resp then
    let resp ← answer.retry
    return resp.body
  else return resp.body

/-- The issuer that a token response names, or else the origin of the endpoint that it came from. -/
def responseIssuer (lib : TokenLibrary ν) (body : Json ν) (tokenEndpoint : Bytes) : Bytes :=
  (body.index (ascii "iss")).asStr.getD ((lib.originFromUrl tokenEndpoint).toOption.getD [])

/-- The answer to a token request names an issuer. -/
def TokenAnswer.Names (lib : TokenLibrary ν) (answer : TokenAnswer ν)
    (tokenEndpoint issuer : Bytes) : Prop :=
  ∃ body, answer.body = .ok body ∧ responseIssuer lib body tokenEndpoint = issuer

variable {world : World} {current session newSession : Session} {lib : TokenLibrary ν}
  {sub issuer issuer' pdsUrl pdsUrl' tokenEndpoint revocationEndpoint : Bytes} {tokens : TokenSet}

theorem parseTokenResponse_ok {now : ℕ} {body : Json ν}
    (h : parseTokenResponse lib now body tokenEndpoint revocationEndpoint = .ok tokens) :
  tokens.issuer = responseIssuer lib body tokenEndpoint ∧ tokens.tokenEndpoint = tokenEndpoint
  := by
  obtain ⟨accessToken, -, h⟩ := bind_eq_ok.mp h
  obtain ⟨sub, -, h⟩ := bind_eq_ok.mp h
  obtain ⟨-, -, h⟩ := bind_eq_ok.mp h
  obtain ⟨-, -, h⟩ := bind_eq_ok.mp h
  cases h
  exact ⟨rfl, rfl⟩

theorem readTokenResponse_ok {now : ℕ} {resp : Response ν}
    (h : readTokenResponse lib now resp tokenEndpoint revocationEndpoint = .ok tokens) :
  tokens.issuer = responseIssuer lib resp.body tokenEndpoint ∧ tokens.tokenEndpoint = tokenEndpoint
  := by
  rw [readTokenResponse] at h
  split_ifs at h
  exact parseTokenResponse_ok h

variable {last answer : TokenAnswer ν}

/-- Tokens are of the issuer that the answer names. -/
theorem postTokenRequest_names
    (h : postTokenRequest lib answer tokenEndpoint revocationEndpoint = .ok tokens) :
  (∀ issuer, answer.Names lib tokenEndpoint issuer ↔ tokens.issuer = issuer) ∧
    tokens.tokenEndpoint = tokenEndpoint
  := by
  obtain ⟨resp, hfirst, h⟩ := bind_eq_ok.mp h
  have hread : ∃ body, answer.body = .ok body ∧
      tokens.issuer = responseIssuer lib body tokenEndpoint ∧
        tokens.tokenEndpoint = tokenEndpoint := by
    rw [TokenAnswer.body, hfirst, Except.ok_bind]
    split_ifs at h ⊢
    · obtain ⟨retry, hretry, h⟩ := bind_eq_ok.mp h
      rw [hretry]
      exact ⟨retry.body, rfl, readTokenResponse_ok h⟩
    · exact ⟨resp.body, rfl, readTokenResponse_ok h⟩
  obtain ⟨body, hbody, hissuer, hendpoint⟩ := hread
  refine ⟨?_, hendpoint⟩
  intro issuer
  rw [hissuer]
  constructor
  · rintro ⟨body', hbody', hnames⟩
    rw [hbody] at hbody'
    cases hbody'
    exact hnames
  · intro hnames
    exact ⟨body, hbody, hnames⟩

/-! ### Verification -/

/-- A user resolves to a server, which lists an authorization server first. -/
def Resolves (config : OAuthConfig ν Key) (world : World) (sub pdsUrl issuer : Bytes) : Prop :=
  ∃ did identity resource, Did.tryFrom sub = .ok did ∧ world.lookupDid did = .ok identity ∧
    identity.pdsEndpoint = some pdsUrl ∧
      fetchProtectedResourceMetadata config.url world.toNetwork config.addressPolicy pdsUrl =
        .ok resource ∧
        resource.authorizationServers.head? = some issuer

variable {config : OAuthConfig ν Key}

theorem verifyIssuerResolvePds_eq_ok :
  verifyIssuerResolvePds config world sub issuer = .ok pdsUrl ↔
    Resolves config world sub pdsUrl issuer
  := by
  constructor
  · intro h
    obtain ⟨did, hdid, h⟩ := bind_eq_ok.mp h
    obtain ⟨identity, hidentity, h⟩ := bind_eq_ok.mp h
    obtain ⟨pdsUrl', hpds, h⟩ := bind_eq_ok.mp h
    obtain ⟨resource, hresource, h⟩ := bind_eq_ok.mp h
    obtain ⟨actualIssuer, hactual, h⟩ := bind_eq_ok.mp h
    obtain ⟨u, hrefuse, h⟩ := bind_eq_ok.mp h
    cases h
    rw [ofOption_eq_ok] at hpds hactual
    rw [refuse_eq_ok, not_not] at hrefuse
    rw [hrefuse] at hactual
    exact ⟨did, identity, resource, mapError_eq_ok.mp hdid, hidentity, hpds, hresource, hactual⟩
  · rintro ⟨did, identity, resource, hdid, hidentity, hpds, hresource, hactual⟩
    rw [verifyIssuerResolvePds, hdid]
    refine bind_eq_ok.mpr ⟨did, rfl, ?_⟩
    refine bind_eq_ok.mpr ⟨identity, hidentity, ?_⟩
    refine bind_eq_ok.mpr ⟨pdsUrl, ofOption_eq_ok.mpr hpds, ?_⟩
    refine bind_eq_ok.mpr ⟨resource, hresource, ?_⟩
    refine bind_eq_ok.mpr ⟨issuer, ofOption_eq_ok.mpr hactual, ?_⟩
    exact bind_eq_ok.mpr ⟨(), refuse_eq_ok.mpr (not_not_intro rfl), rfl⟩

theorem Resolves.unique (h : Resolves config world sub pdsUrl issuer)
    (h' : Resolves config world sub pdsUrl' issuer') :
  pdsUrl = pdsUrl' ∧ issuer = issuer'
  := by
  obtain ⟨did, identity, resource, hdid, hidentity, hpds, hresource, hhead⟩ := h
  obtain ⟨did', identity', resource', hdid', hidentity', hpds', hresource', hhead'⟩ := h'
  rw [hdid] at hdid'
  cases hdid'
  rw [hidentity] at hidentity'
  cases hidentity'
  rw [hpds] at hpds'
  cases hpds'
  rw [hresource] at hresource'
  cases hresource'
  rw [hhead] at hhead'
  cases hhead'
  exact ⟨rfl, rfl⟩

/-! ### Callbacks and refreshes as a whole -/

/-- A callback, for which `taken` is stored. -/
def callback (config : OAuthConfig ν Key) (params : CallbackParams) (taken : Option AuthState)
    (answer : TokenAnswer ν) (world : World) : Except OAuthError Session := do
  let (state, key) ← beginCallback config params taken
  let tokens ← exchangeCallback config answer state
  let tokens ← verifyCallback config world state tokens
  return .fromKeyAndTokens config.keys key tokens

/-- A session is refreshed with an answer. -/
def RefreshedBy (config : OAuthConfig ν Key) (session : Session) (answer : TokenAnswer ν)
    (newSession : Session) : Prop :=
  ∃ key verifiedPds newTokens,
    refreshTokens config.tokens answer session.tokenSet = .ok newTokens ∧
      acceptRefreshed config session key verifiedPds newTokens = .storing session newSession

theorem callback_ok {params : CallbackParams} {state : AuthState}
    (hverify : config.skipIssuerVerification = false)
    (h : callback config params (some state) answer world = .ok session) :
  (∃ pdsUrl, Resolves config world session.tokenSet.sub pdsUrl state.issuer ∧
    session.tokenSet.aud = pdsUrl) ∧
  (∀ issuer, answer.Names config.tokens state.tokenEndpoint issuer ↔
    session.tokenSet.issuer = issuer) ∧
  session.tokenSet.tokenEndpoint = state.tokenEndpoint
  := by
  obtain ⟨⟨state', key⟩, hbegin, h⟩ := bind_eq_ok.mp h
  obtain ⟨tokens, hexchange, h⟩ := bind_eq_ok.mp h
  obtain ⟨bound, hbound, h⟩ := bind_eq_ok.mp h
  cases h
  obtain ⟨state'', hstate, hbegin⟩ := bind_eq_ok.mp hbegin
  cases hstate
  obtain ⟨u, hcheck, hbegin⟩ := bind_eq_ok.mp hbegin
  obtain ⟨key', hkey, hbegin⟩ := bind_eq_ok.mp hbegin
  cases hbegin
  rw [verifyCallback, hverify, if_neg Bool.false_ne_true] at hbound
  obtain ⟨pdsUrl, hpds, hbound⟩ := bind_eq_ok.mp hbound
  cases hbound
  have hnames := postTokenRequest_names hexchange
  exact ⟨⟨pdsUrl, verifyIssuerResolvePds_eq_ok.mp hpds, rfl⟩, hnames.1, hnames.2⟩

theorem RefreshedBy.names (h : RefreshedBy config session answer newSession) :
  newSession.tokenSet.sub = session.tokenSet.sub ∧
    (∀ issuer, answer.Names config.tokens session.tokenSet.tokenEndpoint issuer ↔
      newSession.tokenSet.issuer = issuer) ∧
    newSession.tokenSet.tokenEndpoint = session.tokenSet.tokenEndpoint
  := by
  obtain ⟨key, verifiedPds, newTokens, hrefresh, haccept⟩ := h
  rw [acceptRefreshed] at haccept
  split_ifs at haccept with hsub
  cases haccept
  rw [refreshTokens] at hrefresh
  split at hrefresh
  · cases hrefresh
  · have hnames := postTokenRequest_names hrefresh
    exact ⟨of_not_not hsub, hnames.1, hnames.2⟩

/-- A session that was stored with one answer and, maybe refreshed since, is the result of
another. -/
inductive Later (config : OAuthConfig ν Key) (session : Session) (answer : TokenAnswer ν) :
    Session → TokenAnswer ν → Prop where
  | stored : Later config session answer session answer
  | refreshed {current newSession last newAnswer} (later : Later config session answer current last)
      (refresh : RefreshedBy config current newAnswer newSession) :
      Later config session answer newSession newAnswer

theorem Later.names (h : Later config session answer current last)
    (hnames : ∀ issuer, answer.Names config.tokens session.tokenSet.tokenEndpoint issuer ↔
      session.tokenSet.issuer = issuer) :
  current.tokenSet.sub = session.tokenSet.sub ∧
    (∀ issuer, last.Names config.tokens session.tokenSet.tokenEndpoint issuer ↔
      current.tokenSet.issuer = issuer) ∧
    current.tokenSet.tokenEndpoint = session.tokenSet.tokenEndpoint
  := by
  induction h with
  | stored => exact ⟨rfl, hnames, rfl⟩
  | refreshed _ hrefresh ih =>
      obtain ⟨hsub, -, hendpoint⟩ := ih
      obtain ⟨hsub', hnames', hendpoint'⟩ := hrefresh.names
      rw [hendpoint] at hnames' hendpoint'
      exact ⟨hsub'.trans hsub, hnames', hendpoint'⟩

/-! ### Flows -/

variable {config : OAuthConfig ν Key} {client : Client Key}

/-- A flow that was started: the user, the authorization server by the name that the user's server
gives it, and its description of itself. -/
structure Start (config : OAuthConfig ν Key) (client : Client Key) where
  world : AuthorizeWorld ν
  chance : Chance Key
  opts : AuthorizeOptions
  did : Did
  issuer : Bytes
  server : AuthServerMetadata
  state : AuthState
  result : AuthorizeResult
  resolved : resolveInputToDid world opts.input = .ok did
  discovered : discover config client world.toWorld did = .ok (issuer, server)
  authorized : authorize config client world chance opts = .ok (state, result)

/-- A callback in which the server names itself passes the check of the issuer. -/
def Start.Passes (start : Start config client) : Prop :=
  ∀ params : CallbackParams, params.iss = some start.server.issuer →
    checkIssuer params start.state = .ok ()

theorem Start.state_eq (start : Start config client) :
  start.state = AuthState.ofFlow config.keys client start.opts start.chance start.issuer start.server
  := by
  obtain ⟨did, issuer, server, hdid, hdiscover, hstate⟩ := authorize_ok start.authorized
  rw [start.resolved] at hdid
  cases hdid
  rw [start.discovered] at hdiscover
  cases hdiscover
  exact hstate

theorem Start.state_issuer (start : Start config client) :
  start.state.issuer = start.issuer
  := by
  rw [start.state_eq]
  rfl

theorem Start.passes_iff (start : Start config client) :
  start.Passes ↔ start.server.issuer = start.issuer
  := by
  rw [Start.Passes, ← start.state_issuer]
  constructor
  · intro h
    have hcheck := h ⟨[], [], some start.server.issuer⟩ rfl
    rwa [checkIssuer, refuse_eq_ok, not_not] at hcheck
  · intro h params hiss
    rwa [checkIssuer, hiss, refuse_eq_ok, not_not]

/-- A flow whose callback stored a session, which may have been refreshed since. -/
structure Flow (start : Start config client) where
  params : CallbackParams
  answer : TokenAnswer ν
  world : World
  session : Session
  current : Session
  last : TokenAnswer ν
  stored : callback config params (some start.state) answer world = .ok session
  later : Later config session answer current last

variable {start : Start config client}

/-- The stored session is bound to the issuer that was just verified for its user, and to the user's
server. -/
def Flow.Bound (flow : Flow start) : Prop :=
  flow.session.tokenSet.issuer = start.issuer ∧
    Resolves config flow.world flow.session.tokenSet.sub flow.session.tokenSet.aud start.issuer

/-- As long as the user resolves to the same server with the same authorization server, the check of
the issuer before a refresh passes. -/
def Flow.Rechecks (flow : Flow start) : Prop :=
  ∀ world pdsUrl, Resolves config flow.world flow.session.tokenSet.sub pdsUrl start.issuer →
    Resolves config world flow.session.tokenSet.sub pdsUrl start.issuer →
      verifyIssuerResolvePds config world flow.current.tokenSet.sub flow.current.tokenSet.issuer =
        .ok pdsUrl

/-- The token responses, of the callback and of the last refresh, name the issuer. -/
def Flow.Named (flow : Flow start) : Prop :=
  flow.answer.Names config.tokens start.server.tokenEndpoint start.issuer ∧
    flow.last.Names config.tokens start.server.tokenEndpoint start.issuer

theorem Flow.keeps_iff (flow : Flow start) (hverify : config.skipIssuerVerification = false) :
  flow.Bound ∧ flow.Rechecks ↔ flow.Named
  := by
  have hendpoint : start.state.tokenEndpoint = start.server.tokenEndpoint := by
    rw [start.state_eq]
    rfl
  obtain ⟨⟨pdsUrl, hpds, haud⟩, hnames, hendpoint'⟩ := callback_ok hverify flow.stored
  rw [start.state_issuer] at hpds
  rw [← hendpoint'] at hnames
  obtain ⟨hsub, hlast, -⟩ := flow.later.names hnames
  rw [hendpoint', hendpoint] at hnames hlast
  have hrechecks : flow.Rechecks ↔ flow.current.tokenSet.issuer = start.issuer := by
    constructor
    · intro h
      have hcheck := h flow.world pdsUrl hpds hpds
      rw [verifyIssuerResolvePds_eq_ok, hsub] at hcheck
      exact (hcheck.unique hpds).2
    · intro hissuer world pdsUrl' _ hresolves
      rw [hsub, hissuer, verifyIssuerResolvePds_eq_ok]
      exact hresolves
  rw [hrechecks, Flow.Named, hnames, hlast, Flow.Bound, haud]
  constructor
  · rintro ⟨⟨hissuer, -⟩, hcurrent⟩
    exact ⟨hissuer, hcurrent⟩
  · rintro ⟨hissuer, hcurrent⟩
    exact ⟨⟨hissuer, hpds⟩, hcurrent⟩

/-- When the issuer is verified: a callback in which the server names itself passes the check exactly
when the user's server lists it by the same text, and what is stored keeps to the issuer exactly
when the token responses name it. -/
theorem oneIssuer_iff (start : Start config client)
    (hverify : config.skipIssuerVerification = false) :
  (start.Passes ↔ start.server.issuer = start.issuer) ∧
    ∀ flow : Flow start, flow.Bound ∧ flow.Rechecks ↔ flow.Named
  := by
  constructor
  · exact start.passes_iff
  · intro flow
    exact flow.keeps_iff hverify

namespace Sample

/-- A client that verifies issuers. -/
def verifyingConfig : OAuthConfig ℕ Unit where
  url := UrlLibrary.plain
  tokens := ⟨some, fun _ => .ok (ascii "https://auth.example")⟩
  keys := ⟨id, .ok, fun _ => List.replicate 32 1, fun _ => .ok ()⟩
  skipIssuerVerification := false
  addressPolicy := .denyLocal
  debug := id

def publicClient : Client Unit where
  metadata := ⟨ascii "https://app.example", [], ascii "atproto", ascii "none"⟩
  validateClientAuth := .ok ()
  apply := fun _ => .ok []
  createDpopProof := fun _ _ => .ok []
  appendPairs := fun url _ => url.path
  debug := id

/-- The user. -/
def user : Did := Syntax.Sample.alice

/-- A server that calls itself `name`. -/
def namedServer (name : Bytes) : AuthServerMetadata where
  issuer := name
  authorizationEndpoint := ascii "https://auth.example/authorize"
  tokenEndpoint := ascii "https://auth.example/token"
  pushedAuthorizationRequestEndpoint := ascii "https://auth.example/par"
  revocationEndpoint := []
  dpopSigningAlgValuesSupported := [ascii "ES256"]
  requirePushedAuthorizationRequests := true
  clientIdMetadataDocumentSupported := true

/-- A user whose server lists `https://auth.example`. -/
def namedWorld (name : Bytes) : AuthorizeWorld ℕ where
  protectedResource := fun _ => .ok ⟨ascii "https://pds.example", [ascii "https://auth.example"]⟩
  authServer := fun _ => .ok (namedServer name)
  lookupDid := fun _ => .ok ⟨[(ascii "#atproto_pds", ascii "https://pds.example")]⟩
  resolveHandle := fun _ => .ok user
  setState := fun _ _ => .ok ()
  push := fun _ _ =>
    let resp := .ok ⟨201, .object [(ascii "request_uri", .string (ascii "urn:request"))]⟩
    (resp, resp)

def chance : Chance Unit := ⟨(), ascii "verifier", ascii "challenge", ascii "state"⟩

def opts : AuthorizeOptions := ⟨ascii "did:plc:alice", ascii "https://app.example/back", none, none⟩

/-- The tokens come with the name of the server. -/
def namedAnswer (name : Bytes) : TokenAnswer ℕ :=
  let resp := .ok ⟨200, .object [(ascii "access_token", .string (ascii "token")),
    (ascii "sub", .string (ascii "did:plc:alice")), (ascii "scope", .string (ascii "atproto")),
    (ascii "iss", .string name)]⟩
  ⟨resp, resp, 0⟩

def namedState (name : Bytes) : AuthState :=
  .ofFlow verifyingConfig.keys publicClient opts chance (ascii "https://auth.example")
    (namedServer name)

theorem resolve_user (name : Bytes) :
  resolveInputToDid (namedWorld name) opts.input = .ok user
  := by
  have hdid : Did.tryFrom opts.input = .ok user := by decide +kernel
  rw [resolveInputToDid, hdid]

/-- The flow of a server that calls itself `name`. -/
def namedStart (name : Bytes)
    (hdiscover : discover verifyingConfig publicClient (namedWorld name).toWorld user =
      .ok (ascii "https://auth.example", namedServer name))
    (hauthorize : authorize verifyingConfig publicClient (namedWorld name) chance opts =
      .ok (namedState name, ⟨ascii "/authorize", ascii "state"⟩)) :
    Start verifyingConfig publicClient where
  world := namedWorld name
  chance := chance
  opts := opts
  did := user
  issuer := ascii "https://auth.example"
  server := namedServer name
  state := namedState name
  result := ⟨ascii "/authorize", ascii "state"⟩
  resolved := resolve_user name
  discovered := hdiscover
  authorized := hauthorize

/-- Its callback, in which the server is named as the user's server lists it. -/
def namedParams : CallbackParams := ⟨ascii "code", ascii "state", some (ascii "https://auth.example")⟩

/-- The session that is stored. -/
def namedSession (name : Bytes) : Session where
  dpopKeyBytes := List.replicate 32 1
  tokenSet := {
    issuer := name
    sub := ascii "did:plc:alice"
    aud := ascii "https://pds.example"
    scope := ascii "atproto"
    accessToken := ascii "token"
    tokenType := ascii "DPoP"
    expiresAt := none
    refreshToken := none
    tokenEndpoint := ascii "https://auth.example/token"
    revocationEndpoint := [] }

/-- A server that calls itself as it is listed. -/
def plainStart : Start verifyingConfig publicClient :=
  namedStart (ascii "https://auth.example") (by decide +kernel) (by decide +kernel)

def plainFlow : Flow plainStart where
  params := namedParams
  answer := namedAnswer (ascii "https://auth.example")
  world := (namedWorld (ascii "https://auth.example")).toWorld
  session := namedSession (ascii "https://auth.example")
  current := namedSession (ascii "https://auth.example")
  last := namedAnswer (ascii "https://auth.example")
  stored := by decide +kernel
  later := .stored

/-- A server that calls itself with a slash at the end. -/
def slashStart : Start verifyingConfig publicClient :=
  namedStart (ascii "https://auth.example/") (by decide +kernel) (by decide +kernel)

def slashFlow : Flow slashStart where
  params := namedParams
  answer := namedAnswer (ascii "https://auth.example/")
  world := (namedWorld (ascii "https://auth.example/")).toWorld
  session := namedSession (ascii "https://auth.example/")
  current := namedSession (ascii "https://auth.example/")
  last := namedAnswer (ascii "https://auth.example/")
  stored := by decide +kernel
  later := .stored

theorem slash_issuers :
  verifyingConfig.skipIssuerVerification = false ∧ ¬slashStart.Passes ∧ ¬slashFlow.Bound ∧
    ¬slashFlow.Rechecks
  := by
  have hissuer : ascii "https://auth.example/" ≠ ascii "https://auth.example" := by decide
  have hresolves : Resolves verifyingConfig slashFlow.world slashFlow.session.tokenSet.sub
      (ascii "https://pds.example") slashStart.issuer := by
    rw [← verifyIssuerResolvePds_eq_ok]
    decide +kernel
  refine ⟨rfl, ?_, ?_, ?_⟩
  · intro hpasses
    exact hissuer (slashStart.passes_iff.mp hpasses)
  · intro hbound
    exact hissuer hbound.1
  · intro hrechecks
    have hcheck := hrechecks slashFlow.world _ hresolves hresolves
    rw [verifyIssuerResolvePds_eq_ok] at hcheck
    exact hissuer (hcheck.unique hresolves).2

theorem plain_oneIssuer :
  plainStart.Passes ∧ plainFlow.Bound ∧ plainFlow.Rechecks
  := by
  have hkeeps := oneIssuer_iff plainStart rfl
  have hnamed : plainFlow.answer.Names verifyingConfig.tokens plainStart.server.tokenEndpoint
      plainStart.issuer := ⟨_, rfl, rfl⟩
  exact ⟨hkeeps.1.mpr rfl, (hkeeps.2 plainFlow).mpr ⟨hnamed, hnamed⟩⟩

end Sample

end Shrike.OAuth

