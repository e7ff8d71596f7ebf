import Shrike.Data.Json
import Shrike.Data.Result
import Shrike.Data.Text

/-!
# Token sets

The tokens that an authorization server hands out: how its response is read, when they are stale,
and how they are refreshed.
-/

namespace Shrike.OAuth

open Bytes
open Except (bind_eq_ok ofOption refuse)

/-- The errors of the OAuth flow. -/
inductive OAuthError where
  | invalidState
  | issuerMismatch (expected actual : Bytes)
  | missingIssuer
  | issuerVerification (reason : Bytes)
  | missingScope
  | noSession (did : Bytes)
  | noRefreshToken
  | oauthResponse (code description : Bytes)
  | http (reason : Bytes)
  | json (reason : Bytes)
  | crypto (reason : Bytes)
  | identity (reason : Bytes)
  | invalidMetadata (reason : Bytes)
  | storage (reason : Bytes)
  deriving DecidableEq

/-- The tokens of a user, and the servers that handed them out. -/
structure TokenSet where
  issuer : Bytes
  sub : Bytes
  aud : Bytes
  scope : Bytes
  accessToken : Bytes
  tokenType : Bytes
  expiresAt : Option ℕ
  refreshToken : Option Bytes
  tokenEndpoint : Bytes
  revocationEndpoint : Bytes
  deriving DecidableEq

/-- Whether the tokens should be refreshed: 10 to 40 seconds before they expire. -/
def TokenSet.isStale (tokens : TokenSet) (now : ℕ) : Bool :=
  match tokens.expiresAt with
  | none => false
  | some expiresAt =>
      let tokenHash := (tokens.accessToken.head?.getD 0).toNat
      let jitter := 10 + tokenHash % 30
      expiresAt ≤ (now + jitter) % 2 ^ 64

variable {ν : Type}

/-- What the token requests use of other libraries: the natural number of 64 bits that a JSON
number is, and the origin of a URL. -/
structure TokenLibrary (ν : Type) where
  asU64 : ν → Option ℕ
  originFromUrl : Bytes → Except OAuthError Bytes

/-- A response with its body. -/
structure Response (ν : Type) where
  status : ℕ
  body : Json ν

def Response.isSuccess (resp : Response ν) : Bool := 200 ≤ resp.status && resp.status < 300

/-- The outcome of a request: it is not sent or not answered, or there is a response. -/
abbrev Sent (ν : Type) := Except OAuthError (Response ν)

/-- The answer to a token request: the outcome of the request, of its repetition, and the time at
which the response is read. -/
structure TokenAnswer (ν : Type) where
  first : Sent ν
  retry : Sent ν
  now : ℕ

/-- A text that is not empty. -/
def nonEmptyStr (json : Json ν) : Option Bytes := json.asStr.filter (· ≠ [])

/-- Read a token response. -/
def parseTokenResponse (lib : TokenLibrary ν) (now : ℕ) (json : Json ν)
    (tokenEndpoint revocationEndpoint : Bytes) : Except OAuthError TokenSet := do
  let accessToken ← ofOption
    (.oauthResponse (ascii "invalid_response") (ascii "missing or empty access_token"))
    (nonEmptyStr (json.index (ascii "access_token")))
  let sub ← ofOption (.oauthResponse (ascii "invalid_response") (ascii "missing or empty sub"))
    (nonEmptyStr (json.index (ascii "sub")))
  let scope := (json.index (ascii "scope")).asStr.getD []
  refuse (ascii "atproto" ∉ splitWhitespace scope) .missingScope
  let tokenType := (json.index (ascii "token_type")).asStr.getD (ascii "DPoP")
  refuse (tokenType ≠ ascii "DPoP") (.oauthResponse (ascii "invalid_response")
    (ascii "expected token_type 'DPoP', got '" ++ tokenType ++ ascii "'"))
  let expiresAt := ((json.index (ascii "expires_in")).asNumber.bind lib.asU64).map fun expiresIn =>
    (now + expiresIn) % 2 ^ 64
  let refreshToken := nonEmptyStr (json.index (ascii "refresh_token"))
  let issuer := (json.index (ascii "iss")).asStr.getD ((lib.originFromUrl tokenEndpoint).toOption.getD [])
  let aud := (json.index (ascii "aud")).asStr.getD issuer
  return {
    issuer, sub, aud, scope, accessToken, tokenType, expiresAt, refreshToken, tokenEndpoint,
    revocationEndpoint }

/-- Whether the server asks for its nonce. -/
def isDpopNonceError (resp : Response ν) : Bool :=
  resp.status == 400 && (resp.body.get (ascii "error")).bind Json.asStr == some (ascii "use_dpop_nonce")

/-- The error that a response states. -/
def oauthErrorFromJson (body : Json ν) : OAuthError :=
  .oauthResponse ((body.index (ascii "error")).asStr.getD (ascii "unknown"))
    ((body.index (ascii "error_description")).asStr.getD [])

/-- Read the response to a token request. -/
def readTokenResponse (lib : TokenLibrary ν) (now : ℕ) (resp : Response ν)
    (tokenEndpoint revocationEndpoint : Bytes) : Except OAuthError TokenSet :=
  if resp.isSuccess then parseTokenResponse lib now resp.body tokenEndpoint revocationEndpoint
  else .error (oauthErrorFromJson resp.body)

/-- Send a token request, and once more if the server asks for its nonce. -/
def postTokenRequest (lib : TokenLibrary ν) (answer : TokenAnswer ν)
    (tokenEndpoint revocationEndpoint : Bytes) : Except OAuthError TokenSet := do
  let resp ← answer.first
  if isDpopNonceError resp then
    let resp ← answer.retry
    readTokenResponse lib answer.now resp tokenEndpoint revocationEndpoint
  else readTokenResponse lib answer.now resp tokenEndpoint revocationEndpoint

/-- Exchange an authorization code for tokens. -/
def exchangeCode (lib : TokenLibrary ν) (answer : TokenAnswer ν)
    (tokenEndpoint revocationEndpoint : Bytes) : Except OAuthError TokenSet :=
  postTokenRequest lib answer tokenEndpoint revocationEndpoint

/-- Refresh tokens. -/
def refreshTokens (lib : TokenLibrary ν) (answer : TokenAnswer ν) (tokens : TokenSet) :
    Except OAuthError TokenSet :=
  match tokens.refreshToken with
  | none => .error .noRefreshToken
  | some _ => postTokenRequest lib answer tokens.tokenEndpoint tokens.revocationEndpoint

end Shrike.OAuth
