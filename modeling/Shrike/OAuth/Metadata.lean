import Shrike.OAuth.Token
import Shrike.Outbound.Identity

/-!
# Metadata of servers

The documents in which a server of repositories names its authorization servers, and in which an
authorization server describes itself: how they are fetched and what is checked about them.
-/

namespace Shrike.OAuth

open Bytes Net Outbound
open Except (bind_eq_ok mapError_eq_ok refuse refuse_eq_ok)

/-- The metadata of a server of repositories. -/
structure ProtectedResourceMetadata where
  resource : Bytes
  authorizationServers : List Bytes

/-- The metadata of an authorization server. -/
structure AuthServerMetadata where
  issuer : Bytes
  authorizationEndpoint : Bytes
  tokenEndpoint : Bytes
  pushedAuthorizationRequestEndpoint : Bytes
  revocationEndpoint : Bytes
  dpopSigningAlgValuesSupported : List Bytes
  requirePushedAuthorizationRequests : Bool
  clientIdMetadataDocumentSupported : Bool
  deriving DecidableEq

variable (lib : Net.UrlLibrary)

/-! ### Endpoints -/

/-- The endpoints of an authorization server that requests are sent to. -/
def AuthServerMetadata.endpoints (server : AuthServerMetadata) : List (Bytes × Bytes) :=
  (ascii "pushed_authorization_request_endpoint", server.pushedAuthorizationRequestEndpoint) ::
    (ascii "token_endpoint", server.tokenEndpoint) ::
      if server.revocationEndpoint = [] then []
      else [(ascii "revocation_endpoint", server.revocationEndpoint)]

/-- Check one endpoint. In the texts of errors it is shown by `debug`. -/
def checkEndpoint (debug : Bytes → Bytes) (policy : AddressPolicy) (endpoint : Bytes × Bytes) :
    Except OAuthError Unit := do
  let invalid (reason : Bytes) : OAuthError :=
    .invalidMetadata (endpoint.1 ++ ascii " " ++ debug endpoint.2 ++ ascii " " ++ reason)
  let url ← (lib.parse endpoint.2).mapError fun e => invalid (ascii "is invalid: " ++ e)
  refuse (url.scheme ≠ ascii "https" ∧ url.scheme ≠ ascii "http")
    (invalid (ascii "must be an http or https URL"))
  refuse (isBlockedLiteralHost url policy)
    (invalid (ascii "is a local address, refused by the address policy"))

/-- Check the endpoints of an authorization server. -/
def checkAuthServerEndpoints (debug : Bytes → Bytes) (server : AuthServerMetadata)
    (policy : AddressPolicy) : Except OAuthError Unit :=
  server.endpoints.forM (checkEndpoint lib debug policy)

/-- Check what an authorization server supports. -/
def validateAuthServerMetadata (server : AuthServerMetadata) : Except OAuthError Unit := do
  refuse (server.authorizationEndpoint = [])
    (.invalidMetadata (ascii "authorization_endpoint must not be empty"))
  refuse (server.tokenEndpoint = []) (.invalidMetadata (ascii "token_endpoint must not be empty"))
  refuse (server.pushedAuthorizationRequestEndpoint = [])
    (.invalidMetadata (ascii "pushed_authorization_request_endpoint must not be empty"))
  refuse (server.requirePushedAuthorizationRequests = false)
    (.invalidMetadata (ascii "require_pushed_authorization_requests must be true"))
  refuse (server.clientIdMetadataDocumentSupported = false)
    (.invalidMetadata (ascii "client_id_metadata_document_supported must be true"))
  refuse (ascii "ES256" ∉ server.dpopSigningAlgValuesSupported)
    (.invalidMetadata (ascii "dpop_signing_alg_values_supported must include ES256"))

/-! ### Fetching -/

/-- What the servers answer to requests for their metadata, and the documents of DIDs, at one
moment. -/
structure Network where
  protectedResource : Url → Except OAuthError ProtectedResourceMetadata
  authServer : Url → Except OAuthError AuthServerMetadata

/-- The URL that a document is requested at, if it is let out. -/
def metadataUrl (policy : AddressPolicy) (url what : Bytes) : Except OAuthError Url := do
  let parsed ← (lib.parse url).mapError fun e =>
    .http (what ++ ascii ": invalid URL: " ++ e)
  refuse (isBlockedLiteralHost parsed policy) (.http (what ++ ascii ": " ++ url ++
    ascii " is a local address, refused by the address policy"))
  return parsed

/-- Get a document. -/
def getMetadata {α : Type} (ask : Url → Except OAuthError α) (policy : AddressPolicy)
    (url what : Bytes) : Except OAuthError α := do
  let parsed ← metadataUrl lib policy url what
  ask parsed

/-- The URL of the metadata of a server of repositories. -/
def protectedResourceUrl (pdsUrl : Bytes) : Bytes :=
  trimEndMatches (char '/') pdsUrl ++ ascii "/.well-known/oauth-protected-resource"

/-- The URL of the metadata of an authorization server. -/
def authServerUrl (issuer : Bytes) : Bytes :=
  trimEndMatches (char '/') issuer ++ ascii "/.well-known/oauth-authorization-server"

/-- Fetch the metadata of a server of repositories. -/
def fetchProtectedResourceMetadata (net : Network) (policy : AddressPolicy) (pdsUrl : Bytes) :
    Except OAuthError ProtectedResourceMetadata := do
  let resource ← getMetadata lib net.protectedResource policy (protectedResourceUrl pdsUrl)
    (ascii "protected resource metadata")
  refuse (resource.authorizationServers = [])
    (.invalidMetadata (ascii "authorization_servers must not be empty"))
  return resource

/-- Fetch the metadata of an authorization server, which has to name itself by the URL it is found
at, up to slashes at the end. -/
def fetchAuthServerMetadata (net : Network) (policy : AddressPolicy) (issuer : Bytes) :
    Except OAuthError AuthServerMetadata := do
  let server ← getMetadata lib net.authServer policy (authServerUrl issuer)
    (ascii "auth server metadata")
  let expectedIssuer := trimEndMatches (char '/') issuer
  let actualIssuer := trimEndMatches (char '/') server.issuer
  refuse (actualIssuer ≠ expectedIssuer) (.issuerMismatch expectedIssuer actualIssuer)
  return server

theorem checkEndpoint_not_blocked {debug : Bytes → Bytes} {policy : AddressPolicy}
    {endpoint : Bytes × Bytes} (h : checkEndpoint lib debug policy endpoint = .ok ()) :
  ∃ url, lib.parse endpoint.2 = .ok url ∧ isBlockedLiteralHost url policy = false
  := by
  obtain ⟨url, hparse, h⟩ := bind_eq_ok.mp h
  obtain ⟨-, -, h⟩ := bind_eq_ok.mp h
  rw [refuse_eq_ok, Bool.not_eq_true] at h
  exact ⟨url, mapError_eq_ok.mp hparse, h⟩

theorem metadataUrl_not_blocked {policy : AddressPolicy} {url what : Bytes} {parsed : Url}
    (h : metadataUrl lib policy url what = .ok parsed) :
  isBlockedLiteralHost parsed policy = false
  := by
  obtain ⟨parsed', -, h⟩ := bind_eq_ok.mp h
  obtain ⟨u, hrefuse, h⟩ := bind_eq_ok.mp h
  cases h
  rwa [refuse_eq_ok, Bool.not_eq_true] at hrefuse

end Shrike.OAuth
