import Shrike.Net.Address
import Shrike.Xrpc.Query

/-!
# Rate limits

The limits of a server that a request is charged for, and the keys that they are stored under: global
limits, named limits that routes share, and the own limits of a route.
-/

namespace Shrike.Xrpc

open Bytes Net

variable {Auth : Type}

/-! ### Limits -/

/-- What key and point functions see. -/
structure RateLimitContext (Auth : Type) where
  nsid : Bytes
  headers : List (Bytes × Bytes)
  ip : Option IpAddr
  params : Params
  input : Option (Json Cbor.Number)
  auth : Option Auth

/-- A duration without what is below a second, in nanoseconds. -/
def wholeSeconds (duration : ℕ) : ℕ := duration / 10 ^ 9 * 10 ^ 9

/-- A named limit: points per duration, used as a global or a shared limit. -/
structure RateLimit (Auth : Type) where
  name : Bytes
  duration : ℕ
  points : ℕ
  calcKey : Option (RateLimitContext Auth → Option Bytes)
  calcPoints : Option (RateLimitContext Auth → ℕ)
  failClosed : Bool

def RateLimit.new (name : Bytes) (duration points : ℕ) : RateLimit Auth :=
  ⟨name, wholeSeconds duration, points, none, none, false⟩

/-- A reference to a shared limit, or an own limit. -/
inductive RouteKind where
  | shared (name : Bytes)
  | own (duration points : ℕ)

/-- A limit of a route. -/
structure RouteRateLimit (Auth : Type) where
  kind : RouteKind
  calcKey : Option (RateLimitContext Auth → Option Bytes)
  calcPoints : Option (RateLimitContext Auth → ℕ)

def RouteRateLimit.new (duration points : ℕ) : RouteRateLimit Auth :=
  ⟨.own (wholeSeconds duration) points, none, none⟩

def RouteRateLimit.shared (name : Bytes) : RouteRateLimit Auth := ⟨.shared name, none, none⟩

/-- The configuration of a server. -/
structure RateLimits (Auth : Type) where
  global : List (RateLimit Auth)
  shared : List (RateLimit Auth)
  bypass : Option (RateLimitContext Auth → Bool)

/-! ### Limiters -/

/-- A limit with the start of its keys. -/
structure Limiter (Auth : Type) where
  keyPrefix : Bytes
  duration : ℕ
  points : ℕ
  calcKey : Option (RateLimitContext Auth → Option Bytes)
  calcPoints : Option (RateLimitContext Auth → ℕ)
  failClosed : Bool

namespace RateLimits

variable (limits : RateLimits Auth)

def globalLimiters : List (Limiter Auth) :=
  limits.global.map fun g =>
    ⟨ascii "rl-" ++ g.name, g.duration, g.points, g.calcKey, g.calcPoints, g.failClosed⟩

/-- The limiter of the limit at a position of a route. -/
def routeLimiter (nsid : Bytes) (r : RouteRateLimit Auth) (i : ℕ) :
    Except String (Limiter Auth) :=
  match r.kind with
  | .shared name =>
      match limits.shared.find? (·.name = name) with
      | none => .error "shared rate limit not defined"
      | some s =>
          .ok ⟨ascii "rl-" ++ name, s.duration, s.points, r.calcKey.or s.calcKey,
            r.calcPoints.or s.calcPoints, s.failClosed⟩
  | .own duration points =>
      .ok ⟨nsid ++ char '-' :: toText 10 i, duration, points, r.calcKey, r.calcPoints, true⟩

/-- The limiters for a route: its own and shared limits, then the global ones. -/
def forRoute (nsid : Bytes) (route : List (RouteRateLimit Auth)) :
    Except String (List (Limiter Auth)) := do
  let limiters ← route.zipIdx.mapM fun r => limits.routeLimiter nsid r.1 r.2
  .ok (limiters ++ limits.globalLimiters)

end RateLimits

namespace Limiter

variable (limiter : Limiter Auth)

def storeKey (key : Bytes) : Bytes := limiter.keyPrefix ++ char ':' :: key

/-- The store key of a request. There is none if the key function skips the request. -/
def key (ctx : RateLimitContext Auth) : Except String (Option Bytes) :=
  match limiter.calcKey, ctx.ip with
  | some f, _ => .ok ((f ctx).map limiter.storeKey)
  | none, some ip => .ok (some (limiter.storeKey ip.toText))
  | none, none => .error "rate limit is keyed by client IP, but the request has none"

end Limiter

/-! ### Routes -/

inductive Kind where
  | query
  | procedure
  | subscription
  deriving DecidableEq

inductive Method where
  | get
  | head
  | post
  | other
  deriving DecidableEq

/-- The limits of the routes of one NSID. -/
structure Slots (Auth : Type) where
  query : Option (List (RouteRateLimit Auth))
  procedure : Option (List (RouteRateLimit Auth))
  subscription : Option (List (RouteRateLimit Auth))

namespace Slots

variable (slots : Slots Auth)

def get : Kind → Option (List (RouteRateLimit Auth))
  | .query => slots.query
  | .procedure => slots.procedure
  | .subscription => slots.subscription

/-- The kind of route that a request is for. -/
def kindOf (method : Method) (isWebsocketUpgrade : Bool) : Option Kind :=
  if method = .get ∨ method = .head then
    match slots.subscription, slots.query with
    | some _, some _ => some (if isWebsocketUpgrade then .subscription else .query)
    | _, some _ => some .query
    | some _, none => some .subscription
    | none, none => none
  else if method = .post then slots.procedure.map fun _ => .procedure
  else none

end Slots

/-- Letters and digits separated by a single dot or hyphen. -/
def isSeparated : (prevSep : Bool) → Bytes → Bool
  | prevSep, [] => !prevSep
  | prevSep, b :: bs =>
      if b = char '.' ∨ b = char '-' then !prevSep && isSeparated true bs
      else isAsciiAlphanumeric b && isSeparated false bs

/-- What is taken for an NSID in a path. -/
def isXrpcNsid (nsid : Bytes) : Bool := 2 ≤ nsid.length && isSeparated true nsid

/-- The NSID of a path, with at most one slash at the end. -/
def parseXrpcPath (path : Bytes) : Option Bytes := do
  let rest ← stripPrefix (ascii "/xrpc/") path
  let nsid := if rest.getLast? = some (char '/') then rest.dropLast else rest
  if isXrpcNsid nsid then some nsid else none

/-- A server, as far as its limits go. -/
structure Server (Auth : Type) where
  routes : Bytes → Slots Auth
  rateLimits : RateLimits Auth

/-- What a request is dispatched by. -/
structure Dispatched where
  path : Bytes
  method : Method
  isWebsocketUpgrade : Bool

/-- The limiters of a request. Without a route, these are the global ones. -/
def Server.limiters (server : Server Auth) (req : Dispatched) :
    Except String (List (Limiter Auth)) :=
  match parseXrpcPath req.path with
  | none => .error "invalid xrpc path"
  | some nsid =>
      let slots := server.routes nsid
      match (slots.kindOf req.method req.isWebsocketUpgrade).bind slots.get with
      | none => .ok server.rateLimits.globalLimiters
      | some route => server.rateLimits.forRoute nsid route

end Shrike.Xrpc
