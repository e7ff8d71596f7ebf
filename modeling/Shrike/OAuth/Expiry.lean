import Shrike.Cbor.Json
import Shrike.OAuth.Token

/-!
# When tokens expire

The lifetime that a token response states, and the time at which the tokens are taken to be stale.
The clock counts the milliseconds since the epoch in 64 bits.
-/

namespace Shrike.OAuth

open Cbor Bytes
open Except (bind_eq_ok)

/-- The natural number of 64 bits that a JSON number is written as. -/
def asU64 : Number → Option ℕ
  | .posInt n _ => some n
  | _ => none

/-- The library with the JSON numbers of the parser. -/
def numberLibrary (originFromUrl : Bytes → Except OAuthError Bytes) : TokenLibrary Number where
  asU64 := asU64
  originFromUrl := originFromUrl

/-- The last second that the clock can show. -/
def maxUnixTimeSecs : ℕ := (2 ^ 64 - 1) / 1000

/-- The lifetime that a response states, whatever is given for it. A null states none. -/
def statedLifetime (json : Json Number) : Option (Json Number) :=
  match json.index (ascii "expires_in") with
  | .null => none
  | lifetime => some lifetime

/-- The tokens of a response that is read at some time expire exactly: at that time plus the lifetime
that the response states, or never if it states none. -/
structure ExpiresExactly (tokens : TokenSet) (json : Json Number) (readAt : ℕ) : Prop where
  exact : ∀ expiresAt, tokens.expiresAt = some expiresAt →
    ∃ lifetime, statedLifetime json = some (.number lifetime)
      ∧ (expiresAt : ℚ) = readAt + numberValue lifetime
  stale : ∃ jitter : ℕ, 10 ≤ jitter ∧ jitter ≤ 39 ∧
    ∀ now, readAt ≤ now → now ≤ maxUnixTimeSecs →
      (tokens.isStale now = true ↔ ∃ lifetime, statedLifetime json = some (.number lifetime)
        ∧ (readAt : ℚ) + numberValue lifetime ≤ now + jitter)
  expires : statedLifetime json ≠ none → tokens.expiresAt ≠ none

/-- A lifetime, if one is stated, is a natural number that the clock does not overflow with. -/
def LifetimeFits (json : Json Number) (readAt : ℕ) : Prop :=
  ∀ lifetime, statedLifetime json = some lifetime →
    ∃ number n, lifetime = .number number ∧ asU64 number = some n ∧ readAt + n < 2 ^ 64

theorem asNumber_expiresIn (json : Json Number) :
  (json.index (ascii "expires_in")).asNumber = (statedLifetime json).bind Json.asNumber
  := by
  rw [statedLifetime]
  cases json.index (ascii "expires_in") <;> rfl

theorem numberValue_of_asU64 {number : Number} {n : ℕ} (h : asU64 number = some n) :
  numberValue number = n
  := by
  cases number with
  | posInt m hm =>
      cases h
      rfl
  | _ => cases h

variable {originFromUrl : Bytes → Except OAuthError Bytes} {json : Json Number} {readAt : ℕ}
  {tokenEndpoint revocationEndpoint : Bytes} {tokens : TokenSet}

theorem expiresAt_of_parseTokenResponse
    (h : parseTokenResponse (numberLibrary originFromUrl) readAt json tokenEndpoint
      revocationEndpoint = .ok tokens) :
  tokens.expiresAt = (((statedLifetime json).bind Json.asNumber).bind asU64).map
    fun expiresIn => (readAt + expiresIn) % 2 ^ 64
  := by
  obtain ⟨accessToken, -, h⟩ := bind_eq_ok.mp h
  obtain ⟨sub, -, h⟩ := bind_eq_ok.mp h
  obtain ⟨-, -, h⟩ := bind_eq_ok.mp h
  obtain ⟨-, -, h⟩ := bind_eq_ok.mp h
  cases h
  rw [← asNumber_expiresIn]
  rfl

/-- Tokens are stale from some 10 to 39 seconds before they expire. -/
theorem isStale_iff (tokens : TokenSet) :
  ∃ jitter : ℕ, 10 ≤ jitter ∧ jitter ≤ 39 ∧ ∀ now ≤ maxUnixTimeSecs,
    (tokens.isStale now = true ↔ ∃ expiresAt, tokens.expiresAt = some expiresAt
      ∧ expiresAt ≤ now + jitter)
  := by
  refine ⟨10 + (tokens.accessToken.head?.getD 0).toNat % 30, by omega, by omega, ?_⟩
  intro now hnow
  have hmod : (now + (10 + (tokens.accessToken.head?.getD 0).toNat % 30)) % 2 ^ 64
      = now + (10 + (tokens.accessToken.head?.getD 0).toNat % 30) := by
    rw [maxUnixTimeSecs] at hnow
    omega
  rw [TokenSet.isStale]
  cases tokens.expiresAt with
  | none => constructor <;> simp
  | some expiresAt =>
      simp only [hmod, decide_eq_true_eq, Option.some.injEq, exists_eq_left']

/-- Tokens expire exactly if and only if the lifetime that the response states, if it states one, is
a natural number that the clock does not overflow with. -/
theorem expiresExactly_iff
    (h : parseTokenResponse (numberLibrary originFromUrl) readAt json tokenEndpoint
      revocationEndpoint = .ok tokens) :
  ExpiresExactly tokens json readAt ↔ LifetimeFits json readAt
  := by
  have hexpires := expiresAt_of_parseTokenResponse h
  constructor
  · intro hexact lifetime hlifetime
    cases hn : ((statedLifetime json).bind Json.asNumber).bind asU64 with
    | none =>
        rw [hn] at hexpires
        exact absurd hexpires (hexact.expires (by rw [hlifetime]; nofun))
    | some n =>
        rw [hn, Option.map_some] at hexpires
        obtain ⟨number, hnumber, heq⟩ := hexact.exact _ hexpires
        rw [hnumber] at hlifetime hn
        obtain rfl := Option.some.inj hlifetime
        have hvalue : asU64 number = some n := hn
        rw [numberValue_of_asU64 hvalue] at heq
        have hsum : (readAt + n) % 2 ^ 64 = readAt + n := by exact_mod_cast heq
        exact ⟨number, n, rfl, hvalue, by omega⟩
  · intro hfits
    have hvalue : ∀ expiresAt, tokens.expiresAt = some expiresAt ↔
        ∃ lifetime, statedLifetime json = some (.number lifetime)
          ∧ (expiresAt : ℚ) = readAt + numberValue lifetime := by
      intro expiresAt
      rw [hexpires]
      cases hlifetime : statedLifetime json with
      | none => constructor <;> simp
      | some lifetime =>
          obtain ⟨number, n, rfl, hn, hlt⟩ := hfits lifetime hlifetime
          rw [Option.bind_some, Json.asNumber, Option.bind_some, hn, Option.map_some,
            Nat.mod_eq_of_lt hlt]
          simp only [Option.some.injEq, Json.number.injEq, exists_eq_left', numberValue_of_asU64 hn]
          constructor
          · rintro rfl
            exact_mod_cast rfl
          · intro heq
            exact_mod_cast heq.symm
    obtain ⟨jitter, hmin, hmax, hstale⟩ := isStale_iff tokens
    constructor
    · intro expiresAt hsome
      exact (hvalue expiresAt).mp hsome
    · refine ⟨jitter, hmin, hmax, ?_⟩
      intro now _ hnow
      rw [hstale now hnow]
      constructor
      · rintro ⟨expiresAt, hsome, hle⟩
        obtain ⟨lifetime, hlifetime, heq⟩ := (hvalue expiresAt).mp hsome
        refine ⟨lifetime, hlifetime, ?_⟩
        rw [← heq]
        exact_mod_cast hle
      · rintro ⟨lifetime, hlifetime, hle⟩
        obtain ⟨number, n, hnumber, hn, hlt⟩ := hfits _ hlifetime
        cases hnumber
        rw [numberValue_of_asU64 hn] at hle
        refine ⟨readAt + n, (hvalue _).mpr ⟨lifetime, hlifetime, ?_⟩, by exact_mod_cast hle⟩
        rw [numberValue_of_asU64 hn]
        exact_mod_cast rfl
    · intro hsome
      obtain ⟨lifetime, hlifetime⟩ := Option.ne_none_iff_exists'.mp hsome
      obtain ⟨number, n, rfl, hn, -⟩ := hfits lifetime hlifetime
      rw [hexpires, hlifetime, Option.bind_some, Json.asNumber, Option.bind_some, hn]
      nofun

/-! ### Lifetimes that do not fit -/

/-- A response with a lifetime. -/
def lifetimeResponse (lifetime : Number) : Json Number :=
  .object [(ascii "access_token", .string (ascii "a")), (ascii "sub", .string (ascii "did:plc:u")),
    (ascii "scope", .string (ascii "atproto")), (ascii "iss", .string (ascii "https://as")),
    (ascii "expires_in", .number lifetime)]

/-- The tokens of such a response. -/
def lifetimeTokens (expiresAt : Option ℕ) : TokenSet where
  issuer := ascii "https://as"
  sub := ascii "did:plc:u"
  aud := ascii "https://as"
  scope := ascii "atproto"
  accessToken := ascii "a"
  tokenType := ascii "DPoP"
  expiresAt := expiresAt
  refreshToken := none
  tokenEndpoint := []
  revocationEndpoint := []

/-- Tokens whose lifetime is an hour expire exactly. -/
theorem hour_expires_exactly :
  parseTokenResponse (numberLibrary .ok) 1000 (lifetimeResponse (.posInt 3600 (by decide))) [] []
      = .ok (lifetimeTokens (some 4600))
    ∧ (ExpiresExactly (lifetimeTokens (some 4600)) (lifetimeResponse (.posInt 3600 (by decide))) 1000
      ↔ LifetimeFits (lifetimeResponse (.posInt 3600 (by decide))) 1000)
  := ⟨rfl, @expiresExactly_iff .ok _ 1000 [] [] _ rfl⟩

/-- The bits of the float 3600. -/
theorem float_hour :
  0x40ac200000000000 < 2 ^ 64 ∧ isFinite 0x40ac200000000000 = true
  := by decide

/-- Tokens whose lifetime is the largest natural number of 64 bits have expired before they are
read, and those whose lifetime is an hour as a float never expire. -/
theorem lifetimes_inexact :
  (parseTokenResponse (numberLibrary .ok) 1000
        (lifetimeResponse (.posInt (2 ^ 64 - 1) (by decide))) [] []
      = .ok (lifetimeTokens (some 999))
    ∧ ¬ExpiresExactly (lifetimeTokens (some 999))
      (lifetimeResponse (.posInt (2 ^ 64 - 1) (by decide))) 1000)
  ∧ parseTokenResponse (numberLibrary .ok) 1000
        (lifetimeResponse (.float 0x40ac200000000000 float_hour)) [] []
      = .ok (lifetimeTokens none)
    ∧ ¬ExpiresExactly (lifetimeTokens none)
      (lifetimeResponse (.float 0x40ac200000000000 float_hour)) 1000
  := by
  refine ⟨⟨rfl, ?_⟩, rfl, ?_⟩
  · intro hexact
    obtain ⟨lifetime, hlifetime, heq⟩ := hexact.exact 999 rfl
    cases hlifetime
    norm_num [numberValue] at heq
  · intro hexact
    exact hexact.expires (fun h => (by cases h)) rfl

end Shrike.OAuth
