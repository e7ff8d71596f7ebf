import Shrike.ServiceAuth.Token

/-!
# What verification guarantees

A token that is accepted is signed, over the exact text of its header and payload, with a key that
its issuer was resolved to. A token that is made is accepted until it expires.
-/

namespace Shrike.ServiceAuth

open Cbor Repo Syntax Bytes
open Except (ofOption_eq_ok refuse_eq_ok)
open TokenEncoding (base64url hexLower toVec)

/-! ### Segments -/

theorem dot_not_mem_base64url [TokenEncoding] (data : Bytes) :
  char '.' ∉ base64url data
  := fun h => absurd (TokenEncoding.mem_base64url data _ h) (by decide)

/-- What is encoded is decoded. -/
theorem decodeB64url_encode [TokenEncoding] (data : Bytes) :
  decodeB64url (base64url data) = some data
  := by
  have hpadding : char '=' ∉ base64url data :=
    fun h => absurd (TokenEncoding.mem_base64url data _ h) (by decide)
  rw [decodeB64url, trimEndMatches_of_not_mem hpadding]
  exact TokenEncoding.decode_base64url data

/-- The three segments of a token. -/
structure Segments where
  header : Bytes
  payload : Bytes
  signature : Bytes
  noDot : ∀ segment ∈ [header, payload, signature], char '.' ∉ segment

/-- What a signature is over. -/
def Segments.signed (s : Segments) : Bytes := s.header ++ char '.' :: s.payload

/-- The token of three segments. -/
def Segments.text (s : Segments) : Bytes := s.signed ++ char '.' :: s.signature

theorem Segments.join_eq (s : Segments) :
  join (char '.') [s.header, s.payload, s.signature] = s.text
  := by
  rw [join_cons_cons, join_cons_cons, join_singleton, text, signed, List.append_assoc,
    List.cons_append]

theorem Segments.splitOn_text (s : Segments) :
  s.text.splitOn (char '.') = [s.header, s.payload, s.signature]
  := by
  rw [← join_eq]
  exact List.splitOn_intercalate _ s.noDot (List.cons_ne_nil _ _)

variable {s jwt header payload segment signature : Bytes}

/-- A text that is split into three is a token of three segments. -/
theorem exists_segments (h : jwt.splitOn (char '.') = [header, payload, signature]) :
  ∃ s : Segments, s.text = jwt ∧ s.header = header ∧ s.payload = payload
    ∧ s.signature = signature
  := by
  have hdot : ∀ segment ∈ [header, payload, signature], char '.' ∉ segment := by
    intro segment hsegment
    rw [← h] at hsegment
    exact not_mem_of_mem_splitOn hsegment
  refine ⟨⟨header, payload, signature, hdot⟩, ?_, rfl, rfl, rfl⟩
  rw [← Segments.join_eq]
  show join (char '.') [header, payload, signature] = jwt
  rw [← h]
  exact List.intercalate_splitOn _

theorem Segments.take_text (s : Segments) :
  s.text.take (s.header.length + 1 + s.payload.length) = s.signed
  := by
  apply List.take_left'
  rw [signed, List.length_append, List.length_cons]
  omega

/-- A signature that was decoded is the segment decoded. -/
theorem decode_of_tryFrom [TokenEncoding] {sig : Signature}
    (h : (decodeB64url segment).bind Signature.tryFrom = some sig) :
  decodeB64url segment = some sig.val
  := by
  obtain ⟨bytes, hbytes, h⟩ := Option.bind_eq_some_iff.mp h
  rw [Signature.tryFrom] at h
  split_ifs at h with hlength
  cases h
  exact hbytes

/-! ### Claims -/

theorem asStr_eq_some {ν : Type} {x : Option (Json ν)} :
  x.bind Json.asStr = some s ↔ x = some (.string s)
  := by
  constructor
  · intro h
    obtain ⟨json, rfl, h⟩ := Option.bind_eq_some_iff.mp h
    cases json with
    | string s' => cases h; rfl
    | null | bool | number | array | object => cases h
  · rintro rfl
    rfl

theorem asNumber_eq_some {ν : Type} {x : Option (Json ν)} {n : ν} :
  x.bind Json.asNumber = some n ↔ x = some (.number n)
  := by
  constructor
  · intro h
    obtain ⟨json, rfl, h⟩ := Option.bind_eq_some_iff.mp h
    cases json with
    | number n' => cases h; rfl
    | null | bool | string | array | object => cases h
  · rintro rfl
    rfl

theorem checkType_eq_ok {header : List (Bytes × Json Number)} :
  checkType header = .ok () ↔
    ∀ typ ∈ forbiddenTypes, header.lookup (ascii "typ") ≠ some (.string typ)
  := by
  rw [checkType]
  cases h : (header.lookup (ascii "typ")).bind Json.asStr with
  | none =>
      constructor
      · intro _ typ _ heq
        rw [asStr_eq_some.mpr heq] at h
        cases h
      · exact fun _ => rfl
  | some typ =>
      rw [asStr_eq_some] at h
      dsimp only
      rw [refuse_eq_ok, h]
      constructor
      · rintro hnot typ' htyp' heq
        cases heq
        exact hnot htyp'
      · intro hall hmem
        exact hall typ hmem rfl

/-- What is checked of a token before its signature: the members of its header and payload, what is
taken from them, and the time, the audience and the method that they have to match. -/
structure Opens [TokenEncoding] [JsonParser] (audience lxm : Option Bytes) (now : ℤ) (s : Segments)
    (token : Opened) : Prop where
  header : ∃ header, decodeJsonObject s.header = some header
    ∧ header.lookup (ascii "alg") = some (.string token.alg)
    ∧ ∀ typ ∈ forbiddenTypes, header.lookup (ascii "typ") ≠ some (.string typ)
  payload : decodeJsonObject s.payload = some token.claims.claims
  iss : token.claims.claims.lookup (ascii "iss") = some (.string token.claims.iss)
  aud : token.claims.claims.lookup (ascii "aud") = some (.string token.claims.aud)
  exp : ∃ exp, token.claims.claims.lookup (ascii "exp") = some (.number exp)
    ∧ token.claims.exp = numberValue exp
  tokenLxm : optionalString token.claims.claims (ascii "lxm") = .ok token.claims.lxm
  nonce : ∃ nonce, optionalString token.claims.claims (ascii "nonce") = .ok nonce
  jti : token.claims.jti = (token.claims.claims.lookup (ascii "jti")).bind Json.asStr
  issuer : splitIss token.claims.iss = some (token.claims.did, token.claims.fragment)
  notExpired : secondsSinceEpoch now ≤ token.claims.exp
  sameAudience : ∀ a, audience = some a → token.claims.aud = a
  sameMethod : ∀ m, lxm = some m → token.claims.lxm = some m
  signingInput : token.signingInput = s.signed
  signature : token.sig = (decodeB64url s.signature).bind Signature.tryFrom

theorem any_ne_eq_true {α : Type} [BEq α] [LawfulBEq α] {x : Option α} {a : α} :
  ¬(x.any (· != a)) = true ↔ ∀ b, x = some b → a = b
  := by
  cases x with
  | none => simp
  | some b =>
      rw [Option.any_some, bne_iff_ne, not_not]
      constructor
      · rintro rfl b' h
        exact Option.some.inj h
      · exact fun h => (h b rfl).symm

theorem any_ne_some_eq_true {α : Type} [BEq α] [LawfulBEq α] {x y : Option α} :
  ¬(x.any fun b => y != some b) = true ↔ ∀ b, x = some b → y = some b
  := by
  cases x with
  | none => simp
  | some b => simp

/-- A token is opened exactly if it has three segments that pass the checks. -/
theorem openToken_eq_ok [TokenEncoding] [JsonParser] {audience lxm : Option Bytes} {now : ℤ}
    {token : Opened} :
  openToken audience lxm jwt now = .ok token ↔
    ∃ s : Segments, s.text = jwt ∧ Opens audience lxm now s token
  := by
  constructor
  · intro h
    rw [openToken] at h
    split at h
    · rename_i headerB64 payloadB64 sigB64 hsplit
      obtain ⟨s, rfl, rfl, rfl, rfl⟩ := exists_segments hsplit
      obtain ⟨header, hheader, h⟩ := Except.bind_eq_ok.mp h
      obtain ⟨alg, halg, h⟩ := Except.bind_eq_ok.mp h
      obtain ⟨⟨⟩, htyp, h⟩ := Except.bind_eq_ok.mp h
      obtain ⟨claims, hclaims, h⟩ := Except.bind_eq_ok.mp h
      obtain ⟨iss, hiss, h⟩ := Except.bind_eq_ok.mp h
      obtain ⟨aud, haud, h⟩ := Except.bind_eq_ok.mp h
      obtain ⟨exp, hexp, h⟩ := Except.bind_eq_ok.mp h
      obtain ⟨tokenLxm, hlxm, h⟩ := Except.bind_eq_ok.mp h
      obtain ⟨nonce, hnonce, h⟩ := Except.bind_eq_ok.mp h
      obtain ⟨⟨⟩, htime, h⟩ := Except.bind_eq_ok.mp h
      obtain ⟨⟨⟩, haudience, h⟩ := Except.bind_eq_ok.mp h
      obtain ⟨⟨⟩, hmethod, h⟩ := Except.bind_eq_ok.mp h
      obtain ⟨issuer, hissuer, h⟩ := Except.bind_eq_ok.mp h
      cases h
      rw [ofOption_eq_ok] at hheader halg hclaims hiss haud hexp hissuer
      rw [asStr_eq_some] at halg hiss haud
      rw [asNumber_eq_some] at hexp
      rw [refuse_eq_ok] at htime haudience hmethod
      exact ⟨s, rfl, {
        header := ⟨header, hheader, halg, checkType_eq_ok.mp htyp⟩
        payload := hclaims
        iss := hiss
        aud := haud
        exp := ⟨exp, hexp, rfl⟩
        tokenLxm := hlxm
        nonce := ⟨nonce, hnonce⟩
        jti := rfl
        issuer := hissuer
        notExpired := not_lt.mp htime
        sameAudience := any_ne_eq_true.mp haudience
        sameMethod := any_ne_some_eq_true.mp hmethod
        signingInput := s.take_text
        signature := rfl }⟩
    · cases h
  · rintro ⟨s, rfl, h⟩
    obtain ⟨header, hheader, halg, htyp⟩ := h.header
    obtain ⟨exp, hexp, hvalue⟩ := h.exp
    obtain ⟨nonce, hnonce⟩ := h.nonce
    have htime : ¬numberValue exp < secondsSinceEpoch now := by
      rw [← hvalue, not_lt]
      exact h.notExpired
    rw [openToken, s.splitOn_text]
    apply Except.bind_eq_ok.mpr ⟨header, ofOption_eq_ok.mpr hheader, _⟩
    apply Except.bind_eq_ok.mpr ⟨token.alg, ofOption_eq_ok.mpr (asStr_eq_some.mpr halg), _⟩
    apply Except.bind_eq_ok.mpr ⟨(), checkType_eq_ok.mpr htyp, _⟩
    apply Except.bind_eq_ok.mpr ⟨_, ofOption_eq_ok.mpr h.payload, _⟩
    apply Except.bind_eq_ok.mpr ⟨_, ofOption_eq_ok.mpr (asStr_eq_some.mpr h.iss), _⟩
    apply Except.bind_eq_ok.mpr ⟨_, ofOption_eq_ok.mpr (asStr_eq_some.mpr h.aud), _⟩
    apply Except.bind_eq_ok.mpr ⟨_, ofOption_eq_ok.mpr (asNumber_eq_some.mpr hexp), _⟩
    apply Except.bind_eq_ok.mpr ⟨_, h.tokenLxm, _⟩
    apply Except.bind_eq_ok.mpr ⟨_, hnonce, _⟩
    apply Except.bind_eq_ok.mpr ⟨(), refuse_eq_ok.mpr htime, _⟩
    apply Except.bind_eq_ok.mpr ⟨(), refuse_eq_ok.mpr (any_ne_eq_true.mpr h.sameAudience), _⟩
    apply Except.bind_eq_ok.mpr ⟨(), refuse_eq_ok.mpr (any_ne_some_eq_true.mpr h.sameMethod), _⟩
    apply Except.bind_eq_ok.mpr ⟨_, ofOption_eq_ok.mpr h.issuer, _⟩
    rw [s.take_text, ← h.signingInput, ← h.signature, ← h.jti, ← hvalue]

/-! ### Keys -/

section

variable [Ecdsa] [Hashing]

/-- A signature is verified by a key of the algorithm that the token names. -/
theorem checkSignature_eq_true {didKey msg alg : Bytes} {sig : Option Signature} :
  checkSignature didKey msg sig alg = .ok true ↔
    ∃ key signature, parseDidKey didKey = .ok key ∧ key.jwtAlg = alg ∧ sig = some signature
      ∧ key.verifyMalleable msg signature = .ok ()
  := by
  rw [checkSignature]
  cases parseDidKey didKey with
  | error e =>
      constructor
      · nofun
      · rintro ⟨key, signature, hkey, -⟩
        cases hkey
  | ok key =>
      dsimp only
      constructor
      · intro h
        split_ifs at h with halg
        cases sig with
        | none => cases h
        | some signature =>
            rw [Option.any_some] at h
            cases hverify : key.verifyMalleable msg signature with
            | error e =>
                rw [hverify] at h
                cases h
            | ok u => exact ⟨key, signature, rfl, not_not.mp halg, rfl, hverify⟩
      · rintro ⟨key', signature, hkey, halg, rfl, hverify⟩
        cases hkey
        rw [if_neg (not_not_intro halg), Option.any_some, hverify]
        rfl

/-- The calls of the resolver for a token: one, or a second one that is forced, after the key of the
first did not verify the signature. -/
inductive Asked (token : Opened) : List Resolution → Prop where
  | once (answer : Except ServiceAuthError Bytes) : Asked token [⟨token.claims.iss, false, answer⟩]
  | twice (key : Bytes) (answer : Except ServiceAuthError Bytes)
      (failed : checkSignature key token.signingInput token.sig token.alg ≠ .ok true) :
      Asked token [⟨token.claims.iss, false, .ok key⟩, ⟨token.claims.iss, true, answer⟩]

/-- The outcome of a check. -/
def concluded (claims : ServiceJwtClaims) (checked : Except ServiceAuthError Bool) :
    Except ServiceAuthError ServiceJwtClaims :=
  checked.bind fun valid => if valid then .ok claims else .error .badSignature

omit [Ecdsa] [Hashing] in
theorem concluded_eq_ok {claims c : ServiceJwtClaims} {checked : Except ServiceAuthError Bool} :
  concluded claims checked = .ok c ↔ checked = .ok true ∧ c = claims
  := by
  cases checked with
  | error e =>
      constructor
      · nofun
      · rintro ⟨h, -⟩
        cases h
  | ok valid =>
      cases valid with
      | false =>
          constructor
          · nofun
          · rintro ⟨h, -⟩
            cases h
      | true =>
          constructor
          · intro h
            cases h
            exact ⟨rfl, rfl⟩
          · rintro ⟨-, rfl⟩
            rfl

namespace ServiceJwtVerifier

variable {verifier : ServiceJwtVerifier} {token : Opened} {key : Bytes}

omit [Ecdsa] [Hashing] in
theorem conclude_apply (checked : Except ServiceAuthError Bool) (calls : List Resolution) :
  (Stateful.ofExcept checked >>= fun valid =>
    if valid then pure token.claims else Stateful.fail .badSignature : Resolving _) calls
    = (concluded token.claims checked, calls)
  := by
  cases checked with
  | error e => rfl
  | ok valid => cases valid <;> rfl

omit [Ecdsa] [Hashing] in
theorem resolveSigningKey_apply {calls : List Resolution} {iss : Bytes} {forceRefresh : Bool}
    {answer : Except ServiceAuthError Bytes}
    (h : verifier.resolver calls iss forceRefresh = answer) :
  verifier.resolveSigningKey iss forceRefresh calls
    = (answer, calls ++ [⟨iss, forceRefresh, answer⟩])
  := by
  rw [resolveSigningKey, h]

theorem checkKeys_of_error {e : ServiceAuthError}
    (h : verifier.resolver [] token.claims.iss false = .error e) :
  verifier.checkKeys token [] = (.error e, [⟨token.claims.iss, false, .error e⟩])
  := Stateful.bind_of_error (resolveSigningKey_apply h)

theorem checkKeys_of_verified (h : verifier.resolver [] token.claims.iss false = .ok key)
    (hverified : checkSignature key token.signingInput token.sig token.alg = .ok true) :
  verifier.checkKeys token [] = (.ok token.claims, [⟨token.claims.iss, false, .ok key⟩])
  := by
  rw [checkKeys, Stateful.bind_of_ok (resolveSigningKey_apply h), hverified]
  rfl

theorem refreshed_of_failed {checked : Except ServiceAuthError Bool} (h : checked ≠ .ok true) :
  verifier.refreshed token key checked = (do
    let fresh ← verifier.resolveSigningKey token.claims.iss true
    if fresh ≠ key then pure (checkSignature fresh token.signingInput token.sig token.alg)
    else pure checked)
  := by
  cases checked with
  | error e => rfl
  | ok valid =>
      cases valid with
      | false => rfl
      | true => exact absurd rfl h

/-- After the first key fails, the resolver is called again, and its second answer decides. -/
theorem checkKeys_of_failed {answer : Except ServiceAuthError Bytes}
    (h : verifier.resolver [] token.claims.iss false = .ok key)
    (hfailed : checkSignature key token.signingInput token.sig token.alg ≠ .ok true)
    (hanswer : verifier.resolver [⟨token.claims.iss, false, .ok key⟩] token.claims.iss true
      = answer) :
  verifier.checkKeys token []
    = (answer.bind fun fresh => concluded token.claims
        (checkSignature fresh token.signingInput token.sig token.alg),
      [⟨token.claims.iss, false, .ok key⟩, ⟨token.claims.iss, true, answer⟩])
  := by
  rw [checkKeys, Stateful.bind_of_ok (resolveSigningKey_apply h), refreshed_of_failed hfailed,
    List.nil_append]
  cases answer with
  | error e =>
      rw [Stateful.bind_of_error (Stateful.bind_of_error (resolveSigningKey_apply hanswer))]
      rfl
  | ok fresh =>
      have hchecked : (verifier.resolveSigningKey token.claims.iss true >>= fun fresh =>
          if fresh ≠ key then pure (checkSignature fresh token.signingInput token.sig token.alg)
          else pure (checkSignature key token.signingInput token.sig token.alg))
          [⟨token.claims.iss, false, .ok key⟩]
          = (.ok (checkSignature fresh token.signingInput token.sig token.alg),
            [⟨token.claims.iss, false, .ok key⟩, ⟨token.claims.iss, true, .ok fresh⟩]) := by
        rw [Stateful.bind_of_ok (resolveSigningKey_apply hanswer)]
        split_ifs with hne
        · rfl
        · rw [not_not.mp hne]
          rfl
      rw [Stateful.bind_of_ok hchecked, conclude_apply]
      rfl

/-- The resolver is called at most twice, and the claims are those of the token only if a key that
it answered verifies the signature. -/
theorem checkKeys_cases {r : Except ServiceAuthError ServiceJwtClaims} {calls : List Resolution}
    (h : verifier.checkKeys token [] = (r, calls)) :
  Asked token calls ∧ ∀ c, r = .ok c → c = token.claims ∧
    ∃ didKey forced, ⟨c.iss, forced, .ok didKey⟩ ∈ calls
      ∧ checkSignature didKey token.signingInput token.sig token.alg = .ok true
  := by
  cases hfirst : verifier.resolver [] token.claims.iss false with
  | error e =>
      rw [checkKeys_of_error hfirst] at h
      cases h
      exact ⟨.once _, nofun⟩
  | ok key =>
      by_cases hchecked : checkSignature key token.signingInput token.sig token.alg = .ok true
      · rw [checkKeys_of_verified hfirst hchecked] at h
        cases h
        refine ⟨.once _, ?_⟩
        intro c hc
        cases hc
        exact ⟨rfl, key, false, List.mem_singleton_self _, hchecked⟩
      · rw [checkKeys_of_failed hfirst hchecked rfl] at h
        cases h
        refine ⟨.twice key _ hchecked, ?_⟩
        intro c hc
        cases hsecond : verifier.resolver [⟨token.claims.iss, false, .ok key⟩] token.claims.iss
          true with
        | error e =>
            rw [hsecond] at hc
            cases hc
        | ok fresh =>
            rw [hsecond] at hc
            obtain ⟨hfresh, rfl⟩ := concluded_eq_ok.mp hc
            refine ⟨rfl, fresh, true, ?_, hfresh⟩
            exact List.mem_cons_of_mem _ (List.mem_singleton_self _)

/-- A token is accepted if a key that verifies it is answered, at once or to the second call. -/
theorem checkKeys_accepts {didKey : Bytes}
    (hkey : checkSignature didKey token.signingInput token.sig token.alg = .ok true)
    (hfirst : verifier.resolver [] token.claims.iss false = .ok key) (hanswered : key = didKey ∨
      verifier.resolver [⟨token.claims.iss, false, .ok key⟩] token.claims.iss true = .ok didKey) :
  ∃ calls, verifier.checkKeys token [] = (.ok token.claims, calls)
  := by
  by_cases hchecked : checkSignature key token.signingInput token.sig token.alg = .ok true
  · exact ⟨_, checkKeys_of_verified hfirst hchecked⟩
  · rcases hanswered with rfl | hsecond
    · exact absurd hkey hchecked
    · have hconcluded := concluded_eq_ok.mpr ⟨hkey, Eq.refl token.claims⟩
      exact ⟨_, (checkKeys_of_failed hfirst hchecked hsecond).trans (congrArg (·, _) hconcluded)⟩

end ServiceJwtVerifier

end

/-! ### Tokens that are made -/

/-- The members of an object that is written. -/
def values (members : List (Bytes × Member)) : List (Bytes × Json Number) :=
  members.map fun m => (m.1, m.2.value)

/-- The text of an object is read as the members that were written. -/
def Reads [TokenEncoding] [JsonParser] (members : List (Bytes × Member)) : Prop :=
  JsonParser.fromSlice (toVec members) = some (.object (values members))

theorem decodeJsonObject_b64Json [TokenEncoding] [JsonParser] {members : List (Bytes × Member)}
    (h : Reads members) :
  decodeJsonObject (b64Json members) = some (List.collectEntries (values members))
  := by
  rw [decodeJsonObject, b64Json, decodeB64url_encode, Option.bind_some, h]

theorem lookup_jwtHeader (alg : Bytes) :
  (List.collectEntries (values (jwtHeader alg))).lookup (ascii "alg") = some (.string alg)
    ∧ (List.collectEntries (values (jwtHeader alg))).lookup (ascii "typ")
      = some (.string (ascii "JWT"))
  := by
  rw [List.lookup_collectEntries, List.lookup_collectEntries]
  exact ⟨rfl, rfl⟩

section

variable [TokenEncoding] (params : ServiceJwtParams) (unixTimeMillis : UInt64) (jti : Bytes)

/-- The payload of a token that is made, as it is read. -/
def payloadMap : List (Bytes × Json Number) :=
  List.collectEntries (values (params.payload unixTimeMillis jti))

/-- The claims of a token that is made. -/
def madeClaims (did : Did) (fragment : Option Bytes) : ServiceJwtClaims where
  iss := params.iss
  did
  fragment
  aud := params.aud
  exp := (params.expiry unixTimeMillis).toNat
  lxm := params.lxm
  jti := some (hexLower jti)
  claims := payloadMap params unixTimeMillis jti

/-- The members of the payload are found by their names. -/
theorem lookup_payloadMap :
  (payloadMap params unixTimeMillis jti).lookup (ascii "iss") = some (.string params.iss)
    ∧ (payloadMap params unixTimeMillis jti).lookup (ascii "aud") = some (.string params.aud)
    ∧ (payloadMap params unixTimeMillis jti).lookup (ascii "exp")
      = some (Member.seconds (params.expiry unixTimeMillis)).value
    ∧ (payloadMap params unixTimeMillis jti).lookup (ascii "lxm") = params.lxm.map .string
    ∧ (payloadMap params unixTimeMillis jti).lookup (ascii "nonce") = none
    ∧ (payloadMap params unixTimeMillis jti).lookup (ascii "jti")
      = some (.string (hexLower jti))
  := by
  simp only [payloadMap, List.lookup_collectEntries]
  rw [ServiceJwtParams.payload]
  cases params.lxm <;> exact ⟨rfl, rfl, rfl, rfl, rfl, rfl⟩

/-- The segments of a token that is made. -/
def made (alg : Bytes) (sig : Signature) : Segments where
  header := b64Json (jwtHeader alg)
  payload := b64Json (params.payload unixTimeMillis jti)
  signature := base64url sig.val
  noDot := by
    intro segment hsegment
    simp only [List.mem_cons, List.not_mem_nil, or_false] at hsegment
    rcases hsegment with rfl | rfl | rfl <;> exact dot_not_mem_base64url _

theorem createServiceJwt_eq_ok [Ecdsa] [Hashing] {key : PrivateKey} {jwt : Bytes} :
  createServiceJwt params key unixTimeMillis jti = .ok jwt ↔
    ∃ sig, (made params unixTimeMillis jti key.publicKey.jwtAlg sig).text = jwt
      ∧ key.sign (made params unixTimeMillis jti key.publicKey.jwtAlg sig).signed = .ok sig
  := by
  constructor
  · intro h
    obtain ⟨sig, hsign, h⟩ := Except.bind_eq_ok.mp h
    cases h
    exact ⟨sig, rfl, Except.mapError_eq_ok.mp hsign⟩
  · rintro ⟨sig, rfl, hsign⟩
    exact Except.bind_eq_ok.mpr ⟨sig, Except.mapError_eq_ok.mpr hsign, rfl⟩

/-- What a token that is made is opened as. -/
def madeToken (alg : Bytes) (sig : Signature) (did : Did) (fragment : Option Bytes) : Opened where
  signingInput := (made params unixTimeMillis jti alg sig).signed
  sig := some sig
  alg
  claims := madeClaims params unixTimeMillis jti did fragment

variable [JsonParser]

/-- A token that is made passes the checks until it expires. -/
theorem opens_made {audience lxm : Option Bytes} {now : ℤ} {alg : Bytes} {sig : Signature}
    {did : Did} {fragment : Option Bytes} (hheader : Reads (jwtHeader alg))
    (hpayload : Reads (params.payload unixTimeMillis jti))
    (hiss : splitIss params.iss = some (did, fragment))
    (hnow : secondsSinceEpoch now ≤ (params.expiry unixTimeMillis).toNat)
    (haudience : ∀ a, audience = some a → params.aud = a)
    (hlxm : ∀ m, lxm = some m → params.lxm = some m) :
  Opens audience lxm now (made params unixTimeMillis jti alg sig)
    (madeToken params unixTimeMillis jti alg sig did fragment)
  := by
  obtain ⟨hlookupIss, haud, hexp, htokenLxm, hnonce, hjti⟩ :=
    lookup_payloadMap params unixTimeMillis jti
  obtain ⟨halg, htyp⟩ := lookup_jwtHeader alg
  exact {
    header := by
      refine ⟨_, decodeJsonObject_b64Json hheader, halg, ?_⟩
      intro typ hforbidden heq
      cases htyp.symm.trans heq
      exact absurd hforbidden (by decide)
    payload := decodeJsonObject_b64Json hpayload
    iss := hlookupIss
    aud := haud
    exp := ⟨_, hexp, rfl⟩
    tokenLxm := by
      show optionalString (payloadMap params unixTimeMillis jti) _ = .ok params.lxm
      rw [optionalString, htokenLxm]
      cases params.lxm <;> rfl
    nonce := by
      refine ⟨none, ?_⟩
      show optionalString (payloadMap params unixTimeMillis jti) _ = .ok none
      rw [optionalString, hnonce]
    jti := by
      show some (hexLower jti) = ((payloadMap params unixTimeMillis jti).lookup _).bind _
      rw [hjti]
      rfl
    issuer := hiss
    notExpired := hnow
    sameAudience := haudience
    sameMethod := hlxm
    signingInput := rfl
    signature := by
      show some sig = (decodeB64url (base64url sig.val)).bind Signature.tryFrom
      rw [decodeB64url_encode, Option.bind_some, Signature.tryFrom, dif_pos sig.2] }

end

/-! ### Soundness and completeness -/

theorem div_le_secondsSinceEpoch (now : ℤ) :
  (now : ℚ) / 10 ^ 9 ≤ secondsSinceEpoch now
  := by
  rw [secondsSinceEpoch]
  apply div_le_div_of_nonneg_right _ (by positivity)
  exact_mod_cast le_max_left now 0

theorem secondsSinceEpoch_le {now : ℤ} {exp : ℕ} (h : (now : ℚ) / 10 ^ 9 ≤ exp) :
  secondsSinceEpoch now ≤ exp
  := by
  rw [secondsSinceEpoch]
  rcases le_total now 0 with hnow | hnow
  · rw [max_eq_right hnow, Int.cast_zero, zero_div]
    exact Nat.cast_nonneg exp
  · rwa [max_eq_left hnow]

section

variable [Ecdsa] [Hashing]

/-- The signature of a token is one of 64 bytes over the text of its header and payload. It is
verified, in its low-S form, by a key of the algorithm that the token names, which the resolver
answered for the issuer of the token. -/
def Signed [TokenEncoding] (s : Segments) (token : Opened) (calls : List Resolution) : Prop :=
  ∃ (sig : Signature) (didKey : Bytes) (forced : Bool) (key : PublicKey)
      (parsed : Ecdsa.Sig key.curve),
    decodeB64url s.signature = some sig.val
      ∧ ⟨token.claims.iss, forced, .ok didKey⟩ ∈ calls
      ∧ parseDidKey didKey = .ok key ∧ key.jwtAlg = token.alg
      ∧ Ecdsa.sigFromBytes key.curve sig = some parsed
      ∧ Ecdsa.verifyPrehash key.inner (sha256 s.signed) (lowS parsed) = true

/-- The key of a signer verifies the token that it made. -/
theorem checkSignature_made [LawfulEcdsa] {key : PrivateKey} (hkey : key.Matches)
    {msg : Bytes} {sig : Signature} (h : key.sign msg = .ok sig) :
  checkSignature key.publicKey.didKey msg (some sig) key.publicKey.jwtAlg = .ok true
  := checkSignature_eq_true.mpr
    ⟨key.publicKey, sig, parseDidKey_didKey _, rfl, rfl, verifyMalleable_sign hkey h⟩

variable [TokenEncoding] [JsonParser]

/-- Verification is sound and complete. A token that is accepted has three segments, its claims are
those of its payload and pass the checks, and it is signed with a key that its issuer was resolved
to. The resolver is called at most twice, the second time forced and after the first key failed. A
token that is made by a signer is accepted until it expires, if the audience and the method match
and the resolver answers the key of the signer, at once or to the second call. -/
theorem verifyAt_sound_and_complete (verifier : ServiceJwtVerifier) (jwt : Bytes)
    (lxm : Option Bytes) (now : ℤ) :
  (∀ c calls, verifier.verifyAt jwt lxm now [] = (.ok c, calls) →
    ∃ s token, s.text = jwt ∧ token.claims = c ∧ Opens verifier.audience lxm now s token
      ∧ (now : ℚ) / 10 ^ 9 ≤ c.exp ∧ Signed s token calls)
  ∧ (∀ r calls, verifier.verifyAt jwt lxm now [] = (r, calls) →
    calls = [] ∨ ∃ token, openToken verifier.audience lxm jwt now = .ok token ∧ Asked token calls)
  ∧ (LawfulEcdsa → ∀ (params : ServiceJwtParams) (key : PrivateKey) (unixTimeMillis : UInt64)
      (jti : Bytes) (did : Did) (fragment : Option Bytes) (first : Bytes),
    createServiceJwt params key unixTimeMillis jti = .ok jwt →
    key.Matches →
    Reads (jwtHeader key.publicKey.jwtAlg) → Reads (params.payload unixTimeMillis jti) →
    splitIss params.iss = some (did, fragment) →
    (now : ℚ) / 10 ^ 9 ≤ (params.expiry unixTimeMillis).toNat →
    (∀ a, verifier.audience = some a → params.aud = a) →
    (∀ m, lxm = some m → params.lxm = some m) →
    verifier.resolver [] params.iss false = .ok first →
    (first = key.publicKey.didKey ∨ verifier.resolver [⟨params.iss, false, .ok first⟩] params.iss
      true = .ok key.publicKey.didKey) →
    ∃ calls, verifier.verifyAt jwt lxm now []
      = (.ok (madeClaims params unixTimeMillis jti did fragment), calls))
  := by
  have hopen : ∀ token, openToken verifier.audience lxm jwt now = .ok token →
      verifier.verifyAt jwt lxm now [] = verifier.checkKeys token [] := by
    intro token htoken
    rw [ServiceJwtVerifier.verifyAt, htoken]
    rfl
  refine ⟨?_, ?_, ?_⟩
  · intro c calls h
    cases htoken : openToken verifier.audience lxm jwt now with
    | error e =>
        rw [ServiceJwtVerifier.verifyAt, htoken] at h
        cases h
    | ok token =>
        rw [hopen token htoken] at h
        obtain ⟨s, hs, hopens⟩ := openToken_eq_ok.mp htoken
        obtain ⟨rfl, didKey, forced, hcall, hverified⟩ :=
          (ServiceJwtVerifier.checkKeys_cases h).2 c rfl
        obtain ⟨key, sig, hparse, halg, hsig, hverify⟩ := checkSignature_eq_true.mp hverified
        obtain ⟨parsed, hparsed, hverify⟩ := verifyMalleable_eq_ok.mp hverify
        rw [hopens.signature] at hsig
        rw [hopens.signingInput] at hverify
        refine ⟨s, token, hs, rfl, hopens, ?_, sig, didKey, forced, key, parsed, ?_, hcall, hparse,
          halg, hparsed, hverify⟩
        · exact (div_le_secondsSinceEpoch now).trans hopens.notExpired
        · exact decode_of_tryFrom hsig
  · intro r calls h
    cases htoken : openToken verifier.audience lxm jwt now with
    | error e =>
        rw [ServiceJwtVerifier.verifyAt, htoken] at h
        cases h
        exact .inl rfl
    | ok token =>
        rw [hopen token htoken] at h
        exact .inr ⟨token, rfl, (ServiceJwtVerifier.checkKeys_cases h).1⟩
  · intro hlawful params key unixTimeMillis jti did fragment first hmade hkey hheader hpayload hiss
      hnow haudience hlxm hfirst hanswered
    obtain ⟨sig, hjwt, hsign⟩ := (createServiceJwt_eq_ok params unixTimeMillis jti).mp hmade
    have hopens : Opens verifier.audience lxm now
        (made params unixTimeMillis jti key.publicKey.jwtAlg sig)
        (madeToken params unixTimeMillis jti key.publicKey.jwtAlg sig did fragment) :=
      opens_made params unixTimeMillis jti hheader hpayload hiss (secondsSinceEpoch_le hnow)
        haudience hlxm
    have hverified := checkSignature_made hkey hsign
    rw [hopen _ (openToken_eq_ok.mpr ⟨_, hjwt, hopens⟩)]
    exact ServiceJwtVerifier.checkKeys_accepts hverified hfirst hanswered

end

/-! ### A signer whose key was replaced -/

namespace Rotated

/-- Points that are their encodings, signed with by appending them to the digest. -/
@[reducible]
def plain : Ecdsa where
  Point _ := { bs : Bytes // bs.length = 33 ∧ (bs.head? = some 2 ∨ bs.head? = some 3) }
  Sig _ := Signature
  fromSec1Bytes _ bytes :=
    if h : bytes.length = 33 ∧ (bytes.head? = some 2 ∨ bytes.head? = some 3) then some ⟨bytes, h⟩
    else none
  toCompressed point := point.val
  sigFromBytes _ sig := some sig
  sigToBytes sig := sig
  normalizeS _ := none
  verifyPrehash point digest sig := sig.val == digest.val ++ point.val.tail
  base58Encode bytes := bytes
  base58Decode text := some text

attribute [local instance] plain Hashing.checksum

theorem plain_lawful :
  LawfulEcdsa
  where
  base58Decode_encode _ := rfl
  length_toCompressed point := point.2.1
  head_toCompressed point := point.2.2
  fromSec1Bytes_toCompressed point := dif_pos point.2
  sigFromBytes_toBytes _ := rfl
  normalizeS_normalized _ _ := nofun

theorem point_valid (x : UInt8) :
  (2 :: List.replicate 32 x).length = 33
    ∧ ((2 :: List.replicate 32 x).head? = some 2 ∨ (2 :: List.replicate 32 x).head? = some 3)
  := by simp

/-- A key. -/
def publicKey (x : UInt8) : PublicKey := ⟨.p256, ⟨2 :: List.replicate 32 x, point_valid x⟩⟩

theorem length_signature (digest : Digest) (x : UInt8) :
  (digest.val ++ List.replicate 32 x).length = 64
  := by simp [digest.2]

/-- The private key of a key. -/
def privateKey (x : UInt8) : PrivateKey where
  publicKey := publicKey x
  signPrehash digest := .ok ⟨digest.val ++ List.replicate 32 x, length_signature digest x⟩

theorem privateKey_matches (x : UInt8) :
  (privateKey x).Matches
  := by
  intro digest sig h
  cases h
  exact beq_self_eq_true _

/-- The token of an issuer with a fragment, bound to a method. -/
def params : ServiceJwtParams where
  iss := ascii "did:web:a#b"
  aud := ascii "did:web:c"
  lxm := some (ascii "x.y.z")

/-- The JSON text of a member. -/
def json : Member → Bytes
  | .text s => jsonString s
  | .seconds n => toText 10 n.toNat

theorem base64Url_idxOf :
  ∀ digit < 2 ^ 6, base64UrlAlphabet.idxOf? (base64UrlAlphabet.getD digit 0) = some digit
  := by decide

/-- Base64 of the alphabet, hexadecimal digits and compact JSON texts. -/
@[reducible]
def encoding : TokenEncoding where
  base64url := encodeBits 6 base64UrlAlphabet
  base64urlDecode text := (decodeBits 6 base64UrlAlphabet text).filter fun data =>
    encodeBits 6 base64UrlAlphabet data = text
  hexLower bytes := bytes.flatMap fun b => [lowerHex (b.toNat / 16), lowerHex (b.toNat % 16)]
  toVec members :=
    0x7b :: join (char ',') (members.map fun m => jsonString m.1 ++ char ':' :: json m.2) ++ [0x7d]
  mem_base64url _ := mem_encodeBits (by decide)
  decode_base64url data := by
    rw [decodeBits_encodeBits (by decide) (by decide) base64Url_idxOf, Option.filter_some]
    exact if_pos (decide_eq_true rfl)

attribute [local instance] encoding

/-- A parser of the two objects of the token. -/
@[reducible]
def parser : JsonParser where
  fromSlice text :=
    if text = toVec (jwtHeader (ascii "ES256")) then
      some (.object (values (jwtHeader (ascii "ES256"))))
    else if text = toVec (params.payload 1000 []) then
      some (.object (values (params.payload 1000 [])))
    else none

attribute [local instance] parser

theorem reads_header :
  Reads (jwtHeader (privateKey 1).publicKey.jwtAlg)
  := if_pos rfl

theorem reads_payload :
  Reads (params.payload 1000 [])
  := by
  have hne : toVec (params.payload 1000 []) ≠ toVec (jwtHeader (ascii "ES256")) :=
    fun h => absurd (congrArg (List.take 3) h) (by decide)
  exact (if_neg hne).trans (if_pos rfl)

theorem did_valid :
  Did.validate (ascii "did:web:a") = .ok ()
  := by decide

/-- The issuer without its fragment. -/
def did : Did := ⟨ascii "did:web:a", did_valid⟩

theorem splitIss_params :
  splitIss params.iss = some (did, some (ascii "b"))
  := by
  have hdid : Did.tryFrom (ascii "did:web:a") = .ok did := Did.tryFrom_eq_ok.mpr rfl
  have hsplit : splitOnce (char '#') params.iss = some (ascii "did:web:a", ascii "b") := by decide
  rw [splitIss, hsplit]
  dsimp only
  rw [if_neg (by decide), hdid]
  rfl

/-- A resolver that keeps another key until it is forced to look again. -/
def verifier : ServiceJwtVerifier where
  audience := some (ascii "did:web:c")
  resolver _ _ forceRefresh := .ok (publicKey (if forceRefresh then 1 else 2)).didKey

/-- A token that the new key signed is accepted in its last second, after the second call of the
resolver. -/
theorem accepted_after_rotation :
  ∃ jwt calls, createServiceJwt params (privateKey 1) 1000 [] = .ok jwt
    ∧ verifier.verifyAt jwt (some (ascii "x.y.z")) (61 * 10 ^ 9) []
      = (.ok (madeClaims params 1000 [] did (some (ascii "b"))), calls)
  := by
  have hsign : (privateKey 1).sign (b64Json (jwtHeader (privateKey 1).publicKey.jwtAlg)
      ++ char '.' :: b64Json (params.payload 1000 [])) = .ok ⟨_, length_signature _ 1⟩ := rfl
  have hmade := (createServiceJwt_eq_ok params 1000 []).mpr ⟨_, rfl, hsign⟩
  have hexpiry : (params.expiry 1000).toNat = 61 := by decide
  obtain ⟨calls, hcalls⟩ := (verifyAt_sound_and_complete verifier _ (some (ascii "x.y.z"))
    (61 * 10 ^ 9)).2.2 plain_lawful params (privateKey 1) 1000 [] did (some (ascii "b"))
    (publicKey 2).didKey hmade (privateKey_matches 1) reads_header reads_payload splitIss_params
    (by norm_num [hexpiry]) (by decide) (by decide) rfl (.inr rfl)
  exact ⟨_, calls, hmade, hcalls⟩

end Rotated

end Shrike.ServiceAuth
