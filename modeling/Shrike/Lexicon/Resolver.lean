import Mathlib.Data.List.MinMax
import Shrike.Cbor.Json
import Shrike.Data.Form
import Shrike.Identities.Directory
import Shrike.Repo.Proof
import Shrike.Syntax.AtUriParts

/-!
# The resolver of lexicons

How the lexicon of an NSID is resolved: the authority of the NSID from DNS, the record of the
lexicon from a proof, and the lexicon from the record. What was resolved is cached, and calls of
the resolver and of its cache take turns.
-/

/-!
## Caching hooks

The cache that the resolver of lexicons uses: maps of authorities and of records, whose entries
expire and are evicted when a map is full.
-/

namespace Shrike.Lexicon

/-! ### Maps whose entries expire -/

/-- How long a record is cached, in nanoseconds. -/
def defaultRecordTtl : ℕ := 60 * 60 * 10 ^ 9

/-- How long an authority is cached, in nanoseconds. -/
def defaultAuthorityTtl : ℕ := 5 * 60 * 10 ^ 9

/-- How many entries a map holds. -/
def defaultCapacity : ℕ := 1024

/-- When an entry expires that is inserted at a time. No instant is later than the last. -/
def expiry (lastInstant ttl now : ℕ) : ℕ :=
  if now + ttl ≤ lastInstant then now + ttl
  else if now + defaultRecordTtl ≤ lastInstant then now + defaultRecordTtl
  else now

theorem expiry_le (lastInstant ttl now : ℕ) :
  expiry lastInstant ttl now ≤ now + ttl
  := by
  rw [expiry]
  split_ifs
  · exact Nat.le_refl _
  · omega
  · exact Nat.le_add_right _ _

/-- A map whose entries expire: keys with values and the times of their expiry. -/
structure TtlMap (κ ν : Type) where
  map : List (κ × ν × ℕ)
  ttl : ℕ
  capacity : ℕ

namespace TtlMap

variable {κ ν : Type} [DecidableEq κ]

/-- Take a key out. -/
def remove (m : TtlMap κ ν) (key : κ) : TtlMap κ ν :=
  { m with map := m.map.filter fun e => e.1 ≠ key }

/-- The value of a key, unless it has expired. An entry that has expired is taken out. -/
def get (m : TtlMap κ ν) (key : κ) (now : ℕ) : Option ν × TtlMap κ ν :=
  match m.map.lookup key with
  | none => (none, m)
  | some (value, expires) => if now < expires then (some value, m) else (none, m.remove key)

/-- Make room for an entry: take out those that have expired, and if there is none the first of
those that expire soonest. -/
def evict (m : TtlMap κ ν) (now : ℕ) : TtlMap κ ν :=
  let m := { m with map := m.map.filter fun e => now < e.2.2 }
  if m.capacity ≤ m.map.length then
    match m.map.argmin fun e => e.2.2 with
    | some oldest => m.remove oldest.1
    | none => m
  else m

/-- Put a value under a key. A full map makes room for a new key. -/
def insert (m : TtlMap κ ν) (lastInstant : ℕ) (key : κ) (value : ν) (now : ℕ) : TtlMap κ ν :=
  if m.capacity = 0 ∨ m.ttl = 0 then m
  else
    let room := if m.capacity ≤ m.map.length ∧ (m.map.lookup key).isNone then m.evict now else m
    { room with map := (key, value, expiry lastInstant m.ttl now) :: (room.remove key).map }

/-- Keep the entries of some keys. -/
def retain (m : TtlMap κ ν) (keep : κ → Bool) : TtlMap κ ν :=
  { m with map := m.map.filter fun e => keep e.1 }

/-- Take all entries out. -/
def clear (m : TtlMap κ ν) : TtlMap κ ν := { m with map := [] }

/-- The same map, with its entries in another order. -/
structure Reordered (m m' : TtlMap κ ν) : Prop where
  map : m'.map.Perm m.map
  ttl : m'.ttl = m.ttl
  capacity : m'.capacity = m.capacity

/-! ### Entries -/

variable {m : TtlMap κ ν} {key : κ} {now lastInstant : ℕ} {value : ν} {e : κ × ν × ℕ}

theorem mem_remove (h : e ∈ (m.remove key).map) :
  e ∈ m.map ∧ e.1 ≠ key
  := by
  obtain ⟨hmem, hne⟩ := List.mem_filter.mp h
  exact ⟨hmem, of_decide_eq_true hne⟩

theorem mem_evict (h : e ∈ (m.evict now).map) :
  e ∈ m.map
  := by
  rw [evict] at h
  dsimp only at h
  split_ifs at h
  · split at h
    · exact (List.mem_filter.mp (mem_remove h).1).1
    · exact (List.mem_filter.mp h).1
  · exact (List.mem_filter.mp h).1

/-- A value that is found is that of an entry that has not expired. -/
theorem mem_of_get (h : (m.get key now).1 = some value) :
  ∃ expires, (key, value, expires) ∈ m.map ∧ now < expires
  := by
  rw [get] at h
  cases hlookup : m.map.lookup key with
  | none =>
      rw [hlookup] at h
      cases h
  | some entry =>
      rw [hlookup] at h
      dsimp only at h
      split_ifs at h with hfresh
      cases h
      exact ⟨entry.2, List.mem_of_lookup hlookup, hfresh⟩

/-- A look into a map adds no entry and changes none. -/
theorem mem_get (h : e ∈ (m.get key now).2.map) :
  e ∈ m.map
  := by
  rw [get] at h
  split at h
  · exact h
  · split_ifs at h
    · exact h
    · exact (mem_remove h).1

/-- An entry after an insertion is the inserted one or was there before. -/
theorem mem_insert (h : e ∈ (m.insert lastInstant key value now).map) :
  e = (key, value, expiry lastInstant m.ttl now) ∨ e ∈ m.map
  := by
  rw [insert] at h
  split_ifs at h
  · exact .inr h
  · rcases List.mem_cons.mp h with h | h
    · exact .inl h
    · exact .inr (mem_evict (mem_remove h).1)
  · rcases List.mem_cons.mp h with h | h
    · exact .inl h
    · exact .inr (mem_remove h).1

omit [DecidableEq κ] in
theorem mem_retain {keep : κ → Bool} (h : e ∈ (m.retain keep).map) :
  e ∈ m.map ∧ keep e.1 = true
  := List.mem_filter.mp h

@[simp]
theorem ttl_get (m : TtlMap κ ν) (key : κ) (now : ℕ) :
  (m.get key now).2.ttl = m.ttl
  := by
  rw [get]
  split
  · rfl
  · split_ifs <;> rfl

@[simp]
theorem ttl_insert (m : TtlMap κ ν) (lastInstant : ℕ) (key : κ) (value : ν) (now : ℕ) :
  (m.insert lastInstant key value now).ttl = m.ttl
  := by
  have hevict : (m.evict now).ttl = m.ttl := by
    rw [evict]
    dsimp only
    split_ifs
    · split <;> rfl
    · rfl
  rw [insert]
  split_ifs
  · rfl
  · exact hevict
  · rfl

end TtlMap

end Shrike.Lexicon

/-! ## The resolver of lexicons -/

namespace Shrike.Lexicon.Resolver

open Bytes Cbor Syntax Repo Outbound

/-! ### Authorities -/

/-- The strings of a TXT record. -/
abbrev TxtRecord := List Bytes

/-- The errors of looking TXT records up. -/
inductive TxtError where
  | notFound (name : Bytes)
  | failed (name message : Bytes)

/-- The errors of resolving the authority of an NSID. -/
inductive AuthorityError where
  | notFound (name : Bytes)
  | ambiguous (name : Bytes) (count : ℕ)
  | invalidDid (name value : Bytes)
  | lookup (e : TxtError)

/-- The authority of an NSID, in the order of DNS. -/
def authority (nsid : Nsid) : Bytes :=
  let domain := nsid.raw.take ((rfind (char '.') nsid.raw).getD 0)
  join (char '.') (domain.splitOn (char '.')).reverse

/-- The name of the TXT records of the authority of an NSID. -/
def lexiconAuthorityName (nsid : Nsid) : Bytes := ascii "_lexicon." ++ authority nsid

/-- The length of the longest name in DNS. -/
def maxDnsNameLen : ℕ := 253

/-- The DID of the one TXT record that has one. -/
def parseLexiconTxt (name : Bytes) (records : List TxtRecord) : Except AuthorityError Did :=
  match (records.map List.flatten).filterMap (stripPrefix (ascii "did=")) with
  | [value] =>
      match (if utf8 value then (Did.tryFrom value).toOption else none) with
      | some did => .ok did
      | none => .error (.invalidDid name (fromUtf8Lossy value))
  | [] => .error (.notFound name)
  | values => .error (.ambiguous name values.length)

/-- The authority of an NSID from the answer to a lookup. A name that is too long is not looked
up. -/
def resolveLexiconAuthority (nsid : Nsid) (answer : Except TxtError (List TxtRecord)) :
    Except AuthorityError Did :=
  let name := lexiconAuthorityName nsid
  if maxDnsNameLen < name.length then .error (.notFound name)
  else
    match answer with
    | .ok records => parseLexiconTxt name records
    | .error (.notFound _) => .error (.notFound name)
    | .error (.failed n message) => .error (.lookup (.failed n message))

/-! ### Records -/

/-- A record as it is stored in a repository. -/
structure FetchedRecord where
  cid : Cid
  record : Bytes

/-- A lexicon that was resolved. -/
structure ResolvedLexicon (Schema : Type) where
  uri : Bytes
  cid : Cid
  schema : Schema
  json : Json Number
  record : Bytes

/-- What can be wrong with a record. -/
inductive RecordFault where
  | notDrisl (cid : Cid)
  | cidMismatch (cid : Cid)
  | json (e : JsonError)
  | type (found : Option Bytes)

/-- The errors of resolving a lexicon. -/
inductive ResolveError (ε : Type) where
  | authority (nsid : Nsid) (source : AuthorityError)
  | identity (did : Did) (source : Identities.IdentityError)
  | missingPds (did : Did)
  | missingSigningKey (did : Did)
  | invalidPdsEndpoint (did : Did) (endpoint reason : Bytes)
  | http (uri message : Bytes)
  | httpStatus (uri : Bytes) (status : ℕ) (detail : Bytes)
  | recordNotFound (uri : Bytes)
  | tooLarge (uri : Bytes) (limit : ℕ)
  | proof (uri : Bytes) (source : ProofError)
  | invalidRecord (uri : Bytes) (fault : RecordFault)
  | invalidDocument (uri : Bytes) (source : ε)
  | idMismatch (uri id : Bytes)
  | invalidSyntax (reason : String)

/-- A resolver: how its directory reaches the network, the URL library, which addresses it may reach
itself, and the documents that JSON values are read as. -/
structure LexiconResolver (Schema ε : Type) where
  directory : Identities.Resolver VerifyingKey
  url : Net.UrlLibrary
  addressPolicy : AddressPolicy
  parseSchema : Json Number → Except ε Schema
  schemaId : Schema → Bytes
  maxProofBytes : ℕ
  lastInstant : ℕ

/-- The URI of the lexicon of an NSID in the repository of a DID. -/
def recordUri (did : Did) (nsid : Nsid) : Bytes :=
  ascii "at://" ++ did.raw ++ ascii "/" ++ lexiconSchemaNsid ++ ascii "/" ++ nsid.raw

/-- An answer of a personal data server. -/
inductive Response where
  | failed (message : Bytes)
  | status (code : ℕ) (error message : Option Bytes)
  | unreadable (message : Bytes)
  | body (car : Bytes)

section

variable {Schema ε : Type} (resolver : LexiconResolver Schema ε)

/-- The signing key of an identity, which also has to have a usable endpoint. -/
def signingKey (did : Did) (nsid : Nsid)
    (answer : Except Identities.IdentityError (Identities.Identity VerifyingKey)) :
    Except (ResolveError ε) VerifyingKey := do
  let identity ← answer.mapError (.identity did)
  match identity.services.lookup (ascii "#atproto_pds") with
  | none => .error (.missingPds did)
  | some service =>
      match identity.keys.lookup (ascii "#atproto") with
      | none => .error (.missingSigningKey did)
      | some key =>
          let url := getRecordUrl resolver.url resolver.addressPolicy did service.endpoint nsid
          let _ ← url.mapError fun e => .invalidPdsEndpoint e.did e.endpoint e.reason
          .ok key

variable [Hashing] [DataEncoding]

/-- The record in the answer of a server, which has to prove it. -/
def fetchedRecord (did : Did) (nsid : Nsid) (key : VerifyingKey) (response : Response) :
    Except (ResolveError ε) FetchedRecord :=
  let uri := recordUri did nsid
  match response with
  | .failed message => .error (.http uri message)
  | .status code error message =>
      if error = some (ascii "RecordNotFound") then .error (.recordNotFound uri)
      else .error (.httpStatus uri code
        ((ascii ": ").intercalate (error.toList ++ message.toList)))
  | .unreadable message => .error (.http uri message)
  | .body car =>
      if resolver.maxProofBytes < car.length then .error (.tooLarge uri resolver.maxProofBytes)
      else do
        let collection ← (Nsid.tryFrom lexiconSchemaNsid).mapError .invalidSyntax
        let rkey ← (RecordKey.tryFrom nsid.raw).mapError .invalidSyntax
        let proof ← (verifyRecordProof car did key collection rkey).mapError (.proof uri)
        match proof.record with
        | some (cid, record) => .ok ⟨cid, record⟩
        | none => .error (.recordNotFound uri)

/-- Check a record and read it as the lexicon of an NSID. -/
def validate (uri : Bytes) (nsid : Nsid) (fetched : FetchedRecord) :
    Except (ResolveError ε) (ResolvedLexicon Schema) :=
  if fetched.cid.codec ≠ .drisl then .error (.invalidRecord uri (.notDrisl fetched.cid))
  else if Cid.compute .drisl fetched.record ≠ fetched.cid then
    .error (.invalidRecord uri (.cidMismatch fetched.cid))
  else do
    let json ← (drislToJson fetched.record).mapError fun e => .invalidRecord uri (.json e)
    match json.get (ascii "$type") with
    | some (.string type) =>
        if type ≠ lexiconSchemaNsid then .error (.invalidRecord uri (.type (some type)))
        else do
          let schema ← (resolver.parseSchema json).mapError (.invalidDocument uri)
          if resolver.schemaId schema ≠ nsid.raw then
            .error (.idMismatch uri (resolver.schemaId schema))
          else .ok ⟨uri, fetched.cid, schema, json, fetched.record⟩
    | _ => .error (.invalidRecord uri (.type none))

end

/-! ### Calls -/

/-- Where the result of a step of the resolution comes from. -/
inductive ResolutionSource where
  | hook
  | network

/-- The authority of an NSID, with the resolution that it was obtained by: the answer, when it came,
and after how many steps the resolution began. -/
structure Authority where
  did : Did
  records : List TxtRecord
  time : ℕ
  began : ℕ

/-- A record with the resolution that it was obtained by: the identity and the proof, when the proof
was verified, and after how many steps the resolution began. -/
structure ProvedRecord where
  fetched : FetchedRecord
  identity : Identities.Identity VerifyingKey
  car : Bytes
  time : ℕ
  began : ℕ

/-- A fetch of the lexicon of an NSID from a DID. If it belongs to a `get`, it has the authority that
this took, and when. The purges of the NSID that had returned when the call began are those that
began in the first steps, up to a number. -/
structure Fetch where
  did : Did
  nsid : Nsid
  authority : Option (Authority × ℕ)
  purged : ℕ

/-- How far a call has come. What it does between two waits takes no time. -/
inductive Task where
  | resolving (nsid : Nsid) (purged : ℕ)
  | lookingUp (nsid : Nsid) (purged began : ℕ)
  | fetching (f : Fetch)
  | identifying (f : Fetch) (began : ℕ)
  | requesting (f : Fetch) (began : ℕ) (identity : Identities.Identity VerifyingKey)
      (key : VerifyingKey)
  | purging (nsid : Nsid) (began : ℕ)
  | retaining (nsid : Nsid) (began : ℕ)
  | clearing (began : ℕ)
  | clearingRecords (began : ℕ)

/-- A resolver with its cache and the calls that are under way. The number of steps, and the steps in
which entries were last taken out by calls, are there to speak about. -/
structure State where
  authorities : TtlMap Bytes Authority
  records : TtlMap (Did × Nsid) ProvedRecord
  tasks : ℕ → Option Task
  calls : ℕ
  clock : ℕ
  steps : ℕ
  authorityRemoved : Bytes → ℕ
  recordsRemoved : Nsid → ℕ
  purged : Nsid → ℕ

namespace State

/-- A resolver before any call, with the limits of its cache. -/
def new (authorityTtl recordTtl capacity : ℕ) : State where
  authorities := ⟨[], authorityTtl, capacity⟩
  records := ⟨[], recordTtl, capacity⟩
  tasks _ := none
  calls := 0
  clock := 0
  steps := 0
  authorityRemoved _ := 0
  recordsRemoved _ := 0
  purged _ := 0

/-- A call goes on in a step at a time. -/
def put (s : State) (t : ℕ) (task : Option Task) (now : ℕ) : State :=
  { s with tasks := Function.update s.tasks t task, clock := now, steps := s.steps + 1 }

/-- A call begins. -/
def call (s : State) (task : Task) (now : ℕ) : State :=
  { s.put s.calls (some task) now with calls := s.calls + 1 }

/-- An authority that was resolved is put into the cache, whose entries come in an order. -/
def keepAuthority (s : State) (lastInstant : ℕ) (nsid : Nsid) (a : Authority)
    (iterated : TtlMap Bytes Authority) : State :=
  { s with authorities := iterated.insert lastInstant (authority nsid) a a.time }

/-- A record that was proved is put into the cache, whose entries come in an order. -/
def keepRecord (s : State) (lastInstant : ℕ) (did : Did) (nsid : Nsid) (r : ProvedRecord)
    (iterated : TtlMap (Did × Nsid) ProvedRecord) : State :=
  { s with records := iterated.insert lastInstant (did, nsid) r r.time }

/-- The authority of the group of an NSID is taken out of the cache. -/
def removeAuthority (s : State) (nsid : Nsid) : State :=
  { s with
    authorities := s.authorities.remove (authority nsid)
    authorityRemoved := Function.update s.authorityRemoved (authority nsid) s.steps }

/-- The records of an NSID are taken out of the cache, which ends a purge. -/
def removeRecords (s : State) (nsid : Nsid) (began : ℕ) : State :=
  { s with
    records := s.records.retain fun key => key.2 ≠ nsid
    recordsRemoved := Function.update s.recordsRemoved nsid s.steps
    purged := Function.update s.purged nsid (max (s.purged nsid) began) }

/-- All authorities are taken out of the cache. -/
def clearAuthorities (s : State) : State :=
  { s with authorities := s.authorities.clear, authorityRemoved := fun _ => s.steps }

/-- All records are taken out of the cache, which ends the clearing of it. -/
def clearRecords (s : State) (began : ℕ) : State :=
  { s with
    records := s.records.clear
    recordsRemoved := fun _ => s.steps
    purged := fun nsid => max (s.purged nsid) began }

end State

/-- What a step does that is seen from outside, or puts something into the cache. -/
inductive Event (Schema ε : Type) where
  | silent
  | resolved (nsid : Nsid) (authority : Authority) (source : ResolutionSource)
  | returned (f : Fetch) (lexicon : ResolvedLexicon Schema) (record : ProvedRecord)
      (source : ResolutionSource) (now : ℕ)
  | failed (e : ResolveError ε)

variable {Schema ε : Type} [Hashing] [DataEncoding] (resolver : LexiconResolver Schema ε)

/-- The steps of a resolver. The answers of the network, the clock, and the order of the entries of
a map are arbitrary. -/
inductive Step : State → Event Schema ε → State → Prop where
  | get {s : State} {now} (nsid : Nsid) (later : s.clock ≤ now) :
      Step s .silent (s.call (.resolving nsid (s.purged nsid)) now)
  | fetch {s : State} {now} (did : Did) (nsid : Nsid) (later : s.clock ≤ now) :
      Step s .silent (s.call (.fetching ⟨did, nsid, none, s.purged nsid⟩) now)
  | purge {s : State} {now} (nsid : Nsid) (later : s.clock ≤ now) :
      Step s .silent (s.call (.purging nsid s.steps) now)
  | clear {s : State} {now} (later : s.clock ≤ now) :
      Step s .silent (s.call (.clearing s.steps) now)
  | authorityHit {s : State} {now t p nsid} {a : Authority} (later : s.clock ≤ now)
      (task : s.tasks t = some (.resolving nsid p))
      (hit : (s.authorities.get (authority nsid) now).1 = some a) :
      Step s (.resolved nsid a .hook)
        ({ s with authorities := (s.authorities.get (authority nsid) now).2 }.put t
          (some (.fetching ⟨a.did, nsid, some (a, now), p⟩)) now)
  | authorityMiss {s : State} {now t p nsid} (later : s.clock ≤ now)
      (task : s.tasks t = some (.resolving nsid p))
      (miss : (s.authorities.get (authority nsid) now).1 = none) :
      Step s .silent ({ s with authorities := (s.authorities.get (authority nsid) now).2 }.put t
        (some (.lookingUp nsid p s.steps)) now)
  | authorityResolved {s : State} {now t p began nsid records did iterated} (later : s.clock ≤ now)
      (task : s.tasks t = some (.lookingUp nsid p began))
      (resolved : resolveLexiconAuthority nsid (.ok records) = .ok did)
      (order : s.authorities.Reordered iterated) :
      Step s (.resolved nsid ⟨did, records, now, began⟩ .network)
        ((s.keepAuthority resolver.lastInstant nsid ⟨did, records, now, began⟩ iterated).put t
          (some (.fetching ⟨did, nsid, some (⟨did, records, now, began⟩, now), p⟩)) now)
  | authorityFailed {s : State} {now t p began nsid answer e} (later : s.clock ≤ now)
      (task : s.tasks t = some (.lookingUp nsid p began))
      (failed : resolveLexiconAuthority nsid answer = .error e) :
      Step s (.failed (.authority nsid e)) (s.put t none now)
  | invalidUri {s : State} {now t} {f : Fetch} {reason} (later : s.clock ≤ now)
      (task : s.tasks t = some (.fetching f))
      (invalid : AtUri.validate (recordUri f.did f.nsid) = .error reason) :
      Step s (.failed (.invalidSyntax reason)) (s.put t none now)
  | recordHit {s : State} {now t} {f : Fetch} {r : ProvedRecord} {lexicon} (later : s.clock ≤ now)
      (task : s.tasks t = some (.fetching f))
      (uri : AtUri.validate (recordUri f.did f.nsid) = .ok ())
      (hit : (s.records.get (f.did, f.nsid) now).1 = some r)
      (valid : validate resolver (recordUri f.did f.nsid) f.nsid r.fetched = .ok lexicon) :
      Step s (.returned f lexicon r .hook now)
        ({ s with records := (s.records.get (f.did, f.nsid) now).2 }.put t none now)
  | invalidHit {s : State} {now t} {f : Fetch} {r : ProvedRecord} {e}
      (later : s.clock ≤ now) (task : s.tasks t = some (.fetching f))
      (uri : AtUri.validate (recordUri f.did f.nsid) = .ok ())
      (hit : (s.records.get (f.did, f.nsid) now).1 = some r)
      (invalid : validate resolver (recordUri f.did f.nsid) f.nsid r.fetched = .error e) :
      Step s (.failed e)
        ({ s with records := (s.records.get (f.did, f.nsid) now).2 }.put t none now)
  | recordMiss {s : State} {now t} {f : Fetch} (later : s.clock ≤ now)
      (task : s.tasks t = some (.fetching f))
      (uri : AtUri.validate (recordUri f.did f.nsid) = .ok ())
      (miss : (s.records.get (f.did, f.nsid) now).1 = none) :
      Step s .silent ({ s with records := (s.records.get (f.did, f.nsid) now).2 }.put t
        (some (.identifying f s.steps)) now)
  | identified {s : State} {now t began} {f : Fetch} {identity key} (later : s.clock ≤ now)
      (task : s.tasks t = some (.identifying f began))
      (looked : Identities.Described resolver.directory f.did identity)
      (usable : signingKey resolver f.did f.nsid (.ok identity) = .ok key) :
      Step s .silent (s.put t (some (.requesting f began identity key)) now)
  | identifyFailed {s : State} {now t began} {f : Fetch} {answer e} (later : s.clock ≤ now)
      (task : s.tasks t = some (.identifying f began))
      (failed : signingKey resolver f.did f.nsid answer = .error e) :
      Step s (.failed e) (s.put t none now)
  | responded {s : State} {now t began} {f : Fetch}
      {identity key car fetched} {lexicon : ResolvedLexicon Schema}
      {iterated} (later : s.clock ≤ now)
      (task : s.tasks t = some (.requesting f began identity key))
      (proved : fetchedRecord resolver f.did f.nsid key (.body car) = .ok fetched)
      (valid : validate resolver (recordUri f.did f.nsid) f.nsid fetched = .ok lexicon)
      (order : s.records.Reordered iterated) :
      Step s (.returned f lexicon ⟨fetched, identity, car, now, began⟩ .network now)
        ((s.keepRecord resolver.lastInstant f.did f.nsid
          ⟨⟨lexicon.cid, lexicon.record⟩, identity, car, now, began⟩ iterated).put t none now)
  | respondFailed {s : State} {now t began} {f : Fetch}
      {identity key response e} (later : s.clock ≤ now)
      (task : s.tasks t = some (.requesting f began identity key))
      (failed : (fetchedRecord resolver f.did f.nsid key response >>=
        validate resolver (recordUri f.did f.nsid) f.nsid) = .error e) :
      Step s (.failed e) (s.put t none now)
  | removeAuthority {s : State} {now t began nsid} (later : s.clock ≤ now)
      (task : s.tasks t = some (.purging nsid began)) :
      Step s .silent ((s.removeAuthority nsid).put t (some (.retaining nsid began)) now)
  | purged {s : State} {now t began nsid} (later : s.clock ≤ now)
      (task : s.tasks t = some (.retaining nsid began)) :
      Step s .silent ((s.removeRecords nsid began).put t none now)
  | clearAuthorities {s : State} {now t began} (later : s.clock ≤ now)
      (task : s.tasks t = some (.clearing began)) :
      Step s .silent (s.clearAuthorities.put t (some (.clearingRecords began)) now)
  | cleared {s : State} {now t began} (later : s.clock ≤ now)
      (task : s.tasks t = some (.clearingRecords began)) :
      Step s .silent ((s.clearRecords began).put t none now)
  | drop {s : State} {now t task} (later : s.clock ≤ now) (task : s.tasks t = some task) :
      Step s .silent (s.put t none now)

end Shrike.Lexicon.Resolver
