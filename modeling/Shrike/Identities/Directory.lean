import Shrike.Data.Assoc
import Shrike.Data.History
import Shrike.Outbound.Identity

/-!
# The directory of identities

A directory caches the identities it has looked up. Calls of it take turns: a lookup reads the
generation, looks into the cache, waits for the network, and looks at the cache again, and between
any two of these other calls can do something.
-/

/-!
## Identities

The documents of DIDs as they come from the network, and the identities they describe.
-/

namespace Shrike.Identities

open Bytes Outbound Syntax

/-- The errors of looking identities up: those of the requests, and those of what was answered. -/
inductive IdentityError where
  | request (error : Outbound.IdentityError)
  | invalidDocument (reason : Bytes)
  | handleMismatch (reason : Bytes)

/-- A key that a document lists. -/
structure VerificationMethod where
  id : Bytes
  publicKeyMultibase : Option Bytes

/-- A service that a document lists. -/
structure Service where
  id : Bytes
  type : Bytes
  serviceEndpoint : Bytes

/-- The document of a DID. -/
structure DidDocument where
  id : Bytes
  alsoKnownAs : List Bytes
  verificationMethod : List VerificationMethod
  service : List Service

/-- A service of an identity. -/
structure ServiceEndpoint where
  id : Bytes
  type : Bytes
  endpoint : Bytes

/-- What a DID stands for. The keys and the services are found by their fragments. -/
structure Identity (Key : Type) where
  did : Did
  handle : Option Handle
  keys : List (Bytes × Key)
  services : List (Bytes × ServiceEndpoint)

/-- How a directory reaches the network, and what it uses from other libraries: the texts of
strings in messages, and the keys that did:key identifiers spell. -/
structure Resolver (Key : Type) where
  plcUrl : Bytes
  addressPolicy : AddressPolicy
  debug : Bytes → Bytes
  parseDidKey : Bytes → Option Key

/-- Put a value under a key of a map. -/
def insertKey {κ ν : Type} [DecidableEq κ] (entries : List (κ × ν)) (key : κ) (val : ν) :
    List (κ × ν) :=
  (key, val) :: entries.eraseP fun e => e.1 = key

/-- The fragment that an id of a key or a service names in the document with an id. -/
def normalizeFragment (id docId : Bytes) : Option Bytes :=
  match stripPrefix [char '#'] id with
  | some rest => if rest = [] then none else some id
  | none => do
      let frag ← stripPrefix docId id
      if frag.head? = some (char '#') ∧ 1 < frag.length then some frag else none

variable {Key : Type} (resolver : Resolver Key)

/-- The first handle that a document declares. -/
def DidDocument.handle (doc : DidDocument) : Option Handle :=
  doc.alsoKnownAs.findSome? fun uri => do
    let h ← stripPrefix (ascii "at://") uri
    (Handle.tryFrom h).toOption

/-- The keys of a document. -/
def DidDocument.keys (doc : DidDocument) : List (Bytes × Key) :=
  doc.verificationMethod.foldl (fun keys vm =>
    ((do
      let fragment ← normalizeFragment vm.id doc.id
      let multibase ← vm.publicKeyMultibase
      let key ← resolver.parseDidKey (ascii "did:key:" ++ multibase)
      some (insertKey keys fragment key)) : Option _).getD keys) []

/-- The services of a document. -/
def DidDocument.services (doc : DidDocument) : List (Bytes × ServiceEndpoint) :=
  doc.service.foldl (fun services svc =>
    match normalizeFragment svc.id doc.id with
    | some fragment =>
        insertKey services fragment ⟨fragment, svc.type, svc.serviceEndpoint⟩
    | none => services) []

/-- The identity that a document describes, with the handle it declares. -/
def fromDocument (doc : DidDocument) : Except IdentityError (Identity Key) :=
  match Did.tryFrom doc.id with
  | .error e => .error (.invalidDocument
      (ascii "invalid DID: invalid DID: " ++ resolver.debug doc.id ++ ascii ": " ++ ascii e))
  | .ok did => .ok ⟨did, doc.handle, doc.keys resolver, doc.services⟩

/-- What came of a request for a document. -/
inductive Answer where
  | failed (reason : Bytes)
  | notSuccess
  | unreadable (reason : Bytes)
  | tooLarge
  | malformed (reason : Bytes)
  | document (doc : DidDocument)

/-- The URL that the document of a DID is requested from. -/
def Resolver.documentUrl (did : Did) : Except IdentityError Bytes :=
  let method := ((splitOnce (char ':') (did.raw.drop 4)).map Prod.fst).getD []
  if method = ascii "plc" then .ok (resolver.plcUrl ++ ascii "/" ++ did.raw)
  else if method = ascii "web" then
    (resolveDidWeb did resolver.addressPolicy).mapError .request
  else .error (.request (.notFound (ascii "unsupported DID method: " ++ method)))

/-- The document in the answer to a request, which has to be that of the DID. -/
def fetchDidDocument (answer : Answer) (expected : Did) : Except IdentityError DidDocument :=
  match answer with
  | .failed reason => .error (.request (.network reason))
  | .notSuccess => .error (.request (.notFound expected.raw))
  | .unreadable reason => .error (.request (.network reason))
  | .tooLarge => .error (.invalidDocument (ascii "DID document exceeds 1048576 bytes"))
  | .malformed reason => .error (.invalidDocument reason)
  | .document doc =>
      if doc.id ≠ expected.raw then
        .error (.invalidDocument (ascii "DID document id " ++ resolver.debug doc.id ++
          ascii " does not match requested DID " ++ resolver.debug expected.raw))
      else .ok doc

variable {did expected : Did}

/-- An answer holds a document only if it is that of the DID. -/
theorem fetchDidDocument_eq_ok {answer : Answer} {doc : DidDocument}
    (h : fetchDidDocument resolver answer expected = .ok doc) :
  answer = .document doc ∧ doc.id = expected.raw
  := by
  cases answer with
  | document doc' =>
      rw [fetchDidDocument] at h
      split_ifs at h with hid
      cases h
      exact ⟨rfl, not_not.mp hid⟩
  | _ => cases h

variable {identity : Identity Key}

/-- The identity that a document describes has the DID that the id of the document spells. -/
theorem fromDocument_did {doc : DidDocument}
    (h : fromDocument resolver doc = .ok identity) (hid : doc.id = did.raw) :
  identity.did = did
  := by
  rw [fromDocument, Did.tryFrom_eq_ok.mpr hid.symm] at h
  cases h
  rfl

/-- An identity is that of a DID: the document of the DID describes it, but for the handle, which is
verified on its own. -/
def Described (did : Did) (identity : Identity Key) : Prop :=
  ∃ answer declared, fetchDidDocument resolver answer did >>= fromDocument resolver
    = .ok { identity with handle := declared }

theorem did_of_fetched {answer : Answer}
    (h : fetchDidDocument resolver answer did >>= fromDocument resolver = .ok identity) :
  identity.did = did
  := by
  obtain ⟨doc, hdoc, hidentity⟩ := Except.bind_eq_ok.mp h
  exact fromDocument_did resolver hidentity (fetchDidDocument_eq_ok resolver hdoc).2

theorem Described.did_eq (h : Described resolver did identity) :
  identity.did = did
  := by
  obtain ⟨answer, declared, h⟩ := h
  have hdid := did_of_fetched resolver h
  exact hdid

end Shrike.Identities

/-! ## The directory of identities -/

namespace Shrike.Identities

open Bytes Syntax

/-! ### The cache -/

/-- A shared identity, with the lookup that made it. -/
structure Shared (Key : Type) where
  lookup : ℕ
  identity : Identity Key

/-- An entry of the cache. -/
structure CacheEntry (Key : Type) where
  identity : Shared Key
  expiresAtMillis : ℕ
  generation : UInt64

/-- The entries of the cache. -/
abbrev Cache (Key : Type) : Type := List (Did × CacheEntry Key)

/-- How long an entry is used, in milliseconds. -/
def defaultTtl : ℕ := 300000

/-- How many entries a cache holds. -/
def defaultCapacity : ℕ := 1024

namespace Cache

variable {Key : Type}

/-- Take an entry out of the cache. -/
def remove (cache : Cache Key) (did : Did) : Cache Key := cache.eraseP fun e => e.1 = did

/-- The identity of the entry for a DID, unless it has expired or is of another generation. -/
def hit (cache : Cache Key) (did : Did) (generation : UInt64) (now : ℕ) : Option (Shared Key) := do
  let entry ← cache.lookup did
  if now < entry.expiresAtMillis ∧ entry.generation = generation then some entry.identity else none

/-- A hit is on an entry that is of the generation and has not expired. -/
theorem hit_eq_some {cache : Cache Key} {did : Did} {generation : UInt64} {now : ℕ}
    {shared : Shared Key} :
  cache.hit did generation now = some shared ↔ ∃ entry, cache.lookup did = some entry ∧
    now < entry.expiresAtMillis ∧ entry.generation = generation ∧ entry.identity = shared
  := by
  rw [hit]
  cases h : cache.lookup did with
  | none => simp
  | some entry => simp [and_assoc]

/-- Make room for an entry: take out the first entry that has expired, or else the first one, in an
order of the entries with the time at which each is looked at. -/
def evict (cache : Cache Key) (iterated : List (Did × ℕ)) : Cache Key :=
  match iterated.find? fun p => (cache.lookup p.1).any fun e => e.expiresAtMillis ≤ p.2 with
  | some p => cache.remove p.1
  | none =>
      match iterated.head? with
      | some p => cache.remove p.1
      | none => cache

/-- Put an identity into the cache. -/
def store (cache : Cache Key) (did : Did) (identity : Shared Key) (generation : UInt64)
    (iterated : List (Did × ℕ)) (now : ℕ) : Cache Key :=
  let room :=
    if defaultCapacity ≤ cache.length ∧ (cache.lookup did).isNone then cache.evict iterated
    else cache
  insertKey room did ⟨identity, min (now + defaultTtl) (2 ^ 64 - 1), generation⟩

end Cache

/-! ### Calls -/

/-- Decide whether the declared handle of a document is that of the DID. -/
def verifyDeclaredHandle (declared : Handle) (resolved : Option Did) (did : Did) : Option Handle :=
  if resolved = some did then some declared else none

variable {Key : Type}

/-- How far a lookup of a DID has come. -/
inductive Phase (Key : Type) where
  | starting
  | checking (generation : UInt64)
  | missed (generation : UInt64)
  | fetching (generation : UInt64)
  | verifying (generation : UInt64) (identity : Identity Key) (declared : Handle)
  | storing (generation : UInt64) (identity : Shared Key)
  | done (result : Except IdentityError (Shared Key))

/-- How far a call has come. A lookup of a handle looks up the DID that the handle resolves to. -/
inductive Task (Key : Type) where
  | resolving (handle : Handle)
  | calling (handle : Handle) (did : Did)
  | lookup (wanted : Option Handle) (did : Did) (phase : Phase Key)
  | answering (handle : Handle) (result : Except IdentityError (Shared Key))
  | purging (did : Did)
  | removing (did : Did)

/-- A directory with the calls of it that are under way, and how many calls there have been. -/
structure Directory (Key : Type) where
  generation : UInt64
  cache : Cache Key
  tasks : ℕ → Option (Task Key)
  calls : ℕ

/-- A directory before any call. -/
def Directory.new : Directory Key := ⟨0, [], fun _ => none, 0⟩

/-- The state of a call changes. -/
def Directory.set (s : Directory Key) (t : ℕ) (task : Option (Task Key)) : Directory Key :=
  { s with tasks := Function.update s.tasks t task }

/-- A call begins. -/
def Directory.call (s : Directory Key) (task : Task Key) : Directory Key :=
  { s.set s.calls (some task) with calls := s.calls + 1 }

/-- The directory goes on to the next generation. -/
def Directory.bump (s : Directory Key) : Directory Key := { s with generation := s.generation + 1 }

/-- An entry of the cache is taken out. -/
def Directory.forget (s : Directory Key) (did : Did) : Directory Key :=
  { s with cache := s.cache.remove did }

/-- An identity is put into the cache, unless the generation of its lookup is over. -/
def Directory.keep (s : Directory Key) (did : Did) (generation : UInt64) (shared : Shared Key)
    (iterated : List (Did × ℕ)) (now : ℕ) : Directory Key :=
  if s.generation ≠ generation then s
  else { s with cache := s.cache.store did shared generation iterated now }

@[simp]
theorem tasks_set_self (s : Directory Key) (t : ℕ) (task : Option (Task Key)) :
  (s.set t task).tasks t = task
  := by
  rw [Directory.set]
  apply Function.update_self

theorem tasks_set_of_ne (s : Directory Key) {t u : ℕ} (h : u ≠ t) (task : Option (Task Key)) :
  (s.set t task).tasks u = s.tasks u
  := by
  rw [Directory.set]
  apply Function.update_of_ne h

@[simp]
theorem tasks_call_self (s : Directory Key) (task : Task Key) :
  (s.call task).tasks s.calls = some task
  := tasks_set_self s s.calls (some task)

theorem tasks_call_of_ne (s : Directory Key) {u : ℕ} (h : u ≠ s.calls) (task : Task Key) :
  (s.call task).tasks u = s.tasks u
  := tasks_set_of_ne s h (some task)

/-- What a lookup of a handle does with the DID that the handle resolves to. -/
def called (handle : Handle) : Except IdentityError Did → Task Key
  | .ok did => .calling handle did
  | .error e => .answering handle (.error e)

/-- What a lookup does with what it finds in the cache. -/
def checked (generation : UInt64) : Option (Shared Key) → Phase Key
  | some shared => .done (.ok shared)
  | none => .missed generation

/-- The identity that a lookup shares, with a handle. -/
def Identity.share (identity : Identity Key) (t : ℕ) (handle : Option Handle) : Shared Key :=
  ⟨t, { identity with handle := handle }⟩

variable (resolver : Resolver Key)

/-- What a lookup does with the answer to its request for a document. -/
def answered (t : ℕ) (did : Did) (generation : UInt64) (answer : Answer) : Phase Key :=
  match fetchDidDocument resolver answer did >>= fromDocument resolver with
  | .error e => .done (.error e)
  | .ok identity =>
      match identity.handle with
      | some declared => .verifying generation identity declared
      | none => .storing generation (identity.share t none)

/-- What a lookup of a handle does with the identity of the DID that the handle resolved to. -/
def lookupHandleResult (handle : Handle) (did : Did) (result : Except IdentityError (Shared Key)) :
    Except IdentityError (Shared Key) := do
  let shared ← result
  if shared.identity.handle = some handle then .ok shared
  else .error (.handleMismatch (ascii "handle " ++ handle.raw ++ ascii " resolved to " ++ did.raw ++
    ascii ", but that DID document does not declare " ++ handle.raw))

/-- What happens in a step: calls begin, do something, and return. -/
inductive Label (Key : Type) where
  | lookupDid (t : ℕ) (did : Did)
  | lookupHandle (t : ℕ) (handle : Handle)
  | purge (t : ℕ) (did : Did)
  | resolved (t : ℕ) (handle : Handle) (answer : Except IdentityError Did)
  | load (t : ℕ)
  | check (t : ℕ)
  | request (t : ℕ) (did : Did)
  | refuse (t : ℕ)
  | answer (t : ℕ) (did : Did) (answer : Answer)
  | store (t : ℕ)
  | bump (t : ℕ)
  | purged (t : ℕ) (did : Did)
  | lookedUp (t : ℕ) (did : Did) (result : Except IdentityError (Shared Key))
  | found (t : ℕ) (handle : Handle) (result : Except IdentityError (Shared Key))
  | drop (t : ℕ)

/-- The steps of a directory. The answers of the network, the clock, and the order in which the
cache is looked through are arbitrary. -/
inductive Step : Directory Key → Label Key → Directory Key → Prop where
  | lookupDid (s : Directory Key) (did : Did) :
      Step s (.lookupDid s.calls did) (s.call (.lookup none did .starting))
  | lookupHandle (s : Directory Key) (handle : Handle) :
      Step s (.lookupHandle s.calls handle) (s.call (.resolving handle))
  | purge (s : Directory Key) (did : Did) :
      Step s (.purge s.calls did) (s.call (.purging did))
  | resolve {s : Directory Key} {t handle}
      (answer : Except IdentityError Did) (task : s.tasks t = some (.resolving handle)) :
      Step s (.resolved t handle answer) (s.set t (some (called handle answer)))
  | call {s : Directory Key} {t handle did} (task : s.tasks t = some (.calling handle did)) :
      Step s (.lookupDid t did) (s.set t (some (.lookup (some handle) did .starting)))
  | load {s : Directory Key} {t wanted did}
      (task : s.tasks t = some (.lookup wanted did .starting)) :
      Step s (.load t) (s.set t (some (.lookup wanted did (.checking s.generation))))
  | check {s : Directory Key} {t wanted did generation}
      (now : ℕ) (task : s.tasks t = some (.lookup wanted did (.checking generation))) :
      Step s (.check t) (s.set t (some (.lookup wanted did
        (checked generation (s.cache.hit did generation now)))))
  | request {s : Directory Key} {t wanted did generation url}
      (task : s.tasks t = some (.lookup wanted did (.missed generation)))
      (target : resolver.documentUrl did = .ok url) :
      Step s (.request t did) (s.set t (some (.lookup wanted did (.fetching generation))))
  | refuse {s : Directory Key} {t wanted did generation e}
      (task : s.tasks t = some (.lookup wanted did (.missed generation)))
      (target : resolver.documentUrl did = .error e) :
      Step s (.refuse t) (s.set t (some (.lookup wanted did (.done (.error e)))))
  | answer {s : Directory Key} {t wanted did generation}
      (answer : Answer) (task : s.tasks t = some (.lookup wanted did (.fetching generation))) :
      Step s (.answer t did answer)
        (s.set t (some (.lookup wanted did (answered resolver t did generation answer))))
  | verify {s : Directory Key} {t wanted did generation}
      {identity : Identity Key} {declared} (answer : Except IdentityError Did)
      (task : s.tasks t = some (.lookup wanted did (.verifying generation identity declared))) :
      Step s (.resolved t declared answer) (s.set t (some (.lookup wanted did (.storing generation
        (identity.share t (verifyDeclaredHandle declared answer.toOption did))))))
  | store {s : Directory Key} {t wanted did generation shared} {iterated : List (Did × ℕ)} (now : ℕ)
      (task : s.tasks t = some (.lookup wanted did (.storing generation shared)))
      (order : (iterated.map Prod.fst).Perm (s.cache.map Prod.fst)) :
      Step s (.store t) ((s.keep did generation shared iterated now).set t
        (some (.lookup wanted did (.done (.ok shared)))))
  | lookedUp {s : Directory Key} {t} {wanted : Option Handle} {did result}
      (task : s.tasks t = some (.lookup wanted did (.done result))) :
      Step s (.lookedUp t did result) (s.set t (wanted.map fun handle =>
        .answering handle (lookupHandleResult handle did result)))
  | found {s : Directory Key} {t handle result}
      (task : s.tasks t = some (.answering handle result)) :
      Step s (.found t handle result) (s.set t none)
  | bump {s : Directory Key} {t did} (task : s.tasks t = some (.purging did)) :
      Step s (.bump t) (s.bump.set t (some (.removing did)))
  | purged {s : Directory Key} {t did} (task : s.tasks t = some (.removing did)) :
      Step s (.purged t did) ((s.forget did).set t none)
  | drop {s : Directory Key} {t task} (task : s.tasks t = some task) :
      Step s (.drop t) (s.set t none)

end Shrike.Identities
