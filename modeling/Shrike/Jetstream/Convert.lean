import Shrike.Cbor.Cid
import Shrike.Data.Stateful
import Shrike.Jetstream.Block
import Shrike.Syntax.Identifier

/-!
# Converting rows

How a row of the archive is made into an event. The converter keeps the last DID, collection and
revision that it parsed, each with the text that it parsed it from, and parses no such text again.
-/

/-!
## Events

The events of the stream, which rows of the archive and frames of the live stream are made into.
-/

namespace Shrike.Jetstream

open Syntax

/-- The kind of an event. -/
inductive Kind where
  | commit
  | identity
  | account
  | sync
  deriving DecidableEq

/-- What a commit does to a record. -/
inductive Operation where
  | create
  | update
  | delete
  deriving DecidableEq

/-- The kind of event that a row is delivered as. -/
def SegmentKind.publicKind : SegmentKind → Kind
  | .create => .commit
  | .update => .commit
  | .delete => .commit
  | .createResync => .commit
  | .identity => .identity
  | .account => .account
  | .sync => .sync

/-- What a row of a commit does to its record. -/
def SegmentKind.toOperation : SegmentKind → Option Operation
  | .create => some .create
  | .createResync => some .create
  | .update => some .update
  | .delete => some .delete
  | .identity => none
  | .account => none
  | .sync => none

/-- A record, with its CID if it came with one. -/
structure Record where
  cbor : Bytes
  cid : Option Cid

/-- A record whose CID is not known. -/
def Record.fromCanonicalCbor (cbor : Bytes) : Record := { cbor, cid := none }

/-- A record with a CID. -/
def Record.withCid (cbor : Bytes) (cid : Cid) : Record := { cbor, cid := some cid }

/-- A mutation of a record. -/
structure Commit where
  operation : Operation
  collection : Nsid
  rkey : RecordKey
  rev : Tid
  record : Option Record

/-- The messages of the upstream stream that an event can carry, and how they are read. -/
class SyncMessages where
  Identity : Type
  Account : Type
  Sync : Type
  identityFromCbor : Bytes → Option Identity
  accountFromCbor : Bytes → Option Account
  syncFromCbor : Bytes → Option Sync

variable [SyncMessages]

/-- What an event carries. -/
inductive EventPayload where
  | commit (commit : Commit)
  | identity (message : SyncMessages.Identity)
  | account (message : SyncMessages.Account)
  | sync (message : SyncMessages.Sync)

/-- An event. -/
structure Event where
  seq : UInt64
  did : Did
  timeUs : Int64
  payload : EventPayload

/-- The kind of an event. -/
def Event.kind (event : Event) : Kind :=
  match event.payload with
  | .commit _ => .commit
  | .identity _ => .identity
  | .account _ => .account
  | .sync _ => .sync

end Shrike.Jetstream

/-! ## Converting rows -/

namespace Shrike.Jetstream

open Bytes Except Syntax

/-- The text of a column, or an error. -/
def strCol (col : TextColumn) : Except DecodeError Str :=
  ofOption (.malformedEvent "segment row column is not valid UTF-8") col.text

/-- The DID of a row. -/
def parseDid (s : Str) : Except DecodeError Did :=
  (Did.tryFrom s.val).mapError fun _ => .malformedEvent "segment row did is not a valid DID"

/-- The collection of a row. -/
def parseCollection (s : Str) : Except DecodeError Nsid :=
  (Nsid.tryFrom s.val).mapError fun _ => .malformedEvent "segment row collection is not a valid NSID"

/-- The revision of a row. -/
def parseRev (s : Str) : Except DecodeError Tid :=
  (Tid.tryFrom s.val).mapError fun _ => .malformedEvent "segment row rev is not a valid TID"

/-- The record key of a row. -/
def parseRkey (s : Str) : Except DecodeError RecordKey :=
  (RecordKey.tryFrom s.val).mapError fun _ =>
    .malformedEvent "segment row rkey is not a valid record key"

/-! ### The cache -/

/-- A text with the value that it is parsed into. -/
structure Parsed {T : Type} (parse : Str → Except DecodeError T) where
  text : Str
  value : T
  parses : parse text = .ok value

/-- The value that a text is parsed into: the cached one, if it was parsed from this text. -/
def cached {T : Type} (parse : Str → Except DecodeError T) (cache : Option (Parsed parse))
    (text : Str) : Except DecodeError T × Option (Parsed parse) :=
  match cache.filter fun previous => previous.text = text with
  | some previous => (.ok previous.value, cache)
  | none =>
      match h : parse text with
      | .error e => (.error e, cache)
      | .ok value => (.ok value, some ⟨text, value, h⟩)

/-- What is cached makes no difference. -/
theorem cached_fst {T : Type} (parse : Str → Except DecodeError T) (cache : Option (Parsed parse))
    (text : Str) :
  (cached parse cache text).1 = parse text
  := by
  rw [cached]
  split
  · rename_i previous hprevious
    obtain ⟨-, htext⟩ := Option.filter_eq_some_iff.mp hprevious
    rw [← of_decide_eq_true htext, previous.parses]
  · split
    · rename_i h
      exact h.symm
    · rename_i h
      exact h.symm

/-! ### The converter -/

/-- The converter of the rows of a block. -/
structure RowConverter where
  did : Option (Parsed parseDid)
  collection : Option (Parsed parseCollection)
  rev : Option (Parsed parseRev)

namespace RowConverter

/-- The converter before it has parsed anything. -/
def default : RowConverter := { did := none, collection := none, rev := none }

/-- A conversion, which may change what is cached. -/
abbrev Conversion := Stateful RowConverter DecodeError

def cachedDid (text : Str) : Conversion Did := fun c =>
  ((cached parseDid c.did text).1, { c with did := (cached parseDid c.did text).2 })

def cachedCollection (text : Str) : Conversion Nsid := fun c =>
  ((cached parseCollection c.collection text).1,
    { c with collection := (cached parseCollection c.collection text).2 })

def cachedRev (text : Str) : Conversion Tid := fun c =>
  ((cached parseRev c.rev text).1, { c with rev := (cached parseRev c.rev text).2 })

variable [SyncMessages]

/-- The commit of a row. -/
def convertCommit (raw : Columns) (payload : Bytes) : Conversion EventPayload := do
  let operation ← .ofExcept (ofOption (.malformedEvent "segment commit kind has no operation")
    raw.kind.toOperation)
  let collection ← cachedCollection (← .ofExcept (strCol raw.collection))
  let rkey ← .ofExcept (strCol raw.rkey >>= parseRkey)
  let rev ← cachedRev (← .ofExcept (strCol raw.rev))
  let record := match operation with
    | .delete => none
    | .create => some (Record.fromCanonicalCbor payload)
    | .update => some (Record.fromCanonicalCbor payload)
  pure (.commit { operation, collection, rkey, rev, record })

/-- The message of a row that is no commit. -/
def convertMessage {T : Type} (message : String) (wrap : T → EventPayload) (read : Bytes → Option T)
    (payload : Bytes) : Conversion EventPayload := do
  let m ← .ofExcept (ofOption (.malformedEvent message) (read payload))
  pure (wrap m)

/-- What the event of a row carries. -/
def convertPayload (raw : Columns) (payload : Bytes) : Conversion EventPayload :=
  match raw.kind with
  | .create | .update | .delete | .createResync => convertCommit raw payload
  | .identity => convertMessage "segment identity payload is not valid CBOR" .identity
      SyncMessages.identityFromCbor payload
  | .account => convertMessage "segment account payload is not valid CBOR" .account
      SyncMessages.accountFromCbor payload
  | .sync => convertMessage "segment sync payload is not valid CBOR" .sync
      SyncMessages.syncFromCbor payload

/-- The event of a row. -/
def convert (raw : Columns) (payload : Bytes) : Conversion Event := do
  .ofExcept (refuse (raw.seq = 0) (.malformedEvent "segment row seq must be positive"))
  let timeUs := if raw.indexedAt ≠ 0 then raw.indexedAt else raw.witnessedAt
  let did ← cachedDid (← .ofExcept (strCol raw.did))
  let payload ← convertPayload raw payload
  pure { seq := raw.seq, did, timeUs, payload }

end RowConverter

/-! ### What rows are converted to -/

section

variable [SyncMessages]

/-- The commit of a row, with every text parsed. -/
def toCommit (raw : Columns) (payload : Bytes) : Except DecodeError EventPayload := do
  let operation ← ofOption (.malformedEvent "segment commit kind has no operation")
    raw.kind.toOperation
  let collection ← parseCollection (← strCol raw.collection)
  let rkey ← strCol raw.rkey >>= parseRkey
  let rev ← parseRev (← strCol raw.rev)
  let record := match operation with
    | .delete => none
    | .create => some (Record.fromCanonicalCbor payload)
    | .update => some (Record.fromCanonicalCbor payload)
  .ok (.commit { operation, collection, rkey, rev, record })

/-- The message of a row that is no commit. -/
def toMessage {T : Type} (message : String) (wrap : T → EventPayload) (read : Bytes → Option T)
    (payload : Bytes) : Except DecodeError EventPayload := do
  let m ← ofOption (.malformedEvent message) (read payload)
  .ok (wrap m)

/-- What the event of a row carries. -/
def toPayload (raw : Columns) (payload : Bytes) : Except DecodeError EventPayload :=
  match raw.kind with
  | .create | .update | .delete | .createResync => toCommit raw payload
  | .identity => toMessage "segment identity payload is not valid CBOR" .identity
      SyncMessages.identityFromCbor payload
  | .account => toMessage "segment account payload is not valid CBOR" .account
      SyncMessages.accountFromCbor payload
  | .sync => toMessage "segment sync payload is not valid CBOR" .sync
      SyncMessages.syncFromCbor payload

/-- The event that a row spells, with every text parsed. -/
def toEvent (raw : Columns) (payload : Bytes) : Except DecodeError Event := do
  refuse (raw.seq = 0) (.malformedEvent "segment row seq must be positive")
  let timeUs := if raw.indexedAt ≠ 0 then raw.indexedAt else raw.witnessedAt
  let did ← parseDid (← strCol raw.did)
  let carried ← toPayload raw payload
  .ok { seq := raw.seq, did, timeUs, payload := carried }

variable {raw : Columns}

variable {payload : Bytes}

theorem toCommit_ok {carried : EventPayload} (h : toCommit raw payload = .ok carried) :
  ∃ commit collection, carried = .commit commit ∧ strCol raw.collection = .ok collection
    ∧ parseCollection collection = .ok commit.collection
  := by
  obtain ⟨operation, -, h⟩ := bind_eq_ok.mp h
  obtain ⟨text, htext, h⟩ := bind_eq_ok.mp h
  obtain ⟨collection, hcollection, h⟩ := bind_eq_ok.mp h
  obtain ⟨rkey, -, h⟩ := bind_eq_ok.mp h
  obtain ⟨revText, -, h⟩ := bind_eq_ok.mp h
  obtain ⟨rev, -, h⟩ := bind_eq_ok.mp h
  cases h
  exact ⟨_, text, rfl, htext, hcollection⟩

/-- The event of a row is of the kind that the row is delivered as. If that is a commit, then its
collection is the one of the row. -/
theorem toPayload_ok {e : Event} (h : toPayload raw payload = .ok e.payload) :
  e.kind = raw.kind.publicKind
    ∧ (raw.kind.publicKind = .commit → ∃ commit collection, e.payload = .commit commit
      ∧ strCol raw.collection = .ok collection
      ∧ parseCollection collection = .ok commit.collection)
    ∧ (raw.kind.publicKind ≠ .commit → ∀ commit, e.payload ≠ .commit commit)
  := by
  rw [toPayload] at h
  cases hkind : raw.kind with
  | create | update | delete | createResync =>
      rw [hkind] at h
      obtain ⟨commit, collection, hcarried, htext, hcollection⟩ := toCommit_ok h
      refine ⟨by rw [Event.kind, hcarried]; rfl, ?_, fun hne => absurd rfl hne⟩
      exact fun _ => ⟨commit, collection, hcarried, htext, hcollection⟩
  | identity | account | sync =>
      rw [hkind] at h
      obtain ⟨m, -, h⟩ := bind_eq_ok.mp h
      have hcarried := (ok.inj h).symm
      refine ⟨by rw [Event.kind, hcarried]; rfl, fun heq => (by cases heq), ?_⟩
      intro _ commit
      rw [hcarried]
      nofun

/-- What a row that is converted spells. -/
theorem toEvent_ok {e : Event} (h : toEvent raw payload = .ok e) :
  ∃ did, strCol raw.did = .ok did ∧ parseDid did = .ok e.did
    ∧ toPayload raw payload = .ok e.payload
  := by
  obtain ⟨_, -, h⟩ := bind_eq_ok.mp h
  obtain ⟨did, hdid, h⟩ := bind_eq_ok.mp h
  obtain ⟨parsed, hparsed, h⟩ := bind_eq_ok.mp h
  obtain ⟨carried, hcarried, h⟩ := bind_eq_ok.mp h
  cases h
  exact ⟨did, hdid, hparsed, hcarried⟩

end

namespace RowConverter

open Stateful

theorem cachedDid_yields (text : Str) :
  (cachedDid text).Yields (parseDid text)
  := fun c => cached_fst parseDid c.did text

theorem cachedCollection_yields (text : Str) :
  (cachedCollection text).Yields (parseCollection text)
  := fun c => cached_fst parseCollection c.collection text

theorem cachedRev_yields (text : Str) :
  (cachedRev text).Yields (parseRev text)
  := fun c => cached_fst parseRev c.rev text

variable [SyncMessages]

theorem convertCommit_yields (raw : Columns) (payload : Bytes) :
  (convertCommit raw payload).Yields (toCommit raw payload)
  := by
  refine (yields_ofExcept _).bind fun operation => ?_
  refine (yields_ofExcept _).bind fun text => (cachedCollection_yields text).bind fun collection => ?_
  refine (yields_ofExcept _).bind fun rkey => ?_
  refine (yields_ofExcept _).bind fun text => (cachedRev_yields text).bind fun rev => ?_
  exact yields_pure _

theorem convertMessage_yields {T : Type} (message : String) (wrap : T → EventPayload)
    (read : Bytes → Option T) (payload : Bytes) :
  (convertMessage message wrap read payload).Yields (toMessage message wrap read payload)
  := (yields_ofExcept _).bind fun m => yields_pure (wrap m)

theorem convertPayload_yields (raw : Columns) (payload : Bytes) :
  (convertPayload raw payload).Yields (toPayload raw payload)
  := by
  unfold convertPayload toPayload
  cases raw.kind with
  | create | update | delete | createResync => exact convertCommit_yields raw payload
  | identity | account | sync => exact convertMessage_yields _ _ _ payload

/-- The converter makes of a row the event that it spells, whatever was parsed before. -/
theorem convert_yields (raw : Columns) (payload : Bytes) :
  (convert raw payload).Yields (toEvent raw payload)
  := by
  refine (yields_ofExcept _).bind fun _ => ?_
  refine (yields_ofExcept _).bind fun text => (cachedDid_yields text).bind fun did => ?_
  exact (convertPayload_yields raw payload).bind fun carried => yields_pure _

end RowConverter

end Shrike.Jetstream
