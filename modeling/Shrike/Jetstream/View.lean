import Shrike.Jetstream.Filter

/-!
# Views of rows

A row of the archive can be passed on as a view of its columns. What matching the row has shown about
its DID and its collection is not checked again. The view is the same as that of the event that the
row is converted to.
-/

namespace Shrike.Jetstream

open Bytes Except Syntax

variable [SyncMessages]

/-- A view of a commit. -/
structure CommitView where
  operation : Operation
  collection : Bytes
  rkey : Bytes
  rev : Tid
  record : Option Bytes
  recordCid : Option Cid

/-- A view of what an event carries. -/
inductive EventPayloadView where
  | commit (commit : CommitView)
  | identity (message : SyncMessages.Identity)
  | account (message : SyncMessages.Account)
  | sync (message : SyncMessages.Sync)

/-- A view of an event. -/
structure EventView where
  seq : UInt64
  did : Bytes
  timeUs : Int64
  payload : EventPayloadView

/-- What the event of a view carries. -/
def EventPayloadView.toOwned : EventPayloadView → Except DecodeError EventPayload
  | .commit c => do
      let collection ← (Nsid.tryFrom c.collection).mapError fun _ =>
        .malformedEvent "invalid view collection"
      let rkey ← (RecordKey.tryFrom c.rkey).mapError fun _ =>
        .malformedEvent "invalid view record key"
      let record := c.record.map fun r =>
        match c.recordCid with
        | some cid => Record.withCid r cid
        | none => Record.fromCanonicalCbor r
      .ok (.commit { operation := c.operation, collection, rkey, rev := c.rev, record })
  | .identity v => .ok (.identity v)
  | .account v => .ok (.account v)
  | .sync v => .ok (.sync v)

/-- The event of a view. -/
def EventView.toOwned (view : EventView) : Except DecodeError Event := do
  let did ← (Did.tryFrom view.did).mapError fun _ => .malformedEvent "invalid view DID"
  let payload ← view.payload.toOwned
  .ok { seq := view.seq, did, timeUs := view.timeUs, payload }

/-- The view of what an event carries. -/
def EventPayloadView.fromPayload : EventPayload → EventPayloadView
  | .commit c => .commit
      { operation := c.operation, collection := c.collection.raw, rkey := c.rkey.raw, rev := c.rev,
        record := c.record.map Record.cbor, recordCid := c.record.bind Record.cid }
  | .identity v => .identity v
  | .account v => .account v
  | .sync v => .sync v

/-- The view of an event. -/
def EventView.fromEvent (event : Event) : EventView where
  seq := event.seq
  did := event.did.raw
  timeUs := event.timeUs
  payload := .fromPayload event.payload

/-! ### The view of a row -/

/-- The collection of a view: the one that matching has shown it to spell, or one that is validated
and whose authority is in lower case. -/
def viewCollection (collection : Str) (known : Option Nsid) : Except DecodeError Bytes :=
  match known with
  | some known => .ok known.raw
  | none => do
      let lastDot ← (Nsid.validate collection.val).mapError fun _ =>
        .malformedEvent "segment row collection is not a valid NSID"
      if (collection.val.take lastDot).any isAsciiUppercase then
        .ok (lowercasePrefix lastDot collection.val)
      else .ok collection.val

/-- The view of a commit. -/
def viewCommit (raw : Columns) (payload : Bytes) (selected : SegmentSelection) :
    Except DecodeError EventPayloadView := do
  let operation ← ofOption (.malformedEvent "segment commit kind has no operation")
    raw.kind.toOperation
  let collection ← viewCollection (← strCol raw.collection) selected.collection
  let rkey ← strCol raw.rkey
  (RecordKey.validate rkey.val).mapError fun _ =>
    .malformedEvent "segment row rkey is not a valid record key"
  let rev ← (Tid.tryFrom (← strCol raw.rev).val).mapError fun _ =>
    .malformedEvent "segment row rev is not a valid TID"
  .ok (.commit
    { operation, collection, rkey := rkey.val, rev
      record := if operation ≠ .delete then some payload else none
      recordCid := none })

/-- The view of a message that is no commit. -/
def viewMessage {T : Type} (message : String) (wrap : T → EventPayloadView) (read : Bytes → Option T)
    (payload : Bytes) : Except DecodeError EventPayloadView := do
  let m ← ofOption (.malformedEvent message) (read payload)
  .ok (wrap m)

/-- The view of what a row carries. -/
def viewPayload (raw : Columns) (payload : Bytes) (selected : SegmentSelection) :
    Except DecodeError EventPayloadView :=
  match raw.kind with
  | .create | .update | .delete | .createResync => viewCommit raw payload selected
  | .identity => viewMessage "segment identity payload is not valid CBOR" .identity
      SyncMessages.identityFromCbor payload
  | .account => viewMessage "segment account payload is not valid CBOR" .account
      SyncMessages.accountFromCbor payload
  | .sync => viewMessage "segment sync payload is not valid CBOR" .sync
      SyncMessages.syncFromCbor payload

/-- Validate a DID, unless matching has shown that it is one. -/
def viewDid (did : Str) (validated : Bool) : Except DecodeError Bytes :=
  if validated then .ok did.val
  else do
    (Did.validate did.val).mapError fun _ =>
      .malformedEvent "segment row did is not a valid DID"
    .ok did.val

/-- The view of a row that was selected. -/
def eventView (raw : Columns) (payload : Bytes) (selected : SegmentSelection) :
    Except DecodeError EventView := do
  refuse (raw.seq = 0) (.malformedEvent "segment row seq must be positive")
  let did ← viewDid (← strCol raw.did) selected.didValidated
  let data ← viewPayload raw payload selected
  let timeUs := if raw.indexedAt = 0 then raw.witnessedAt else raw.indexedAt
  .ok { seq := raw.seq, did, timeUs, payload := data }

/-! ### Views of events -/

omit [SyncMessages] in
theorem Nsid.tryFrom_raw (nsid : Nsid) :
  Nsid.tryFrom nsid.raw = .ok nsid
  := by
  obtain ⟨given, lastDot, hvalid, hraw⟩ := nsid.valid
  rw [Nsid.tryFrom_eq_ok]
  refine ⟨lastDot, ?_, ?_⟩
  · rw [hraw]
    exact Nsid.validate_lowercasePrefix hvalid
  · rw [hraw, lowercasePrefix_idem]

theorem EventPayloadView.toOwned_fromPayload (payload : EventPayload) :
  (EventPayloadView.fromPayload payload).toOwned = .ok payload
  := by
  cases payload with
  | identity v | account v | sync v => rfl
  | commit c =>
      have hrkey : RecordKey.tryFrom c.rkey.raw = .ok c.rkey := RecordKey.tryFrom_eq_ok.mpr rfl
      rw [fromPayload, toOwned]
      simp only [Nsid.tryFrom_raw, hrkey, Except.mapError, ok_bind]
      obtain ⟨operation, collection, rkey, rev, record⟩ := c
      rcases record with - | ⟨cbor, - | cid⟩ <;> rfl

/-- An event is that of its view. -/
theorem EventView.toOwned_fromEvent (event : Event) :
  (EventView.fromEvent event).toOwned = .ok event
  := by
  have hdid : Did.tryFrom event.did.raw = .ok event.did := Did.tryFrom_eq_ok.mpr rfl
  rw [fromEvent, toOwned]
  simp only [hdid, EventPayloadView.toOwned_fromPayload, Except.mapError, ok_bind]

/-! ### Views of rows -/

variable {bs payload : Bytes}

omit [SyncMessages] in
theorem map_toAsciiLowercase_of_lower (h : ¬bs.any isAsciiUppercase = true) :
  bs.map toAsciiLowercase = bs
  := by
  rw [List.any_eq_true, not_exists] at h
  conv_rhs => rw [← List.map_id bs]
  apply List.map_congr_left
  intro b hb
  rw [toAsciiLowercase, if_neg fun hupper => h b ⟨hb, hupper⟩, id]

omit [SyncMessages] in
theorem viewCollection_eq {collection : Str} {known : Option Nsid}
    (h : ∀ nsid ∈ known, parseCollection collection = .ok nsid) :
  viewCollection collection known = (parseCollection collection).map Nsid.raw
  := by
  cases known with
  | some nsid =>
      rw [h nsid rfl]
      rfl
  | none =>
      rw [viewCollection, parseCollection, map_mapError, Nsid.map_tryFrom]
      cases Nsid.validate collection.val with
      | error e => rfl
      | ok lastDot =>
          simp only [Except.mapError, ok_bind, Except.map]
          split_ifs with hupper
          · rfl
          · rw [lowercasePrefix, map_toAsciiLowercase_of_lower hupper, List.take_append_drop]

omit [SyncMessages] in
theorem viewDid_eq {did : Str} {validated : Bool}
    (h : validated = true → ∃ d, parseDid did = .ok d) :
  viewDid did validated = (parseDid did).map Did.raw
  := by
  cases validated with
  | true =>
      obtain ⟨d, hd⟩ := h rfl
      rw [hd, viewDid, if_pos rfl, Except.map]
      rw [parseDid, mapError_eq_ok, Did.tryFrom_eq_ok] at hd
      rw [hd]
  | false =>
      rw [viewDid, if_neg Bool.false_ne_true, parseDid, map_mapError, Did.map_tryFrom]
      cases Did.validate did.val <;> rfl

omit [SyncMessages] in
/-- Validating a record key is all that parsing it does. -/
theorem validate_rkey {α : Type} (rkey : Str) (k : Bytes → Except DecodeError α) :
  ((RecordKey.validate rkey.val).mapError fun _ =>
      DecodeError.malformedEvent "segment row rkey is not a valid record key")
      >>= (fun _ => k rkey.val)
    = parseRkey rkey >>= fun parsed => k parsed.raw
  := by
  have hmap := RecordKey.map_tryFrom rkey.val
  rw [parseRkey]
  cases hvalid : RecordKey.validate rkey.val with
  | error e =>
      rw [hvalid] at hmap
      rw [map_eq_error.mp (hmap.trans rfl)]
      rfl
  | ok u =>
      rw [hvalid] at hmap
      obtain ⟨parsed, hparsed, hraw⟩ := map_eq_ok.mp hmap
      rw [hparsed]
      exact congrArg k hraw.symm

theorem viewCommit_eq {raw : Columns} {selected : SegmentSelection}
    (h : ∀ collection, strCol raw.collection = .ok collection →
      ∀ nsid ∈ selected.collection, parseCollection collection = .ok nsid) :
  viewCommit raw payload selected = (toCommit raw payload).map .fromPayload
  := by
  rw [viewCommit, toCommit]
  cases raw.kind.toOperation with
  | none => rfl
  | some operation =>
      simp only [ofOption, ok_bind]
      cases hcollection : strCol raw.collection with
      | error e => rfl
      | ok collection =>
          simp only [ok_bind]
          rw [viewCollection_eq (h collection hcollection)]
          cases parseCollection collection with
          | error e => rfl
          | ok nsid =>
              simp only [Except.map, ok_bind]
              cases strCol raw.rkey with
              | error e => rfl
              | ok rkey =>
                  simp only [ok_bind]
                  rw [validate_rkey rkey fun rkey => do
                    let rev ← (Tid.tryFrom (← strCol raw.rev).val).mapError fun _ =>
                      .malformedEvent "segment row rev is not a valid TID"
                    .ok (EventPayloadView.commit
                      { operation, collection := nsid.raw, rkey, rev
                        record := if operation ≠ .delete then some payload else none
                        recordCid := none })]
                  cases parseRkey rkey with
                  | error e => rfl
                  | ok parsed =>
                      simp only [ok_bind]
                      cases strCol raw.rev with
                      | error e => rfl
                      | ok rev =>
                          simp only [ok_bind, parseRev]
                          cases Tid.tryFrom rev.val with
                          | error e => rfl
                          | ok tid => cases operation <;> rfl

theorem viewMessage_eq {T : Type} (message : String) {wrap : T → EventPayloadView}
    {wrap' : T → EventPayload} (h : ∀ m, wrap m = .fromPayload (wrap' m))
    {read : Bytes → Option T} :
  viewMessage message wrap read payload = (toMessage message wrap' read payload).map .fromPayload
  := by
  rw [viewMessage, toMessage]
  cases read payload with
  | none => rfl
  | some m => exact congrArg Except.ok (h m)

/-- The view of a row is that of the event that the row spells, if what matching has shown of it is
true. -/
theorem eventView_eq {raw : Columns} {selected : SegmentSelection}
    (hdid : selected.didValidated = true → ∀ did, strCol raw.did = .ok did →
      ∃ d, parseDid did = .ok d)
    (hcollection : ∀ collection, strCol raw.collection = .ok collection →
      ∀ nsid ∈ selected.collection, parseCollection collection = .ok nsid) :
  eventView raw payload selected = (toEvent raw payload).map .fromEvent
  := by
  have hpayload : viewPayload raw payload selected = (toPayload raw payload).map .fromPayload := by
    rw [viewPayload, toPayload]
    cases raw.kind with
    | create | update | delete | createResync => exact viewCommit_eq hcollection
    | identity | account | sync =>
        refine viewMessage_eq _ ?_
        exact fun _ => rfl
  rw [eventView, toEvent, hpayload]
  cases refuse (raw.seq = 0) (DecodeError.malformedEvent "segment row seq must be positive") with
  | error e => rfl
  | ok u =>
      simp only [ok_bind]
      cases hdidText : strCol raw.did with
      | error e => rfl
      | ok did =>
          simp only [ok_bind]
          rw [viewDid_eq fun hvalidated => hdid hvalidated did hdidText]
          cases parseDid did with
          | error e => rfl
          | ok parsed =>
              simp only [Except.map, ok_bind]
              cases toPayload raw payload with
              | error e => rfl
              | ok carried =>
                  simp only [ok_bind, EventView.fromEvent]
                  split_ifs <;> simp_all

end Shrike.Jetstream
