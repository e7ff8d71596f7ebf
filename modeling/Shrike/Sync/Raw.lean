import Shrike.Car.Reader
import Shrike.Repo.Commit

/-!
# Raw firehose events

A frame of the firehose is two CBOR items: a header with the type of the event, and the body.
The events the verifier works on, and how they are read from a frame.
-/

/-!
## Verifier errors

What the verifier of firehose events reports.
-/

namespace Shrike.Sync

open Syntax

/-- The errors of the verifier. -/
inductive VerifierError where
  | futureRev (did : Did) (rev : Bytes)
  | chainBreak (did : Did) (rev : Bytes) (expected actual : Option Cid)
  | fieldMismatch (did : Did) (rev : Option Bytes) (field : String) (expected actual : Bytes)
  | signatureInvalid (did : Did) (rev : Bytes) (reason : String)
  | opCidMismatch (did : Did) (rev path : Bytes) (expected actual : Option Cid)
  | duplicatePath (did : Did) (rev path : Bytes)
  | legacyCommit (did : Did) (rev : Bytes) (seenRev : Option Bytes) (seenData : Option Cid)
  | oversizedCommit (did : Did) (rev : Option Bytes) (field : String) (bytes limit : ℕ)
  | repoInactive (did : Did) (status : Option Bytes) (seq : Option ℤ) (time : Option Bytes)
  | resyncRequired (did : Did) (reason : String)
  | resyncRateLimited (did : Did)
  | bufferOverflow (did : Did) (len limit : ℕ)
  | revRegression (did : Did) (current fetched : Bytes)
  | resyncFailed (did : Did) (source : VerifierError)
  | inversion (did : Did) (rev : Bytes) (message : String)
  | stateStore (message : String)
  | car (did : Option Did) (rev : Option Bytes) (source : Car.CarError)
  | cbor (did : Option Did) (rev : Option Bytes) (source : Cbor.Error)
  | repo (did : Option Did) (rev : Option Bytes) (source : Repo.RepoError)
  | identity (did : Did) (message : String)
  deriving DecidableEq

end Shrike.Sync

/-! ## Raw firehose events -/

namespace Shrike.Sync

open Cbor Syntax Bytes Except

/-- What can be wrong with a frame. -/
inductive FrameFault where
  | header (e : Cbor.Error)
  | headerNotMap
  | unknownOp (op : ℤ)
  | body (e : Cbor.Error)
  | trailingData
  | bodyNotMap (context : String)
  | fieldType (key expected : String)
  | fieldOverflow (key : String)
  | missingField (key : String)
  | notArray (key : String)
  | blobNotCid
  | invalid (what : String) (e : String)
  | blocksCar
  | blockCid (declared computed : Cid)
  | pathWithoutSlash (path : Bytes)
  | missingCid (action : Bytes)
  | absentBlock (action : Bytes) (cid : Cid)
  | unknownAction (action : Bytes)
  | unknownEvent (t : Bytes)
  deriving DecidableEq

/-- The errors of reading a raw event. -/
inductive RawSyncError where
  | parseCbor (fault : FrameFault)
  | unknownType (t : Bytes)
  deriving DecidableEq

/-- A change to one record. -/
structure RawRepoOp where
  action : Bytes
  path : Bytes
  cid : Option Cid
  prev : Option Cid
  deriving DecidableEq

/-- A commit event. -/
structure RawCommit where
  repo : Did
  rev : Tid
  seq : ℤ
  time : Bytes
  since : Option Tid
  commit : Cid
  blocks : Bytes
  ops : List RawRepoOp
  blobs : List Cid
  prevData : Option Cid
  tooBig : Bool
  rebase : Bool
  deriving DecidableEq

/-- An event with the current state of a repository. -/
structure RawSync where
  did : Did
  rev : Bytes
  seq : ℤ
  time : Bytes
  blocks : Bytes
  deriving DecidableEq

/-- An event with the status of an account. -/
structure RawAccount where
  did : Did
  seq : ℤ
  time : Bytes
  active : Bool
  status : Option Bytes
  deriving DecidableEq

/-- An event about an identity. -/
structure RawIdentity where
  did : Did
  seq : ℤ
  time : Bytes
  handle : Option Handle
  deriving DecidableEq

/-- A raw event. -/
inductive RawSyncEvent where
  | commit (raw : RawCommit)
  | sync (raw : RawSync)
  | account (raw : RawAccount)
  | identity (raw : RawIdentity)
  | info
  deriving DecidableEq

/-! ### Fields -/

/-- The fields of a map. -/
abbrev Fields := List (Bytes × Value)

/-- A value that must be a map. -/
def requireMap (value : Value) (context : String) : Except FrameFault Fields :=
  match value with
  | .map fields => .ok fields
  | _ => .error (.bodyNotMap context)

/-- The value of a field. -/
def fieldValue (fields : Fields) (key : String) : Option Value := fields.lookup (ascii key)

/-- The text of a field. -/
def requireText (fields : Fields) (key : String) : Except FrameFault Bytes :=
  match fieldValue fields key with
  | some (.text value) => .ok value
  | some _ => .error (.fieldType key "a text string")
  | none => .error (.missingField key)

/-- The text of a field that may be null or absent. -/
def optionalText (fields : Fields) (key : String) : Except FrameFault (Option Bytes) :=
  match fieldValue fields key with
  | some (.text value) => .ok (some value)
  | some .null => .ok none
  | none => .ok none
  | some _ => .error (.fieldType key "a text string")

/-- The integer of a field, in the range of an `i64`. -/
def requireInt (fields : Fields) (key : String) : Except FrameFault ℤ :=
  match fieldValue fields key with
  | some (.unsigned value) =>
      if value ≤ 2 ^ 63 - 1 then .ok value else .error (.fieldOverflow key)
  | some (.signed value) => .ok value
  | some _ => .error (.fieldType key "an integer")
  | none => .error (.missingField key)

/-- The boolean of a field. -/
def requireBool (fields : Fields) (key : String) : Except FrameFault Bool :=
  match fieldValue fields key with
  | some (.bool value) => .ok value
  | some _ => .error (.fieldType key "a boolean")
  | none => .error (.missingField key)

/-- The bytes of a field. -/
def requireBytes (fields : Fields) (key : String) : Except FrameFault Bytes :=
  match fieldValue fields key with
  | some (.bytes value) => .ok value
  | some _ => .error (.fieldType key "bytes")
  | none => .error (.missingField key)

/-- The CID of a field. -/
def requireCid (fields : Fields) (key : String) : Except FrameFault Cid :=
  match fieldValue fields key with
  | some (.cid value) => .ok value
  | some _ => .error (.fieldType key "a CID")
  | none => .error (.missingField key)

/-- The CID of a field that may be null or absent. -/
def optionalCid (fields : Fields) (key : String) : Except FrameFault (Option Cid) :=
  match fieldValue fields key with
  | some (.cid value) => .ok (some value)
  | some .null => .ok none
  | none => .ok none
  | some _ => .error (.fieldType key "a CID")

/-- The result of a parse of part of a frame, named in its fault. -/
def parsed {α : Type} (what : String) : Except String α → Except FrameFault α :=
  Except.mapError (.invalid what)

/-- The TID of a field that may be null or absent. -/
def optionalTid (fields : Fields) (key : String) : Except FrameFault (Option Tid) := do
  match ← optionalText fields key with
  | none => .ok none
  | some text => (parsed key (Tid.tryFrom text)).map some

/-- The elements of an array that may be absent. -/
def optionalArray (fields : Fields) (key : String) : Except FrameFault (List Value) :=
  match fieldValue fields key with
  | none => .ok []
  | some (.array items) => .ok items
  | some _ => .error (.notArray key)

/-! ### Events -/

/-- The operation and the type of a frame. -/
def extractFrameHeader (header : Value) : Except FrameFault (ℤ × Bytes) :=
  match header with
  | .map fields => do
      let op ← requireInt fields "op"
      let t ← requireText fields "t"
      .ok (op, t)
  | _ => .error .headerNotMap

/-- One change of a commit. -/
def parseRepoOp (item : Value) : Except FrameFault RawRepoOp :=
  match item with
  | .map fields => do
      let action ← requireText fields "action"
      let path ← requireText fields "path"
      let cid ← optionalCid fields "cid"
      let prev ← optionalCid fields "prev"
      .ok { action, path, cid, prev }
  | _ => .error (.bodyNotMap "repo op")

/-- The changes of a commit. -/
def parseRepoOps (fields : Fields) : Except FrameFault (List RawRepoOp) := do
  let items ← optionalArray fields "ops"
  items.mapM parseRepoOp

/-- The blobs of a commit. -/
def parseBlobs (fields : Fields) : Except FrameFault (List Cid) := do
  let items ← optionalArray fields "blobs"
  items.mapM fun item =>
    match item with
    | .cid cid => .ok cid
    | _ => .error .blobNotCid

/-- The body of a commit event. -/
def parseCommit (body : Value) : Except FrameFault RawCommit := do
  let fields ← requireMap body "#commit"
  let repo ← parsed "repo" (Did.tryFrom (← requireText fields "repo"))
  let rev ← parsed "rev" (Tid.tryFrom (← requireText fields "rev"))
  let seq ← requireInt fields "seq"
  let time ← requireText fields "time"
  let since ← optionalTid fields "since"
  let commit ← requireCid fields "commit"
  let blocks ← requireBytes fields "blocks"
  let ops ← parseRepoOps fields
  let blobs ← parseBlobs fields
  let prevData ← optionalCid fields "prevData"
  let tooBig ← requireBool fields "tooBig"
  let rebase ← requireBool fields "rebase"
  .ok { repo, rev, seq, time, since, commit, blocks, ops, blobs, prevData, tooBig, rebase }

/-- The body of a sync event. -/
def parseSync (body : Value) : Except FrameFault RawSync := do
  let fields ← requireMap body "#sync"
  let did ← parsed "did" (Did.tryFrom (← requireText fields "did"))
  let rev ← requireText fields "rev"
  let seq ← requireInt fields "seq"
  let time ← requireText fields "time"
  let blocks ← requireBytes fields "blocks"
  .ok { did, rev, seq, time, blocks }

/-- The body of an account event. -/
def parseAccount (body : Value) : Except FrameFault RawAccount := do
  let fields ← requireMap body "#account"
  let did ← parsed "did" (Did.tryFrom (← requireText fields "did"))
  let seq ← requireInt fields "seq"
  let time ← requireText fields "time"
  let active ← requireBool fields "active"
  let status ← optionalText fields "status"
  .ok { did, seq, time, active, status }

/-- The handle of an identity event, which may be null or absent. -/
def parseHandle (fields : Fields) : Except FrameFault (Option Handle) := do
  match ← optionalText fields "handle" with
  | none => .ok none
  | some text => (parsed "handle" (Handle.tryFrom text)).map some

/-- The body of an identity event. -/
def parseIdentity (body : Value) : Except FrameFault RawIdentity := do
  let fields ← requireMap body "#identity"
  let handle ← parseHandle fields
  let did ← parsed "did" (Did.tryFrom (← requireText fields "did"))
  let seq ← requireInt fields "seq"
  let time ← requireText fields "time"
  .ok { did, seq, time, handle }

/-- The event of the given type with the given body. -/
def parseBody (typeTag : Bytes) (body : Value) : Except RawSyncError RawSyncEvent :=
  if typeTag = ascii "#commit" then
    ((parseCommit body).map .commit).mapError .parseCbor
  else if typeTag = ascii "#sync" then
    ((parseSync body).map .sync).mapError .parseCbor
  else if typeTag = ascii "#account" then
    ((parseAccount body).map .account).mapError .parseCbor
  else if typeTag = ascii "#identity" then
    ((parseIdentity body).map .identity).mapError .parseCbor
  else if typeTag = ascii "#info" then
    ((requireMap body "#info").map fun _ => .info).mapError .parseCbor
  else .error (.unknownType typeTag)

/-- The raw event of a frame. -/
def parseRawSyncFrame (data : Bytes) : Except RawSyncError RawSyncEvent := do
  let (header, rest) ← (decodeValue maxDepth data).mapError (.parseCbor ∘ .header)
  let (op, typeTag) ← (extractFrameHeader header).mapError .parseCbor
  if op ≠ 1 then .error (.parseCbor (.unknownOp op))
  else do
    let (body, rest) ← (decodeValue maxDepth rest).mapError (.parseCbor ∘ .body)
    if rest ≠ [] then .error (.parseCbor .trailingData)
    else parseBody typeTag body

/-- The sequence number of a raw event. -/
def rawEventSeq : RawSyncEvent → ℤ
  | .commit c => c.seq
  | .sync s => s.seq
  | .account a => a.seq
  | .identity i => i.seq
  | .info => 0

/-- The DID whose events are verified in order with this one. -/
def frameKey : RawSyncEvent → Option Did
  | .commit c => some c.repo
  | .sync s => some s.did
  | .account a => some a.did
  | .identity i => some i.did
  | .info => none

/-! ### Sequence numbers -/

/-- The sequence number in the body of a frame: zero where there is none. -/
def frameSeq (data : Bytes) : ℤ :=
  match decodeValue maxDepth data with
  | .error _ => 0
  | .ok (_, rest) =>
      match decodeValue maxDepth rest with
      | .ok (.map fields, _) => ((requireInt fields "seq").toOption).getD 0
      | _ => 0

variable {body value header : Value}

theorem requireMap_eq_ok {context : String} {fields : Fields} :
  requireMap value context = .ok fields ↔ value = .map fields
  := by
  cases value <;> simp [requireMap]

/-- The body of an event with a sequence number has it in a field. -/
def HasSeq (body : Value) (seq : ℤ) : Prop :=
  ∃ fields, body = .map fields ∧ requireInt fields "seq" = .ok seq

variable {data rest rest' typeTag : Bytes}

/-- The sequence number of a frame is in the body that its second item spells. -/
theorem frameSeq_eq {seq : ℤ} (hheader : decodeValue maxDepth data = .ok (header, rest))
    (hbody : decodeValue maxDepth rest = .ok (body, rest')) (h : HasSeq body seq) :
  frameSeq data = seq
  := by
  obtain ⟨fields, rfl, hseq⟩ := h
  simp only [frameSeq, hheader, hbody, hseq]
  rfl

theorem parseCommit_hasSeq {c : RawCommit} (h : parseCommit body = .ok c) :
  HasSeq body c.seq
  := by
  simp only [parseCommit, bind_eq_ok] at h
  obtain ⟨fields, hmap, _, _, _, _, _, _, _, _, seq, hseq, h⟩ := h
  obtain ⟨_, _, _, _, _, _, _, _, _, _, _, _, _, _, _, _, _, _, h⟩ := h
  cases h
  exact ⟨fields, requireMap_eq_ok.mp hmap, hseq⟩

theorem parseSync_hasSeq {s : RawSync} (h : parseSync body = .ok s) :
  HasSeq body s.seq
  := by
  simp only [parseSync, bind_eq_ok] at h
  obtain ⟨fields, hmap, _, _, _, _, _, _, seq, hseq, _, _, _, _, h⟩ := h
  cases h
  exact ⟨fields, requireMap_eq_ok.mp hmap, hseq⟩

theorem parseAccount_hasSeq {a : RawAccount} (h : parseAccount body = .ok a) :
  HasSeq body a.seq
  := by
  simp only [parseAccount, bind_eq_ok] at h
  obtain ⟨fields, hmap, _, _, _, _, seq, hseq, _, _, _, _, _, _, h⟩ := h
  cases h
  exact ⟨fields, requireMap_eq_ok.mp hmap, hseq⟩

theorem parseIdentity_hasSeq {i : RawIdentity} (h : parseIdentity body = .ok i) :
  HasSeq body i.seq
  := by
  simp only [parseIdentity, bind_eq_ok] at h
  obtain ⟨fields, hmap, _, _, _, _, _, _, seq, hseq, _, _, h⟩ := h
  cases h
  exact ⟨fields, requireMap_eq_ok.mp hmap, hseq⟩

/-- An event that is not an info has the sequence number in its body. -/
theorem parseBody_hasSeq {raw : RawSyncEvent}
    (h : parseBody typeTag body = .ok raw) (hinfo : raw ≠ .info) :
  HasSeq body (rawEventSeq raw)
  := by
  simp only [parseBody] at h
  split_ifs at h
  · obtain ⟨c, hc, rfl⟩ := map_eq_ok.mp (mapError_eq_ok.mp h)
    apply parseCommit_hasSeq hc
  · obtain ⟨s, hs, rfl⟩ := map_eq_ok.mp (mapError_eq_ok.mp h)
    apply parseSync_hasSeq hs
  · obtain ⟨a, ha, rfl⟩ := map_eq_ok.mp (mapError_eq_ok.mp h)
    apply parseAccount_hasSeq ha
  · obtain ⟨i, hi, rfl⟩ := map_eq_ok.mp (mapError_eq_ok.mp h)
    apply parseIdentity_hasSeq hi
  · obtain ⟨-, -, rfl⟩ := map_eq_ok.mp (mapError_eq_ok.mp h)
    exact absurd rfl hinfo

/-- An event that is not an info has the sequence number of its frame. -/
theorem parseRawSyncFrame_seq {raw : RawSyncEvent}
    (h : parseRawSyncFrame data = .ok raw) (hinfo : raw ≠ .info) :
  rawEventSeq raw = frameSeq data
  := by
  obtain ⟨⟨header, rest⟩, hheader, h⟩ := bind_eq_ok.mp h
  obtain ⟨⟨op, typeTag⟩, -, h⟩ := bind_eq_ok.mp h
  dsimp only at h
  split at h
  · cases h
  · obtain ⟨⟨body, rest'⟩, hbody, h⟩ := bind_eq_ok.mp h
    dsimp only at h
    split at h
    · cases h
    · have hseq := parseBody_hasSeq h hinfo
      rw [frameSeq_eq (mapError_eq_ok.mp hheader) (mapError_eq_ok.mp hbody) hseq]

end Shrike.Sync
