import Shrike.Streaming.Event

/-!
# Firehose frames

The event that a frame carries, as it is read where there is no verifier.
-/

namespace Shrike.Streaming

open Cbor Syntax Bytes Sync Car
open Except (bind_eq_ok mapError_eq_ok)

/-! ### The header -/

/-- The operation and the type of a frame, as read so far. -/
def readHeaderField (fields : Option ℤ × Option Bytes) (entry : Bytes × Value) :
    Except FrameFault (Option ℤ × Option Bytes) :=
  let (key, value) := entry
  if key = ascii "op" then
    match value with
    | .unsigned n => if n ≤ 2 ^ 63 - 1 then .ok (some n, fields.2) else .error (.fieldOverflow "op")
    | .signed n => .ok (some n, fields.2)
    | _ => .error (.fieldType "op" "an integer")
  else if key = ascii "t" then
    match value with
    | .text s => .ok (fields.1, some s)
    | _ => .error (.fieldType "t" "a text string")
  else .ok fields

/-- The operation and the type of a frame. -/
def extractFrameHeader (header : Value) : Except FrameFault (ℤ × Bytes) :=
  match header with
  | .map entries => do
      match ← entries.foldlM readHeaderField (none, none) with
      | (none, _) => .error (.missingField "op")
      | (some _, none) => .error (.missingField "t")
      | (some op, some t) => .ok (op, t)
  | _ => .error .headerNotMap

/-- The name and the message of an error frame, as read so far. -/
def readErrorField (fields : Option Bytes × Option Bytes) (entry : Bytes × Value) :
    Option Bytes × Option Bytes :=
  match entry with
  | (key, .text s) =>
      if key = ascii "error" then (some s, fields.2)
      else if key = ascii "message" then (fields.1, some s)
      else fields
  | _ => fields

/-- The name and the message of an error frame. -/
def extractErrorFrameBody (body : Value) : Bytes × Option Bytes :=
  match body with
  | .map entries =>
      let (error, message) := entries.foldl readErrorField (none, none)
      (error.getD (ascii "Unknown"), message)
  | _ => (ascii "Unknown", none)

/-! ### Fields -/

/-- The text of a field, if it is a text. -/
def optionalText (fields : Fields) (key : String) : Option Bytes :=
  fields.findSome? fun entry =>
    match entry with
    | (k, .text s) => if k = ascii key then some s else none
    | _ => none

/-- The boolean of a field, if it is a boolean. -/
def optionalBool (fields : Fields) (key : String) : Option Bool :=
  fields.findSome? fun entry =>
    match entry with
    | (k, .bool b) => if k = ascii key then some b else none
    | _ => none

/-- The bytes of a field, if it is a byte string. -/
def extractBytes (fields : Fields) (key : String) : Option Bytes :=
  fields.findSome? fun entry =>
    match entry with
    | (k, .bytes b) => if k = ascii key then some b else none
    | _ => none

/-- The CID of a field, if it is a CID. -/
def extractCidOptional (fields : Fields) (key : String) : Option Cid :=
  match fieldValue fields key with
  | some (.cid c) => some c
  | _ => none

/-- A text field, or another if the first is not a text. -/
def requireEither (fields : Fields) (key other : String) : Except FrameFault Bytes :=
  match requireText fields key with
  | .ok s => .ok s
  | .error _ => requireText fields other

/-! ### The blocks of a commit -/

/-- The blocks of a commit: a few that are searched, or an index of many. -/
inductive CommitBlocks where
  | few (blocks : List Block)
  | many (index : List (Cid × Bytes))

namespace CommitBlocks

/-- The most blocks that are searched. -/
def scanMax : ℕ := 32

/-- The blocks of a commit. Of two in the index with the same CID, the last is found. -/
def new (blocks : List Block) : CommitBlocks :=
  if blocks.length ≤ scanMax then .few blocks
  else .many (blocks.map fun b => (b.cid, b.data)).reverse

/-- The data of the block with the given CID. -/
def get (blocks : CommitBlocks) (cid : Cid) : Option Bytes :=
  match blocks with
  | .few blocks => (blocks.find? fun b => b.cid = cid).map (·.data)
  | .many index => index.lookup cid

end CommitBlocks

/-- A change of a commit, with its record from the blocks. -/
def parseCommitOp (blocks : CommitBlocks) (item : Value) : Except FrameFault Operation := do
  let fields ← requireMap item "op entry"
  let action ← requireText fields "action"
  let path ← requireText fields "path"
  match splitOnce (char '/') path with
  | none => .error (.pathWithoutSlash path)
  | some (c, r) => do
      let collection ← parsed "collection" (Nsid.tryFrom c)
      let rkey ← parsed "rkey" (RecordKey.tryFrom r)
      if action = ascii "create" ∨ action = ascii "update" then
        match extractCidOptional fields "cid" with
        | none => .error (.missingCid action)
        | some cid =>
            match blocks.get cid with
            | none => .error (.absentBlock action cid)
            | some record =>
                if action = ascii "create" then .ok (.create collection rkey cid record)
                else .ok (.update collection rkey cid record)
      else if action = ascii "delete" then .ok (.delete collection rkey)
      else .error (.unknownAction action)

/-- The changes of a commit. -/
def parseCommitOps (fields : Fields) (blocks : CommitBlocks) :
    Except FrameFault (List Operation) := do
  let items ← optionalArray fields "ops"
  items.mapM (parseCommitOp blocks)

/-- One moderation label. -/
def parseLabel (item : Value) : Except FrameFault Label := do
  let fields ← requireMap item "label entry"
  let srcStr ← requireText fields "src"
  let uri ← requireText fields "uri"
  let val ← requireText fields "val"
  let neg := (optionalBool fields "neg").getD false
  let src ← parsed "label src DID" (Did.tryFrom srcStr)
  .ok { src, uri, val, neg }

/-- The labels of an event. -/
def parseLabels (fields : Fields) : Except FrameFault (List Label) := do
  let items ← optionalArray fields "labels"
  items.mapM parseLabel

/-! ### Events -/

variable [Hashing]

/-- A block that must match its CID. -/
def checkCommitBlock (block : Block) : Except FrameFault Unit :=
  let computed := Cid.compute block.cid.codec block.data
  if computed ≠ block.cid then .error (.blockCid block.cid computed) else .ok ()

/-- The blocks of a commit, each checked against its CID. -/
def parseCommitBlocks (fields : Fields) : Except FrameFault CommitBlocks :=
  match extractBytes fields "blocks" with
  | none => .ok (.few [])
  | some car => do
      let outcome := SliceReader.run car
      if !outcome.accepted then .error .blocksCar
      else do
        outcome.blocks.forM checkCommitBlock
        .ok (.new outcome.blocks)

/-- The event of a commit. -/
def parseCommitEvent (body : Value) : Except FrameFault Event := do
  let fields ← requireMap body "#commit"
  let did ← parsed "DID" (Did.tryFrom (← requireEither fields "repo" "did"))
  let rev ← parsed "rev TID" (Tid.tryFrom (← requireText fields "rev"))
  let seq ← requireInt fields "seq"
  let blocks ← parseCommitBlocks fields
  let operations ← parseCommitOps fields blocks
  .ok (.commit did rev seq operations)

omit [Hashing] in
/-- The handle of an identity, if it is one. -/
def parseEventHandle (fields : Fields) : Option Handle :=
  (optionalText fields "handle").bind fun h => (Handle.tryFrom h).toOption

omit [Hashing] in
/-- The event of an identity. -/
def parseIdentityEvent (body : Value) : Except FrameFault Event := do
  let fields ← requireMap body "#identity"
  let did ← parsed "DID" (Did.tryFrom (← requireEither fields "did" "repo"))
  let seq ← requireInt fields "seq"
  .ok (.identity did seq (parseEventHandle fields))

omit [Hashing] in
/-- The event of an account. -/
def parseAccountEvent (body : Value) : Except FrameFault Event := do
  let fields ← requireMap body "#account"
  let did ← parsed "DID" (Did.tryFrom (← requireEither fields "did" "repo"))
  let seq ← requireInt fields "seq"
  .ok (.account did seq ((optionalBool fields "active").getD false))

omit [Hashing] in
/-- The event of labels. -/
def parseLabelsEvent (body : Value) : Except FrameFault Event := do
  let fields ← requireMap body "#labels"
  let seq ← requireInt fields "seq"
  let labels ← parseLabels fields
  .ok (.labels seq labels)

/-- The event of the given type with the given body. Infos and states of repositories are not
known here, as are all other types. -/
def parseEvent (typeTag : Bytes) (body : Value) : Except StreamError Event :=
  if typeTag = ascii "#commit" then (parseCommitEvent body).mapError .parseCbor
  else if typeTag = ascii "#identity" then (parseIdentityEvent body).mapError .parseCbor
  else if typeTag = ascii "#account" then (parseAccountEvent body).mapError .parseCbor
  else if typeTag = ascii "#labels" then (parseLabelsEvent body).mapError .parseCbor
  else .error (.unknownType typeTag)

/-- The error that a frame of an error carries. -/
def errorFrame (rest : Bytes) : StreamError :=
  match decodeValue maxDepth rest with
  | .error e => .parseCbor (.body e)
  | .ok (body, _) =>
      let (error, message) := extractErrorFrameBody body
      .relayError error message

/-- The event of a frame. -/
def parseFirehoseFrame (data : Bytes) : Except StreamError Event := do
  let (header, rest) ← (decodeValue maxDepth data).mapError (.parseCbor ∘ .header)
  let (op, typeTag) ← (extractFrameHeader header).mapError .parseCbor
  if op = -1 then .error (errorFrame rest)
  else if op ≠ 1 then .error (.unknownType (ascii "unknown frame op"))
  else do
    let (body, rest) ← (decodeValue maxDepth rest).mapError (.parseCbor ∘ .body)
    if rest ≠ [] then .error (.parseCbor .trailingData)
    else parseEvent typeTag body

/-! ### Sequence numbers -/

variable {body : Value} {event : Event}

theorem parseCommitEvent_hasSeq (h : parseCommitEvent body = .ok event) :
  HasSeq body (eventSeq event)
  := by
  simp only [parseCommitEvent, bind_eq_ok] at h
  obtain ⟨fields, hmap, _, _, _, _, _, _, _, _, seq, hseq, _, _, _, _, h⟩ := h
  cases h
  exact ⟨fields, requireMap_eq_ok.mp hmap, hseq⟩

omit [Hashing] in
theorem parseIdentityEvent_hasSeq (h : parseIdentityEvent body = .ok event) :
  HasSeq body (eventSeq event)
  := by
  simp only [parseIdentityEvent, bind_eq_ok] at h
  obtain ⟨fields, hmap, _, _, _, _, seq, hseq, h⟩ := h
  cases h
  exact ⟨fields, requireMap_eq_ok.mp hmap, hseq⟩

omit [Hashing] in
theorem parseAccountEvent_hasSeq (h : parseAccountEvent body = .ok event) :
  HasSeq body (eventSeq event)
  := by
  simp only [parseAccountEvent, bind_eq_ok] at h
  obtain ⟨fields, hmap, _, _, _, _, seq, hseq, h⟩ := h
  cases h
  exact ⟨fields, requireMap_eq_ok.mp hmap, hseq⟩

omit [Hashing] in
theorem parseLabelsEvent_hasSeq (h : parseLabelsEvent body = .ok event) :
  HasSeq body (eventSeq event)
  := by
  simp only [parseLabelsEvent, bind_eq_ok] at h
  obtain ⟨fields, hmap, seq, hseq, _, _, h⟩ := h
  cases h
  exact ⟨fields, requireMap_eq_ok.mp hmap, hseq⟩

/-- An event has the sequence number in its body. -/
theorem parseEvent_hasSeq {typeTag : Bytes} (h : parseEvent typeTag body = .ok event) :
  HasSeq body (eventSeq event)
  := by
  simp only [parseEvent] at h
  split_ifs at h
  · apply parseCommitEvent_hasSeq (mapError_eq_ok.mp h)
  · apply parseIdentityEvent_hasSeq (mapError_eq_ok.mp h)
  · apply parseAccountEvent_hasSeq (mapError_eq_ok.mp h)
  · apply parseLabelsEvent_hasSeq (mapError_eq_ok.mp h)

/-- An event has the sequence number of its frame. -/
theorem parseFirehoseFrame_seq {data : Bytes} (h : parseFirehoseFrame data = .ok event) :
  eventSeq event = frameSeq data
  := by
  obtain ⟨⟨header, rest⟩, hheader, h⟩ := bind_eq_ok.mp h
  obtain ⟨⟨op, typeTag⟩, -, h⟩ := bind_eq_ok.mp h
  dsimp only at h
  split at h
  · cases h
  · split at h
    · cases h
    · obtain ⟨⟨body, rest'⟩, hbody, h⟩ := bind_eq_ok.mp h
      dsimp only at h
      split at h
      · cases h
      · have hseq := parseEvent_hasSeq h
        rw [frameSeq_eq (mapError_eq_ok.mp hheader) (mapError_eq_ok.mp hbody) hseq]

end Shrike.Streaming
