import Shrike.Sync.Raw

/-!
# Firehose events

The events that the stream of the firehose delivers, its errors, and the event of a commit whose
operations have been verified.
-/

namespace Shrike.Streaming

open Syntax Bytes Sync Except

/-- One change of a commit. -/
inductive Operation where
  | create (collection : Nsid) (rkey : RecordKey) (cid : Cid) (record : Bytes)
  | update (collection : Nsid) (rkey : RecordKey) (cid : Cid) (record : Bytes)
  | delete (collection : Nsid) (rkey : RecordKey)
  | resync (collection : Nsid) (rkey : RecordKey) (cid : Option Cid) (record : Bytes)
  deriving DecidableEq

/-- A moderation label. -/
structure Label where
  src : Did
  uri : Bytes
  val : Bytes
  neg : Bool
  deriving DecidableEq

/-- An event of the firehose or of the label stream. -/
inductive Event where
  | commit (did : Did) (rev : Tid) (seq : ℤ) (operations : List Operation)
  | identity (did : Did) (seq : ℤ) (handle : Option Handle)
  | account (did : Did) (seq : ℤ) (active : Bool)
  | labels (seq : ℤ) (labels : List Label)
  deriving DecidableEq

/-- The errors of the stream. -/
inductive StreamError where
  | parseCbor (fault : FrameFault)
  | webSocket (message : String)
  | unknownType (t : Bytes)
  | relayError (error : Bytes) (message : Option Bytes)
  | verifier (e : VerifierError)
  | queueOverflow (did : Did) (seq : ℤ)
  deriving DecidableEq

/-- The sequence number of an event. -/
def eventSeq : Event → ℤ
  | .commit _ _ seq _ => seq
  | .identity _ seq _ => seq
  | .account _ seq _ => seq
  | .labels seq _ => seq

/-! ### Verified operations -/

/-- A change that the verifier let through. -/
structure VerifierOp where
  repo : Did
  rev : Tid
  action : Bytes
  path : Bytes
  cid : Option Cid
  prev : Option Cid
  record : Bytes

/-- The full state of a repository, after the verifier lost track of it. -/
structure ResyncEvent where
  did : Did
  oldRev : Option Bytes
  newRev : Bytes
  reason : String
  ops : List VerifierOp

/-- The operation of a verified change. -/
def operationFromVerifierOp (op : VerifierOp) : Except StreamError Operation :=
  match splitOnce (char '/') op.path with
  | none => .error (.parseCbor (.pathWithoutSlash op.path))
  | some (c, r) => do
      let collection ← (parsed "op collection" (Nsid.tryFrom c)).mapError .parseCbor
      let rkey ← (parsed "op rkey" (RecordKey.tryFrom r)).mapError .parseCbor
      if op.action = ascii "create" then
        match op.cid with
        | none => .error (.parseCbor (.missingCid op.action))
        | some cid => .ok (.create collection rkey cid op.record)
      else if op.action = ascii "update" then
        match op.cid with
        | none => .error (.parseCbor (.missingCid op.action))
        | some cid => .ok (.update collection rkey cid op.record)
      else if op.action = ascii "delete" then .ok (.delete collection rkey)
      else if op.action = ascii "resync" then .ok (.resync collection rkey op.cid op.record)
      else .error (.parseCbor (.unknownAction op.action))

/-- The commit event of verified changes. -/
def eventFromVerifierOps (did : Did) (rev : Tid) (seq : ℤ) (ops : List VerifierOp) :
    Except StreamError Event := do
  let operations ← ops.mapM operationFromVerifierOp
  .ok (.commit did rev seq operations)

/-- The event of a repository that was fetched again. It has no place in the firehose, so its
sequence number is zero. -/
def eventFromResyncEvent (event : ResyncEvent) : Except StreamError Event := do
  let rev ← (parsed "resync rev" (Tid.tryFrom event.newRev)).mapError .parseCbor
  eventFromVerifierOps event.did rev 0 event.ops

/-! ### Verifying an event -/

/-- What became of a frame: the event to deliver, if there is one, and the sequence number. -/
structure VerifyOutcome where
  event : Option Event
  seq : ℤ

/-- What the verifier answers to a commit or to the state of a repository: the changes, or
nothing if it drops the event. -/
abbrev Answer := Except VerifierError (Option (List VerifierOp))

/-- The outcome of an event with changes, from the answer of the verifier. -/
def answered (did : Did) (rev : Tid) (seq : ℤ) (answer : Answer) :
    Except StreamError VerifyOutcome :=
  match answer with
  | .error e => .error (.verifier e)
  | .ok none => .ok { event := none, seq }
  | .ok (some ops) => (eventFromVerifierOps did rev seq ops).map fun event =>
      { event := some event, seq }

/-- The outcome of a raw event, where the verifier gives `answer` if it is asked. -/
def verifyRawEvent (answer : Answer) : RawSyncEvent → Except StreamError VerifyOutcome
  | .commit raw => answered raw.repo raw.rev raw.seq answer
  | .sync raw =>
      match Tid.tryFrom raw.rev with
      | .error e => .error (.parseCbor (.invalid "sync rev" e))
      | .ok rev => answered raw.did rev raw.seq answer
  | .account raw =>
      .ok { event := some (.account raw.did raw.seq raw.active), seq := raw.seq }
  | .identity raw =>
      .ok { event := some (.identity raw.did raw.seq raw.handle), seq := raw.seq }
  | .info => .ok { event := none, seq := 0 }

/-! ### Sequence numbers -/

/-- The event of verified changes has the sequence number it is given. -/
theorem eventFromVerifierOps_seq {did : Did} {rev : Tid} {seq : ℤ} {ops : List VerifierOp}
    {event : Event} (h : eventFromVerifierOps did rev seq ops = .ok event) :
  eventSeq event = seq
  := by
  obtain ⟨operations, -, h⟩ := bind_eq_ok.mp h
  cases h
  rfl

/-- The outcome of a raw event has its sequence number, and so has the event to deliver. -/
theorem verifyRawEvent_seq {answer : Answer} {raw : RawSyncEvent} {outcome : VerifyOutcome}
    (h : verifyRawEvent answer raw = .ok outcome) :
  outcome.seq = rawEventSeq raw ∧ ∀ event ∈ outcome.event, eventSeq event = rawEventSeq raw
  := by
  have hanswered : ∀ did rev seq, answered did rev seq answer = .ok outcome →
      outcome.seq = seq ∧ ∀ event ∈ outcome.event, eventSeq event = seq := by
    intro did rev seq h
    obtain e | _ | ops := answer
    · cases h
    · cases h
      simp
    · rw [answered] at h
      cases hevent : eventFromVerifierOps did rev seq ops with
      | error e =>
          rw [hevent] at h
          cases h
      | ok event =>
          rw [hevent] at h
          cases h
          simp [eventFromVerifierOps_seq hevent]
  cases raw with
  | commit raw => apply hanswered _ _ _ h
  | sync raw =>
      rw [verifyRawEvent] at h
      split at h
      · cases h
      · apply hanswered _ _ _ h
  | account raw =>
      cases h
      simp [eventSeq, rawEventSeq]
  | identity raw =>
      cases h
      simp [eventSeq, rawEventSeq]
  | info =>
      cases h
      simp [rawEventSeq]

end Shrike.Streaming
