import Shrike.Jetstream.Environment

/-!
# The live tail

The live phase of the engine: dialing the server, reading a connection until it ends, and
dialing again, with the sequence above which events are accepted and the batch that is still
to be delivered.
-/

namespace Shrike.Jetstream

variable {E ε : Type}

/-- A resume position: a sequence, or a time in microseconds. -/
inductive Cursor where
  | seq (n : ℕ)
  | timestamp (us : ℤ)

/-- The cursor values from which on the server reads a time. -/
def timestampCursorThreshold : ℕ := 10 ^ 15

/-- Whether a cursor is in its domain. -/
def Cursor.validateLive : Cursor → Except (Error ε) Unit
  | .seq n =>
      if 2 ^ 63 - 1 < n then .error (.invalidConfig "cursor sequence exceeds i64::MAX")
      else if timestampCursorThreshold ≤ n then
        .error (.invalidConfig "live resume sequence must be below 10^15 or it reads as a timestamp")
      else .ok ()
  | .timestamp us =>
      if us < timestampCursorThreshold then
        .error (.invalidConfig
          "timestamp cursor must be >= 10^15 or the server reads it as a sequence")
      else .ok ()

/-- A sequence as a signed 64-bit integer. -/
def asI64 (n : ℕ) : ℤ := Int.bmod n (2 ^ 64)

/-- The value of a cursor on the wire. -/
def Cursor.toWire : Cursor → ℤ
  | .seq n => asI64 n
  | .timestamp us => us

/-- Where a live subscription starts. -/
inductive LiveCursor where
  | tip
  | resume (cursor : Cursor)

/-- The configuration of the live tail. The host and the filter are given by the results of
their validation, and the filter also by the events that it admits. -/
structure LiveConfig (E ε : Type) where
  hostCheck : Except (Error ε) Unit
  filterCheck : Except (Error ε) Unit
  admits : E → Bool
  cursor : LiveCursor
  compression : Bool
  readLimit : ℕ
  maxBatch : ℕ

/-- Validate a configuration before any I/O. -/
def LiveConfig.validate (config : LiveConfig E ε) : Except (Error ε) Unit := do
  config.hostCheck
  if config.maxBatch = 0 then .error (.invalidConfig "max_batch must be >= 1")
  else if config.readLimit = 0 then .error (.invalidConfig "read_limit must be >= 1")
  else do
    config.filterCheck
    match config.cursor with
    | .tip => .ok ()
    | .resume cursor => cursor.validateLive

/-- The highest processed sequence, and whether an event has advanced it. -/
structure StreamState where
  lastSeq : ℕ
  seenAny : Bool

/-- The sequence above which events are accepted at first. -/
def initialLastSeq : LiveCursor → ℕ
  | .tip => 0
  | .resume (.seq n) => n
  | .resume (.timestamp _) => 0

/-- The cursor to send on the next dial. -/
def wireCursor (cursor : LiveCursor) (state : StreamState) : Option ℤ :=
  if state.seenAny then some (asI64 state.lastSeq)
  else
    match cursor with
    | .tip => none
    | .resume cursor => some cursor.toWire

/-- How an error of the server maps onto the next action. -/
inductive ProtoAction where
  | fatal
  | dictRotation
  | reconnect

/-- Classify an error of the server. -/
def classifyProtocol : Error ε → ProtoAction
  | .invalidFrame _ => .fatal
  | .protocol name _ =>
      if name = "UnknownZstdDictionary" then .dictRotation
      else if name = "CursorTooOld" ∨ name = "InvalidRequest" then .fatal
      else .reconnect
  | _ => .reconnect

/-- Whether an error is the rejection of a cursor that is too old. -/
def isCursorTooOld : Error ε → Bool
  | .protocol name _ => name == "CursorTooOld"
  | _ => false

/-- What the tail does after a session. -/
inductive SessionOutcome (ε : Type) where
  | reconnect (cause : Error ε)
  | stop

/-- The outcome of a dial. -/
inductive DialAttempt (E ε : Type) where
  | connected (reads : List (ReadStep E ε))
  | reconnect (cause : Error ε)
  | recoverDict (cause : Error ε)
  | stop

section Environment

variable [Sequenced E] (env : Environment E ε) (canBackfill : Bool)

/-! ### The bridge to the consumer -/

/-- Note what the engine is to do next. -/
def setOutcome (outcome : LiveOutcome ε) : Run E ε Unit :=
  Act.modify fun s => { s with outcome := outcome }

/-- Note that the consumer asked to stop, if it did. -/
def noteStopped (more : Bool) : Run E ε Bool := do
  if more then pure true
  else do
    setOutcome .stopped
    pure false

/-- Deliver the pending batch. -/
def deliverBatch (batch : List E) : Run E ε Bool :=
  if batch.isEmpty then pure true
  else do
    let more ← deliverCounted env batch
    noteStopped more

/-- Deliver an advisory. -/
def deliverInfo (info : Info) : Run E ε Bool := do
  let more ← handOver env (.info info)
  noteStopped more

/-- Deliver a terminal error. -/
def deliverError (error : Error ε) : Run E ε Unit :=
  setOutcome (if canBackfill && isCursorTooOld error then .backfill else .fatal error)

/-- Report a recoverable error. -/
def recoverable (error : Error ε) : Run E ε Bool := do
  let more ← handOver env (.recoverable error)
  noteStopped more

/-! ### Sessions -/

variable (config : LiveConfig E ε)

/-- Apply deduplication, cursor advance and filtering to one event. The result is the new
state and the pending batch, or none if the consumer asked to stop. -/
def acceptEvent (event : E) (state : StreamState) (batch : List E) :
    Run E ε (StreamState × Option (List E)) :=
  if sequence event ≤ state.lastSeq then pure (state, some batch)
  else do
    let state : StreamState := { lastSeq := sequence event, seenAny := true }
    Act.modify fun s => { s with seen := max s.seen (sequence event) }
    if config.admits event then
      if config.maxBatch ≤ (batch ++ [event]).length then do
        if ← deliverBatch env (batch ++ [event]) then pure (state, some [])
        else pure (state, none)
      else pure (state, some (batch ++ [event]))
    else pure (state, some batch)

/-- Deliver the pending batch and dial again, unless the consumer asked to stop. -/
def flushAndReconnect (batch : List E) (cause : Error ε) : Run E ε (SessionOutcome ε) := do
  if ← deliverBatch env batch then pure (.reconnect cause) else pure .stop

/-- Fetch the current dictionary after one was rejected. The result is none if the fetch was
cancelled. -/
def recoverDict (dict : DictState) : Run E ε (Option DictState) := do
  match ← ask env.dictionary with
  | none => pure none
  | some (.active id) => pure (some (if some id = dict.id then .off else .active id))
  | some .off => pure (some .off)

/-- Act on an error frame. -/
def onProtocolError (batch : List E) (dict : DictState) (err : Error ε) :
    Run E ε (SessionOutcome ε × DictState) := do
  if ← deliverBatch env batch then
    match classifyProtocol err with
    | .fatal => do
        deliverError canBackfill err
        pure (.stop, dict)
    | .dictRotation => do
        match ← recoverDict env dict with
        | none => pure (.stop, dict)
        | some dict => pure (.reconnect err, dict)
    | .reconnect => pure (.reconnect err, dict)
  else pure (.stop, dict)

/-- Read one connected session to its end. -/
def session : List (ReadStep E ε) → StreamState → DictState → (batch : List E) →
    Run E ε (SessionOutcome ε × StreamState × DictState)
  | [], state, dict, batch => do
      let outcome ← flushAndReconnect env batch (.transport "live connection lost" true)
      pure (outcome, state, dict)
  | .cancelled :: _, state, dict, batch => do
      let _ ← deliverBatch env batch
      pure (.stop, state, dict)
  | .flushTimer :: reads, state, dict, batch => do
      if ← deliverBatch env batch then session reads state dict [] else pure (.stop, state, dict)
  | .closed :: _, state, dict, batch => do
      let outcome ← flushAndReconnect env batch (.transport "live connection lost" true)
      pure (outcome, state, dict)
  | .failed :: _, state, dict, batch => do
      let outcome ← flushAndReconnect env batch (.transport "live connection lost" true)
      pure (outcome, state, dict)
  | .message message :: reads, state, dict, batch =>
      match message with
      | .skip => session reads state dict batch
      | .recoverable err => do
          if ← deliverBatch env batch then
            if ← recoverable env err then session reads state dict []
            else pure (.stop, state, dict)
          else pure (.stop, state, dict)
      | .tooLarge => do
          let outcome ← flushAndReconnect env batch
            (.transport "live message exceeded the read limit" true)
          pure (outcome, state, dict)
      | .event event => do
          match ← acceptEvent env config event state batch with
          | (state, some batch) => session reads state dict batch
          | (state, none) => pure (.stop, state, dict)
      | .info info => do
          if ← deliverBatch env batch then
            if ← deliverInfo env info then session reads state dict []
            else pure (.stop, state, dict)
          else pure (.stop, state, dict)
      | .fatal err => do
          if ← deliverBatch env batch then deliverError canBackfill err
          pure (.stop, state, dict)
      | .proto err => do
          let (outcome, dict) ← onProtocolError env canBackfill batch dict err
          pure (outcome, state, dict)

/-! ### The tail -/

/-- Map a failed dial onto the next action. -/
def handleDialError : DialError ε → Run E ε (DialAttempt E ε)
  | .canceled => pure .stop
  | .transport => pure (.reconnect (.transport "live dial failed" true))
  | .subprotocol => do
      deliverError canBackfill (.capability "server negotiated an unsupported subprotocol")
      pure .stop
  | .http err =>
      match classifyProtocol err with
      | .fatal => do
          deliverError canBackfill err
          pure .stop
      | .dictRotation => pure (.recoverDict err)
      | .reconnect => pure (.reconnect err)

/-- Attempt one dial. -/
def dial (state : StreamState) (dict : DictState) : Run E ε (DialAttempt E ε) := do
  match ← ask fun t => env.dial t (wireCursor config.cursor state) dict.id with
  | .connected reads => pure (.connected reads)
  | .failed err => handleDialError canBackfill err
  | .badUrl err => do
      deliverError canBackfill err
      pure .stop
  | .cancelled => pure .stop

/-- Report the cause of a reconnect and back off. -/
def reportAndBackOff (cause : Error ε) : Run E ε Bool := do
  if ← recoverable env cause then ask env.slept else pure false

/-- The dials and sessions of the live tail. The result is false if the fuel ran out while
the tail was running. -/
def tail : ℕ → StreamState → DictState → Run E ε Bool
  | 0, _, _ => pure false
  | fuel + 1, state, dict => do
      if ← isCancelled env then pure true
      else
        match ← dial env canBackfill config state dict with
        | .stop => pure true
        | .reconnect cause => do
            if ← reportAndBackOff env cause then tail fuel state dict else pure true
        | .recoverDict cause => do
            match ← recoverDict env dict with
            | none => pure true
            | some dict => do
                if ← reportAndBackOff env cause then tail fuel state dict else pure true
        | .connected reads => do
            let (outcome, state, dict) ← session env canBackfill config reads state dict []
            match outcome with
            | .stop => pure true
            | .reconnect cause => do
                if ← reportAndBackOff env cause then tail fuel state dict else pure true

/-- Run the live tail. -/
def runLive (fuel : ℕ) : Run E ε Bool := do
  let state : StreamState := { lastSeq := initialLastSeq config.cursor, seenAny := false }
  if config.compression then do
    match ← ask env.dictionary with
    | none => pure true
    | some dict => tail env canBackfill config fuel state dict
  else tail env canBackfill config fuel state .off

end Environment

end Shrike.Jetstream
