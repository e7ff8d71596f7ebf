import Shrike.Jetstream.Live

/-!
# The replay and live engine

The engine replays the archive, cuts over to the live tail at the covered boundary, and
returns to the archive when the live server no longer serves that boundary.
-/

/-!
## Archive replay

The archive phase of the engine: a sweep over the pages of a plan, the entries of a page, the
chunks of an entry and the events of a chunk, with the floor below which nothing may be
delivered any more and the batch that is still to be delivered.
-/

namespace Shrike.Jetstream

variable {E ε : Type}

/-- How a part of the replay ends: normally, because the run is to stop, or with a fatal
error. -/
inductive Flow (ε α : Type) where
  | next (result : α)
  | stop
  | fail (error : Error ε)

section Environment

variable [Sequenced E] (env : Environment E ε)

/-- Deliver the pending batch. -/
def flushArchiveBatch (buf : List E) : Run E ε Bool :=
  if buf.isEmpty then pure true else deliverCounted env buf

/-- Deliver the pending batch and stop. -/
def flushAndStop {α : Type} (buf : List E) : Run E ε (Flow ε α) := do
  let _ ← flushArchiveBatch env buf
  pure .stop

/-- Deliver the pending batch and report an error after it. -/
def flushAndReport (buf : List E) (error : Error ε) : Run E ε Bool := do
  if ← flushArchiveBatch env buf then handOver env (.recoverable error) else pure false

/-- Report the errors of dropped rows in order. -/
def reportDropped : List (Error ε) → Run E ε Bool
  | [] => pure true
  | dropped :: rest => do
      if ← handOver env (.recoverable dropped) then reportDropped rest else pure false

/-- The last sequence of events that ascend from a floor. -/
def ascendFrom (floor : ℕ) : List E → Option ℕ
  | [] => some floor
  | event :: events => if sequence event ≤ floor then none else ascendFrom (sequence event) events

/-- Put the events of a chunk into batches, one by one. -/
def replayEvents (maxBatch after : ℕ) : List E → (floor : ℕ) → (buf : List E) →
    Run E ε (Flow ε (ℕ × List E))
  | [], floor, buf => pure (.next (floor, buf))
  | event :: events, floor, buf =>
      if sequence event ≤ after ∨ sequence event = floor then
        replayEvents maxBatch after events floor buf
      else if sequence event < floor then
        pure (.fail (.planInvalid "archive events are not strictly increasing across segments"))
      else if maxBatch ≤ (buf ++ [event]).length then do
        if ← flushArchiveBatch env (buf ++ [event]) then
          replayEvents maxBatch after events (sequence event) []
        else pure .stop
      else replayEvents maxBatch after events (sequence event) (buf ++ [event])

/-- Take over the events of a chunk: as a whole if they are in order and make up at most one
batch, else one by one. -/
def takeEvents (maxBatch after : ℕ) (events : List E) (floor : ℕ) (buf : List E) :
    Run E ε (Flow ε (ℕ × List E)) :=
  match ascendFrom (max floor after) events with
  | some last =>
      if buf.isEmpty ∧ events.length ≤ maxBatch then pure (.next (last, events))
      else replayEvents env maxBatch after events floor buf
  | none => replayEvents env maxBatch after events floor buf

/-- Deliver what is pending before the dropped rows of a chunk are reported. The result is the
pending batch, or none if the run is to stop. -/
def settleDropped (dropped : List (Error ε)) (buf : List E) : Run E ε (Option (List E)) :=
  if dropped.isEmpty then pure (some buf)
  else do
    if ← flushArchiveBatch env buf then
      if ← reportDropped env dropped then pure (some []) else pure none
    else pure none

/-- Deliver the chunks of an entry. -/
def replayChunks (maxBatch after : ℕ) : ArchiveStream E ε → (floor : ℕ) → (buf : List E) →
    Run E ε (Flow ε (ℕ × List E))
  | [], floor, buf => pure (.next (floor, buf))
  | result :: chunks, floor, buf => do
      if ← isCancelled env then flushAndStop env buf
      else
        match result with
        | .error .canceled => flushAndStop env buf
        | .error err => do
            if ← flushAndReport env buf err then pure (.next (floor, [])) else pure .stop
        | .ok downloaded => do
            match ← takeEvents env maxBatch after downloaded.events floor buf with
            | .stop => pure .stop
            | .fail err => pure (.fail err)
            | .next (floor, buf) => do
                match ← settleDropped env downloaded.dropped buf with
                | none => pure .stop
                | some buf =>
                    match downloaded.failure with
                    | some failure => do
                        if ← flushAndReport env buf failure then pure (.next (floor, []))
                        else pure .stop
                    | none => do
                        if ← flushArchiveBatch env buf then
                          replayChunks maxBatch after chunks floor []
                        else pure .stop

/-- Deliver the entries of a page. -/
def replayEntries (maxBatch after before : ℕ) : List PlanSegment → (floor : ℕ) → (buf : List E) →
    Run E ε (Flow ε ℕ)
  | [], floor, buf => do
      if ← flushArchiveBatch env buf then pure (.next floor) else pure .stop
  | segment :: segments, floor, buf => do
      let result ← ask fun t => env.prepare t segment after before
      if ← isCancelled env then flushAndStop env buf
      else
        match result with
        | .error .canceled => flushAndStop env buf
        | .error err => do
            if ← flushAndReport env buf err then
              replayEntries maxBatch after before segments floor []
            else pure .stop
        | .ok chunks => do
            record (.opened chunks)
            match ← replayChunks env maxBatch after chunks floor buf with
            | .stop => pure .stop
            | .fail err => pure (.fail err)
            | .next (floor, buf) => replayEntries maxBatch after before segments floor buf

/-- Download and deliver the segments of one plan page in order. -/
def replayPage (maxBatch : ℕ) (segments : List PlanSegment) (after before floor : ℕ) :
    Run E ε (Flow ε ℕ) :=
  replayEntries env maxBatch after before segments floor []

/-- Publish the pinned tip of a sweep. -/
def publishTip (tip : ℕ) : Run E ε Unit :=
  Act.modify fun s => { s with sealedTipSeq := max s.sealedTipSeq tip }

/-- Publish the coverage of a page that was delivered. -/
def publishPage (plannedThrough : ℕ) : Run E ε Unit :=
  Act.modify fun s => { s with
    pages := s.pages + 1
    plannedThroughSeq := max s.plannedThroughSeq plannedThrough }

/-- The pages of a sweep. A page beyond the page budget of the sweep is refused when it is
absorbed, so one more than the budget is the last that is planned. -/
def replayPages (maxBatch : ℕ) : ℕ → PlanSweep → (floor : ℕ) → Run E ε (Flow ε Unit)
  | 0, _, _ => pure (.fail (.planInvalid "planSnapshot exceeded the maximum page count"))
  | budget + 1, sweep, floor => do
      if ← isCancelled env then pure .stop
      else
        match ← ask fun t => env.planPage t sweep.bounds with
        | .error .canceled => pure .stop
        | .error err => pure (.fail err)
        | .ok page =>
            match sweep.absorb page with
            | .error err => pure (.fail err)
            | .ok absorbed => do
                let tip := absorbed.tip.getD 0
                publishTip tip
                match ← replayPage env maxBatch page.segments sweep.bounds.after tip floor with
                | .stop => pure .stop
                | .fail err => pure (.fail err)
                | .next floor => do
                    publishPage absorbed.plannedThrough
                    if absorbed.done then pure (.next ())
                    else replayPages maxBatch budget absorbed floor

/-- Replay the archive after a sequence, up to the caller's upper bound or the sealed tip. -/
def replaySweep (maxBatch maxPlanPages : ℕ) (after : ℕ) (before : Option ℕ) :
    Run E ε (Flow ε Unit) :=
  replayPages env maxBatch (maxPlanPages + 1) (PlanSweep.new after before maxPlanPages) after

end Environment

end Shrike.Jetstream

/-! ## The replay and live engine -/

namespace Shrike.Jetstream

variable {E ε : Type}

/-- The configuration of the engine. -/
structure EngineConfig (E ε : Type) where
  afterSeq : ℕ
  beforeSeq : Option ℕ
  snapshotOnly : Bool
  maxRebackfillStalls : ℕ
  live : LiveConfig E ε

/-- Validate the parts of a configuration that do not depend on the archive. -/
def EngineConfig.validate (config : EngineConfig E ε) : Except (Error ε) Unit := do
  match config.beforeSeq with
  | none => .ok ()
  | some before =>
      if before ≤ config.afterSeq then
        .error (.invalidConfig "before_seq must be greater than after_seq")
      else if !config.snapshotOnly then
        .error (.invalidConfig "before_seq requires snapshot_only mode")
      else .ok ()
  if config.maxRebackfillStalls = 0 then
    .error (.invalidConfig "max_rebackfill_stalls must be >= 1")
  else config.live.validate

/-- How a run stands: it ended normally or with a fatal error, or it goes on. -/
inductive Ending (ε : Type) where
  | ok
  | error (error : Error ε)
  | running

/-- The progress markers of the last cutover, and the number of cycles since then that made
no progress. -/
structure Progress where
  processed : ℕ
  seen : ℕ
  tip : ℕ
  stalls : ℕ

section Environment

variable [Sequenced E] (env : Environment E ε) (config : EngineConfig E ε)

/-- The archive phase, if there is an archive. The archive is given by its bound on the pages
of a sweep. -/
def archivePhase (archive : Option ℕ) (after : ℕ) : Run E ε (Flow ε Unit) :=
  match archive with
  | none => pure (.next ())
  | some maxPlanPages => do
      match ← replaySweep env config.live.maxBatch maxPlanPages after config.beforeSeq with
      | .stop => pure .stop
      | .fail err => pure (.fail err)
      | .next () => if config.snapshotOnly then pure .stop else pure (.next ())

/-- The configuration of the live tail at a cutover: it resumes at the covered boundary. -/
def cutover (canBackfill : Bool) (s : State E ε) : LiveConfig E ε :=
  if canBackfill then
    { config.live with
      cursor := .resume (.seq (max (max s.sealedTipSeq s.lastProcessedSeq) s.seen)) }
  else config.live

/-- The live phase. -/
def livePhase (canBackfill : Bool) (fuel : ℕ) : Run E ε (Flow ε Bool) := do
  let s ← Act.get
  let live := cutover config canBackfill s
  setOutcome .isOpen
  match live.validate with
  | .error err => pure (.fail err)
  | .ok () => do
      let ended ← runLive env canBackfill live fuel
      pure (.next ended)

/-- The progress markers after a fallback to the archive, or none if there were too many
cycles without progress. -/
def advance (s : State E ε) (prev : Progress) : Option Progress :=
  let markers : ℕ → Progress := fun stalls =>
    { processed := s.lastProcessedSeq, seen := s.seen, tip := s.sealedTipSeq, stalls }
  if prev.processed < s.lastProcessedSeq ∨ prev.seen < s.seen ∨ prev.tip < s.sealedTipSeq then
    some (markers 0)
  else if config.maxRebackfillStalls ≤ prev.stalls + 1 then none
  else some (markers (prev.stalls + 1))

/-- The cycles of archive and live phase. -/
def cycles (archive : Option ℕ) : ℕ → (after : ℕ) → Progress → Run E ε (Ending ε)
  | 0, _, _ => pure .running
  | fuel + 1, after, prev => do
      if ← isCancelled env then pure .ok
      else
        match ← archivePhase env config archive after with
        | .stop => pure .ok
        | .fail err => pure (.error err)
        | .next () => do
            if ← isCancelled env then pure .ok
            else
              match ← livePhase env config archive.isSome fuel with
              | .stop => pure .ok
              | .fail err => pure (.error err)
              | .next false => pure .running
              | .next true => do
                  let s ← Act.get
                  match s.outcome with
                  | .isOpen => pure .ok
                  | .stopped => pure .ok
                  | .fatal err => pure (.error err)
                  | .backfill =>
                      match advance config s prev with
                      | none =>
                          pure (.error (.noProgress "archive re-backfill made no forward progress"))
                      | some progress =>
                          cycles archive fuel (max s.lastProcessedSeq s.seen) progress

/-- The state in which a run starts. -/
def EngineConfig.start : State E ε where
  clock := 0
  log := []
  pages := 0
  sealedTipSeq := 0
  plannedThroughSeq := 0
  deliveredEvents := 0
  lastProcessedSeq := config.afterSeq
  seen := config.afterSeq
  outcome := .isOpen

/-- Run the engine, as far as the fuel goes. -/
def engineRun (archive : Option ℕ) (fuel : ℕ) : Run E ε (Ending ε) :=
  match config.validate with
  | .error err => pure (.error err)
  | .ok () =>
      if archive.isNone ∧ (config.snapshotOnly ∨ config.afterSeq ≠ 0 ∨ config.beforeSeq.isSome) then
        pure (.error (.invalidConfig
          "snapshot_only/after_seq/before_seq require an archive source"))
      else
        cycles env config archive fuel config.afterSeq
          { processed := config.afterSeq, seen := config.afterSeq, tip := 0, stalls := 0 }

/-- The log of a run, as far as the fuel goes. -/
def runLog (archive : Option ℕ) (fuel : ℕ) : List (Moment E ε) :=
  (engineRun env config archive fuel config.start).2.log

end Environment

end Shrike.Jetstream
