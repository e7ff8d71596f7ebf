import Shrike.Data.Act
import Shrike.Jetstream.Planner

/-!
# The engine and its environment

What a run of the engine is given by the archive source, the live server, the consumer and
the clock, the counters that it keeps, and the log of what it received and delivered.
-/

namespace Shrike.Jetstream

/-- Events with a sequence number. -/
class Sequenced (E : Type) where
  sequence : E → ℕ

export Sequenced (sequence)

/-- Sequence numbers as events. -/
@[reducible]
def Sequenced.numbers : Sequenced ℕ where
  sequence := id

variable {E ε : Type}

/-- An advisory of the server. -/
structure Info where
  name : String
  message : Option String

/-- A downloaded, decoded and windowed part of a segment. -/
structure DownloadedSegment (E ε : Type) where
  events : List E
  dropped : List (Error ε)
  failure : Option (Error ε)

/-- The chunks that a prepared archive entry yields. -/
abbrev ArchiveStream (E ε : Type) := List (Except (Error ε) (DownloadedSegment E ε))

/-- How one message of the live server decodes. -/
inductive MsgDecode (E ε : Type) where
  | skip
  | event (event : E)
  | info (info : Info)
  | recoverable (error : Error ε)
  | tooLarge
  | fatal (error : Error ε)
  | proto (error : Error ε)

/-- One step of reading a connection. -/
inductive ReadStep (E ε : Type) where
  | message (message : MsgDecode E ε)
  | closed
  | failed
  | flushTimer
  | cancelled

/-- Why a dial failed. The body of a rejected upgrade is given as the error it parses to. -/
inductive DialError (ε : Type) where
  | transport
  | http (error : Error ε)
  | subprotocol
  | canceled

/-- What a dial comes to. A connection is given by what it yields until it closes. -/
inductive Dialed (E ε : Type) where
  | connected (reads : List (ReadStep E ε))
  | failed (error : DialError ε)
  | badUrl (error : Error ε)
  | cancelled

/-- The compression state of the live tail. -/
inductive DictState where
  | off
  | active (id : ℕ)

/-- The dictionary to name on a dial. -/
def DictState.id : DictState → Option ℕ
  | .off => none
  | .active id => some id

/-- What a run is given from outside, at each point of time: whether cancellation was
requested, the answers of the archive source, whether the consumer wants more, the
dictionary (none if the fetch was cancelled), the answers of the live server, and whether a
backoff ended without being cancelled. -/
structure Environment (E ε : Type) where
  cancelled : ℕ → Bool
  planPage : ℕ → PlanBounds → Except (Error ε) PlanPage
  prepare : ℕ → PlanSegment → (after before : ℕ) → Except (Error ε) (ArchiveStream E ε)
  accepts : ℕ → Bool
  dictionary : ℕ → Option DictState
  dial : ℕ → (cursor : Option ℤ) → (dictionary : Option ℕ) → Dialed E ε
  slept : ℕ → Bool

/-- An item of the log of a run: an archive entry was opened, or the consumer was handed a
batch, an advisory or a recoverable error. -/
inductive Item (E ε : Type) where
  | opened (chunks : ArchiveStream E ε)
  | batch (events : List E)
  | info (info : Info)
  | recoverable (error : Error ε)

/-- An item of the log, with the processed counter at that time. -/
structure Moment (E ε : Type) where
  item : Item E ε
  lastProcessedSeq : ℕ

/-- What the live tail told the engine to do next. -/
inductive LiveOutcome (ε : Type) where
  | isOpen
  | backfill
  | fatal (error : Error ε)
  | stopped

/-- The state of a run: the time, the log, the progress counters, the highest sequence that
the live tail accepted, and what the live tail told the engine last. -/
structure State (E ε : Type) where
  clock : ℕ
  log : List (Moment E ε)
  pages : ℕ
  sealedTipSeq : ℕ
  plannedThroughSeq : ℕ
  deliveredEvents : ℕ
  lastProcessedSeq : ℕ
  seen : ℕ
  outcome : LiveOutcome ε

/-- Programs of the engine. -/
abbrev Run (E ε α : Type) := Act (State E ε) α

variable (env : Environment E ε)

/-- Ask the environment for something. -/
def ask {α : Type} (answer : ℕ → α) : Run E ε α :=
  fun s => (answer s.clock, { s with clock := s.clock + 1 })

/-- Whether cancellation was requested. -/
def isCancelled : Run E ε Bool := ask env.cancelled

/-- Write an item to the log. -/
def record (item : Item E ε) : Run E ε Unit :=
  Act.modify fun s => { s with log := s.log ++ [⟨item, s.lastProcessedSeq⟩] }

/-- Hand an item to the consumer. The result says whether it wants more. -/
def handOver (item : Item E ε) : Run E ε Bool := do
  record item
  ask env.accepts

/-- Count the events of a batch. -/
def countBatch [Sequenced E] (events : List E) : Run E ε Unit :=
  Act.modify fun s => { s with
    deliveredEvents := s.deliveredEvents + events.length
    lastProcessedSeq := match events.getLast? with
      | none => s.lastProcessedSeq
      | some last => max s.lastProcessedSeq (sequence last) }

/-- Count a batch and hand it to the consumer. -/
def deliverCounted [Sequenced E] (events : List E) : Run E ε Bool := do
  countBatch events
  handOver env (.batch events)

end Shrike.Jetstream
