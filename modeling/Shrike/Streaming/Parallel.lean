import Shrike.Streaming.Delivery
import Shrike.Streaming.Scheduler

/-!
# The parallel stream

The stream of the firehose where a dispatcher reads the frames and hands them to a scheduler, the
workers of which verify them, and a collector gathers the events into batches. The tasks run at
once; the steps of all of them, in any order.
-/

namespace Shrike.Streaming

open Syntax Sync

/-! ### The frames in flight -/

/-- The sequence numbers of the frames in flight, in order. A number can be there more than once,
since a new connection sends frames again. -/
structure InflightSeqs where
  xs : List ℤ
  sorted : xs.Pairwise (· ≤ ·)
  positive : ∀ x ∈ xs, 0 < x

namespace InflightSeqs

/-- No frames. -/
def new : InflightSeqs := ⟨[], .nil, by simp⟩

/-- One more frame, if it has a sequence number. -/
def add (s : InflightSeqs) (seq : ℤ) : InflightSeqs :=
  if h : seq ≤ 0 then s
  else {
    xs := s.xs.orderedInsert (· ≤ ·) seq
    sorted := s.sorted.orderedInsert _ _
    positive := by
      intro x hx
      rcases List.mem_orderedInsert _ |>.mp hx with rfl | hx
      · exact not_le.mp h
      · apply s.positive x hx }

/-- One frame less. -/
def remove (s : InflightSeqs) (seq : ℤ) : InflightSeqs where
  xs := s.xs.erase seq
  sorted := s.sorted.sublist List.erase_sublist
  positive x hx := s.positive x (List.mem_of_mem_erase hx)

/-- The smallest sequence number: zero if there is none. -/
def min (s : InflightSeqs) : ℤ := s.xs.head?.getD 0

variable {s : InflightSeqs}

variable {t seq : ℤ}

theorem mem_add :
  t ∈ (s.add seq).xs ↔ t = seq ∧ 0 < seq ∨ t ∈ s.xs
  := by
  rw [add]
  split_ifs with h
  · constructor
    · exact .inr
    · rintro (⟨-, hpos⟩ | ht)
      · exact absurd h hpos.not_ge
      · exact ht
  · simp [List.mem_orderedInsert, not_le.mp h]

theorem mem_remove (h : t ≠ seq) :
  t ∈ (s.remove seq).xs ↔ t ∈ s.xs
  := List.mem_erase_of_ne h

theorem mem_of_mem_remove (h : t ∈ (s.remove seq).xs) :
  t ∈ s.xs
  := List.mem_of_mem_erase h

theorem min_le (h : t ∈ s.xs) :
  s.min ≤ t
  := by
  have hsorted := s.sorted
  rw [min]
  cases hxs : s.xs with
  | nil =>
      rw [hxs] at h
      cases h
  | cons x xs =>
      rw [hxs] at h hsorted
      rcases List.mem_cons.mp h with rfl | h
      · rfl
      · exact (List.pairwise_cons.mp hsorted).1 t h

theorem min_mem (h : 0 < s.min) :
  s.min ∈ s.xs
  := by
  rw [min] at h ⊢
  cases hxs : s.xs with
  | nil =>
      rw [hxs] at h
      cases h
  | cons x xs => simp

end InflightSeqs

/-! ### The work -/

/-- A frame that is handed to the scheduler. -/
structure ParallelJob where
  raw : RawSyncEvent
  seq : ℤ
  seq_eq : seq = rawEventSeq raw

/-- The outcome of a frame, with its sequence number, which is that of the event to deliver. -/
structure ParallelResult where
  seq : ℤ
  outcome : Except StreamError VerifyOutcome
  event_seq : ∀ o, outcome = .ok o → ∀ event ∈ o.event, eventSeq event = seq

/-- Verify a frame, where the verifier gives `answer` if it is asked. -/
def ParallelJob.run (job : ParallelJob) (answer : Answer) : ParallelResult where
  seq := job.seq
  outcome := verifyRawEvent answer job.raw
  event_seq _ ho event hevent := job.seq_eq ▸ (verifyRawEvent_seq ho).2 event hevent

/-- The results that a frame can have. -/
def ParallelJob.Runs (job : ParallelJob) (result : ParallelResult) : Prop :=
  ∃ answer, result = job.run answer

/-- Where the dispatcher is: without a connection, connecting with the cursor it has read, reading
the frames of a connection, submitting a frame that counts as in flight, about to take an evicted
frame out of flight, sending an error to the collector, or at its end. -/
inductive Dispatch where
  | disconnected
  | connecting (given : ℤ)
  | reading (position : ℤ)
  | submitting (position : ℤ) (key : Did) (job : ParallelJob)
  | evicting (position : ℤ) (key : Did) (job : ParallelJob)
  | reporting (failure : Failure) (position : Option ℤ)
  | stopped

/-- The configuration of a stream: how many events make a batch, how many workers there are, and
how long the queue of a repository may be. -/
structure ParallelConfig where
  batchSize : ℕ
  parallelism : ℕ
  perDidQueue : ℕ

/-- The state of the stream. -/
structure Parallel where
  cursor : ℤ
  inflight : InflightSeqs
  dispatch : Dispatch
  scheduler : Scheduler Did ParallelJob ParallelResult
  ctrl : List Failure
  batch : List Event
  pendingError : Option Failure
  collecting : Bool
  history : History

namespace Parallel

/-- The state before the first item. -/
def start (config : ParallelConfig) (cursor : ℤ) : Parallel where
  cursor := cursor
  inflight := .new
  dispatch := .disconnected
  scheduler := .new config.parallelism config.perDidQueue (max config.batchSize 1 * 2)
  ctrl := []
  batch := []
  pendingError := none
  collecting := false
  history := .empty

/-- The room of the channel for the errors of the dispatcher. -/
def ctrlCapacity (config : ParallelConfig) : ℕ := max config.parallelism 1 * 4

/-! ### The dispatcher -/

/-- A frame arrives, after which the connection is at `position`. -/
def receive (s : Parallel) (data : Bytes) (position : ℤ) : Parallel :=
  match parseRawSyncFrame data with
  | .error (.parseCbor fault) =>
      { s with dispatch := .reporting ⟨.parseCbor fault, frameSeq data⟩ (some position) }
  | .error (.unknownType t) =>
      { s with
        dispatch := .reporting ⟨.parseCbor (.unknownEvent t), frameSeq data⟩ (some position) }
  | .ok raw =>
      match frameKey raw with
      | none =>
          { s with dispatch := .reading position, history := s.history.skip (frameSeq data) }
      | some key =>
          { s with
            inflight := s.inflight.add (rawEventSeq raw)
            dispatch := .submitting position key ⟨raw, rawEventSeq raw, rfl⟩ }

/-- Submit a frame to the scheduler. -/
def addWork (s : Parallel) (position : ℤ) (key : Did) (job : ParallelJob) : Parallel :=
  match s.scheduler.addWork key job with
  | (.queued, scheduler) => { s with scheduler, dispatch := .reading position }
  | (.dropped oldest, scheduler) =>
      { s with
        scheduler
        dispatch := .evicting position key oldest
        history := s.history.evict oldest.seq }
  | (.shuttingDown job, scheduler) =>
      { s with scheduler, inflight := s.inflight.remove job.seq, dispatch := .stopped }

/-- Take an evicted frame out of flight. -/
def evict (s : Parallel) (position : ℤ) (key : Did) (job : ParallelJob) : Parallel :=
  { s with
    inflight := s.inflight.remove job.seq
    dispatch := .reporting ⟨.queueOverflow key job.seq, job.seq⟩ (some position) }

/-- Hand an error to the collector, and go on. -/
def report (s : Parallel) (failure : Failure) (position : Option ℤ) : Parallel :=
  { s with
    ctrl := s.ctrl ++ [failure]
    dispatch := match position with
      | some position => .reading position
      | none => .disconnected }

/-! ### The collector -/

/-- Move the cursor up to where no frame is in flight, or, where none is in flight at all, to the
highest sequence number of the batch. -/
def advanceCursor (s : Parallel) (batch : List Event) : Parallel :=
  let watermark := s.inflight.min
  { s with cursor := fetchMax s.cursor (if 0 < watermark then watermark - 1 else batchMax batch) }

/-- Yield the batch. -/
def flush (s : Parallel) : Parallel :=
  { s.advanceCursor s.batch with
    batch := []
    collecting := false
    history := s.history.yield (.batch s.batch) }

/-- Yield an error, after the batch if there is one. -/
def yieldError (s : Parallel) (failure : Failure) : Parallel :=
  if s.batch = [] then
    { s with collecting := false, history := s.history.yield (.error failure) }
  else { s.flush with pendingError := some failure }

/-- Put an event into the batch, and yield it when it is full. -/
def push (config : ParallelConfig) (s : Parallel) (event : Event) : Parallel :=
  let s := { s with batch := s.batch ++ [event] }
  if config.batchSize ≤ s.batch.length then s.flush else s

/-- The next item is asked for. -/
def poll (s : Parallel) : Parallel :=
  match s.pendingError with
  | some failure =>
      { s with pendingError := none, history := s.history.yield (.error failure) }
  | none => { s with collecting := true }

/-- The state of a repository arrives from the verifier. -/
def collectResync (config : ParallelConfig) (s : Parallel) (event : ResyncEvent) : Parallel :=
  match eventFromResyncEvent event with
  | .ok event => s.push config event
  | .error e => s.yieldError ⟨e, 0⟩

/-- The outcome of a frame arrives. -/
def collect (config : ParallelConfig) (s : Parallel) (result : ParallelResult) : Parallel :=
  let s := { s with inflight := s.inflight.remove result.seq }
  match result.outcome with
  | .ok { event := some event, .. } => s.push config event
  | .ok { event := none, .. } => { s with history := s.history.drop result.seq }
  | .error (.unknownType _) => { s with history := s.history.skip result.seq }
  | .error e => s.yieldError ⟨e, result.seq⟩

/-- The time for a batch is over. -/
def expire (s : Parallel) : Parallel := if s.batch = [] then s.advanceCursor [] else s.flush

/-- One step of one of the tasks. The collector may find any of its sources ready. -/
inductive Step (config : ParallelConfig) (log : ServerLog) : Parallel → Parallel → Prop where
  | load {s : Parallel} (dispatch : s.dispatch = .disconnected) :
      Step config log s { s with dispatch := .connecting s.cursor }
  | connect {s : Parallel} {given} (dispatch : s.dispatch = .connecting given) :
      Step config log s { s with dispatch := .reading given }
  | refuse {s : Parallel} {given} (message : String) (dispatch : s.dispatch = .connecting given) :
      Step config log s { s with dispatch := .reporting ⟨.webSocket message, 0⟩ none }
  | receive {s : Parallel} {position position' data}
      (dispatch : s.dispatch = .reading position) (sends : log.Sends position data position') :
      Step config log s (s.receive data position')
  | close {s : Parallel} {position} (dispatch : s.dispatch = .reading position) :
      Step config log s { s with dispatch := .disconnected }
  | fail {s : Parallel} {position} (message : String) (dispatch : s.dispatch = .reading position) :
      Step config log s { s with dispatch := .reporting ⟨.webSocket message, 0⟩ none }
  | addWork {s : Parallel} {position key job}
      (dispatch : s.dispatch = .submitting position key job) :
      Step config log s (s.addWork position key job)
  | evict {s : Parallel} {position key job} (dispatch : s.dispatch = .evicting position key job) :
      Step config log s (s.evict position key job)
  | report {s : Parallel} {failure position} (dispatch : s.dispatch = .reporting failure position)
      (room : s.ctrl.length < ctrlCapacity config) :
      Step config log s (s.report failure position)
  | work {s : Parallel} {scheduler}
      (worked : Scheduler.Step ParallelJob.Runs s.scheduler scheduler) :
      Step config log s { s with scheduler }
  | poll {s : Parallel} (idle : s.collecting = false) : Step config log s s.poll
  | asyncError {s : Parallel} (e : VerifierError) (collecting : s.collecting = true) :
      Step config log s (s.yieldError ⟨.verifier e, 0⟩)
  | ctrl {s : Parallel} {failure rest} (ctrl : s.ctrl = failure :: rest)
      (collecting : s.collecting = true) :
      Step config log s ({ s with ctrl := rest }.yieldError failure)
  | resync {s : Parallel} (event : ResyncEvent) (collecting : s.collecting = true) :
      Step config log s (s.collectResync config event)
  | collect {s : Parallel} {result rest}
      (results : s.scheduler.results = result :: rest) (collecting : s.collecting = true) :
      Step config log s
        ({ s with scheduler := { s.scheduler with results := rest } }.collect config result)
  | expire {s : Parallel} (collecting : s.collecting = true) : Step config log s s.expire

/-- The runs of the stream. -/
abbrev Steps (config : ParallelConfig) (log : ServerLog) : Parallel → Parallel → Prop :=
  Relation.ReflTransGen (Step config log)

/-- The errors that will be yielded: the one that follows a batch, those that the dispatcher has
handed to the collector, and the one that it is about to. -/
def waiting (s : Parallel) : List Failure :=
  s.pendingError.toList ++ s.ctrl ++
    match s.dispatch with
    | .reporting failure _ => [failure]
    | _ => []

end Parallel

end Shrike.Streaming
