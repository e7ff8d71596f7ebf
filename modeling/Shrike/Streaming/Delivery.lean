import Shrike.Streaming.Frame

/-!
# Deliveries of the firehose

The log of the server and its connections, the items that a stream yields, and what has become
of the frames that were received.
-/

namespace Shrike.Streaming

open Sync

/-! ### The server -/

/-- The log of the server: the frames by their sequence numbers. -/
structure ServerLog where
  frame : ℤ → Option Bytes
  frameSeq_eq : ∀ {seq data}, frame seq = some data → frameSeq data = seq

/-- What a connection at a position of the log sends next, and its position afterwards: the first
frame of the log above the position, or a frame without a sequence number. A connection starts at
the cursor that it was given. -/
inductive ServerLog.Sends (log : ServerLog) : ℤ → Bytes → ℤ → Prop where
  | next {position seq data} (above : position < seq) (frame : log.frame seq = some data)
      (first : ∀ t, position < t → t < seq → log.frame t = none) :
      log.Sends position data seq
  | unnumbered {position data} (unnumbered : frameSeq data ≤ 0) :
      log.Sends position data position

/-- A connection moves up, past no frame of the log but the one that it sends. -/
theorem ServerLog.Sends.passes {log : ServerLog} {position position' : ℤ} {data : Bytes}
    (h : log.Sends position data position') :
  position ≤ position' ∧ (0 < frameSeq data → frameSeq data ≤ position')
    ∧ ∀ t, position < t → t ≤ position' → (log.frame t).isSome → t = frameSeq data
  := by
  cases h with
  | next above frame first =>
      have hseq := log.frameSeq_eq frame
      refine ⟨above.le, fun _ => hseq.le, ?_⟩
      intro t hlt hle hsome
      rcases lt_or_eq_of_le hle with hlt' | rfl
      · rw [first t hlt hlt'] at hsome
        cases hsome
      · rw [hseq]
  | unnumbered hseq =>
      refine ⟨le_rfl, fun hpos => absurd hseq hpos.not_ge, ?_⟩
      intro t hlt hle
      exact absurd hlt hle.not_gt

/-! ### The items of a stream -/

/-- An error, and the sequence number of the frame that it is about. It is zero where the error
is about no frame. -/
structure Failure where
  error : StreamError
  seq : ℤ
  deriving DecidableEq

/-- An item of the stream. -/
inductive Item where
  | batch (events : List Event)
  | error (failure : Failure)
  deriving DecidableEq

/-- What has become of frames so far: the items that were yielded, and the sequence numbers of
the frames that the verifier dropped, of those whose type carries nothing to deliver, and of those
that the cap of a queue evicted. -/
structure History where
  yielded : List Item
  dropped : List ℤ
  skipped : List ℤ
  evicted : List ℤ

namespace History

/-- The history of a stream that was just opened. -/
def empty : History := { yielded := [], dropped := [], skipped := [], evicted := [] }

/-- One more item is yielded. -/
def yield (h : History) (item : Item) : History := { h with yielded := h.yielded ++ [item] }

/-- The verifier drops a frame. -/
def drop (h : History) (seq : ℤ) : History := { h with dropped := h.dropped ++ [seq] }

/-- A frame has nothing to deliver. -/
def skip (h : History) (seq : ℤ) : History := { h with skipped := h.skipped ++ [seq] }

/-- The cap of a queue evicts a frame. -/
def evict (h : History) (seq : ℤ) : History := { h with evicted := h.evicted ++ [seq] }

/-- The event of a frame is in a batch that was yielded. -/
def Delivered (h : History) (seq : ℤ) : Prop :=
  ∃ events, .batch events ∈ h.yielded ∧ ∃ event ∈ events, eventSeq event = seq

/-- The error of a frame was yielded, or is among those that wait to be. -/
def Failed (h : History) (waiting : List Failure) (seq : ℤ) : Prop :=
  ∃ e, .error ⟨e, seq⟩ ∈ h.yielded ∨ ⟨e, seq⟩ ∈ waiting

/-- A frame is done with: it was delivered, dropped by the verifier, skipped, evicted, or has
failed. -/
def Handled (h : History) (waiting : List Failure) (seq : ℤ) : Prop :=
  h.Delivered seq ∨ seq ∈ h.dropped ∨ seq ∈ h.skipped ∨ seq ∈ h.evicted ∨ h.Failed waiting seq

end History

/-! ### The cursor -/

/-- The highest of the positive sequence numbers of events: zero if there is none. -/
def batchMax (batch : List Event) : ℤ := (((batch.map eventSeq).filter (0 < ·)).max?).getD 0

/-- A cursor that has moved up to a positive target. It never moves back. -/
def fetchMax (cursor target : ℤ) : ℤ := if 0 < target then max cursor target else cursor

theorem le_fetchMax (cursor target : ℤ) :
  cursor ≤ fetchMax cursor target
  := by
  rw [fetchMax]
  split_ifs
  · apply le_max_left
  · rfl

theorem le_of_le_fetchMax {cursor target t : ℤ} (h : t ≤ fetchMax cursor target) :
  t ≤ cursor ∨ 0 < target ∧ t ≤ target
  := by
  rw [fetchMax] at h
  split_ifs at h with hpos
  · rcases le_max_iff.mp h with h | h
    · exact .inl h
    · exact .inr ⟨hpos, h⟩
  · exact .inl h

/-- The highest sequence number of a batch is below what bounds its positive ones. -/
theorem batchMax_le {batch : List Event} {m : ℤ}
    (h : ∀ event ∈ batch, 0 < eventSeq event → eventSeq event ≤ m) (hpos : 0 < batchMax batch) :
  batchMax batch ≤ m
  := by
  rw [batchMax] at hpos ⊢
  cases hmax : ((batch.map eventSeq).filter (0 < ·)).max? with
  | none =>
      rw [hmax] at hpos
      cases hpos
  | some top =>
      have hmem := List.max?_mem hmax
      simp only [List.mem_filter, List.mem_map, decide_eq_true_eq] at hmem
      obtain ⟨⟨event, hevent, rfl⟩, htop⟩ := hmem
      apply h event hevent htop

/-! ### What stays true of a frame -/

namespace History

variable {h h' : History} {waiting waiting' : List Failure} {seq : ℤ}

/-- A history that has more to tell than another. -/
structure Extends (h h' : History) : Prop where
  yielded : h.yielded ⊆ h'.yielded
  dropped : h.dropped ⊆ h'.dropped
  skipped : h.skipped ⊆ h'.skipped
  evicted : h.evicted ⊆ h'.evicted

theorem extends_refl (h : History) :
  h.Extends h
  := ⟨fun _ => id, fun _ => id, fun _ => id, fun _ => id⟩

theorem extends_yield (h : History) (item : Item) :
  h.Extends (h.yield item)
  := ⟨List.subset_append_left _ _, fun _ => id, fun _ => id, fun _ => id⟩

theorem extends_drop (h : History) (seq : ℤ) :
  h.Extends (h.drop seq)
  := ⟨fun _ => id, List.subset_append_left _ _, fun _ => id, fun _ => id⟩

theorem extends_skip (h : History) (seq : ℤ) :
  h.Extends (h.skip seq)
  := ⟨fun _ => id, fun _ => id, List.subset_append_left _ _, fun _ => id⟩

theorem extends_evict (h : History) (seq : ℤ) :
  h.Extends (h.evict seq)
  := ⟨fun _ => id, fun _ => id, fun _ => id, List.subset_append_left _ _⟩

/-- A frame that is done with stays so: the history only grows, and an error stops waiting only
when it is yielded. -/
theorem Handled.mono (hseq : h.Handled waiting seq) (hext : h.Extends h')
    (hwaiting : ∀ f ∈ waiting, f ∈ waiting' ∨ .error f ∈ h'.yielded) :
  h'.Handled waiting' seq
  := by
  rcases hseq with ⟨events, hevents, hevent⟩ | hdropped | hskipped | hevicted | ⟨e, he⟩
  · exact .inl ⟨events, hext.yielded hevents, hevent⟩
  · exact .inr (.inl (hext.dropped hdropped))
  · exact .inr (.inr (.inl (hext.skipped hskipped)))
  · exact .inr (.inr (.inr (.inl (hext.evicted hevicted))))
  · refine .inr (.inr (.inr (.inr ⟨e, ?_⟩)))
    rcases he with he | he
    · exact .inl (hext.yielded he)
    · exact (hwaiting _ he).symm

theorem handled_yield_batch {batch : List Event} (hseq : seq ∈ batch.map eventSeq) :
  (h.yield (.batch batch)).Handled waiting seq
  := by
  obtain ⟨event, hevent, rfl⟩ := List.mem_map.mp hseq
  exact .inl ⟨batch, by simp [yield], event, hevent, rfl⟩

theorem handled_drop (h : History) (seq : ℤ) :
  (h.drop seq).Handled waiting seq
  := .inr (.inl (by simp [drop]))

theorem handled_skip (h : History) (seq : ℤ) :
  (h.skip seq).Handled waiting seq
  := .inr (.inr (.inl (by simp [skip])))

theorem handled_of_waiting {e : StreamError} (he : ⟨e, seq⟩ ∈ waiting) :
  h.Handled waiting seq
  := .inr (.inr (.inr (.inr ⟨e, .inr he⟩)))

end History

end Shrike.Streaming

/-!
## The serial stream

The stream of the firehose where one task reads a frame, verifies it if there is a verifier, and
gathers the events into batches. Every step of the task, up to the next point where it waits.
-/

namespace Shrike.Streaming

open Sync

/-- The configuration of a stream: how many events make a batch, and whether there is a
verifier. -/
structure SerialConfig where
  batchSize : ℕ
  verifier : Bool

/-- Where the task of the stream is: between two items, at the top of its loop, or past the
channels of the verifier. -/
inductive Phase where
  | idle
  | polled
  | waiting
  deriving DecidableEq

/-- The state of the stream. An open connection is given by its position in the log of the
server. -/
structure Serial where
  cursor : ℤ
  ws : Option ℤ
  batch : List Event
  pendingError : Option Failure
  droppedWatermark : ℤ
  phase : Phase
  history : History

namespace Serial

/-- The state before the first item. -/
def start (cursor : ℤ) : Serial where
  cursor := cursor
  ws := none
  batch := []
  pendingError := none
  droppedWatermark := 0
  phase := .idle
  history := .empty

/-- Move the cursor up to the highest sequence number of a batch and of the frames dropped since
it was last moved. -/
def updateFirehoseCursor (s : Serial) (batch : List Event) : Serial :=
  { s with
    cursor := fetchMax s.cursor (max (batchMax batch) s.droppedWatermark)
    droppedWatermark := 0 }

/-- Yield the batch. -/
def yieldBatch (s : Serial) : Serial :=
  { s.updateFirehoseCursor s.batch with
    batch := []
    phase := .idle
    history := s.history.yield (.batch s.batch) }

/-- Yield an error, after the batch if there is one. -/
def yieldError (s : Serial) (failure : Failure) : Serial :=
  if s.batch = [] then
    { s with phase := .idle, history := s.history.yield (.error failure) }
  else { s.yieldBatch with pendingError := some failure }

/-- Put an event into the batch, and yield it when it is full. Otherwise go to `phase`. -/
def push (config : SerialConfig) (s : Serial) (event : Event) (phase : Phase) : Serial :=
  let s := { s with batch := s.batch ++ [event] }
  if config.batchSize ≤ s.batch.length then s.yieldBatch else { s with phase := phase }

/-- Move the cursor past the frames that were dropped, if there are any. -/
def passDropped (s : Serial) : Serial :=
  if 0 < s.droppedWatermark then s.updateFirehoseCursor [] else s

/-- The next item is asked for. -/
def poll (s : Serial) : Serial :=
  match s.pendingError with
  | some failure =>
      { s with pendingError := none, history := s.history.yield (.error failure) }
  | none => { s with phase := .polled }

/-- What the channels of the verifier hold: an error that comes first, or the state of a
repository. -/
structure Channels where
  asyncError : Option VerifierError
  resyncEvent : Option ResyncEvent

/-- Look into the channels of the verifier. -/
def readChannels (config : SerialConfig) (s : Serial) (channels : Channels) : Serial :=
  match channels.asyncError, channels.resyncEvent with
  | some e, _ => s.yieldError ⟨.verifier e, 0⟩
  | none, none => { s with phase := .waiting }
  | none, some event =>
      match eventFromResyncEvent event with
      | .ok event => s.push config event .waiting
      | .error e => s.yieldError ⟨e, 0⟩

/-- The result of a connection attempt. -/
def connect (s : Serial) (result : Except String Unit) : Serial :=
  match result with
  | .ok () => { s with ws := some s.cursor }
  | .error message => s.yieldError ⟨.webSocket message, 0⟩

variable [Hashing]

/-- The outcome of a frame, where the verifier gives `answer` if it is asked. -/
def parseFirehoseOutcome (config : SerialConfig) (answer : Answer) (data : Bytes) :
    Except StreamError VerifyOutcome :=
  if config.verifier then
    match parseRawSyncFrame data with
    | .error (.parseCbor fault) => .error (.parseCbor fault)
    | .error (.unknownType t) => .error (.parseCbor (.unknownEvent t))
    | .ok raw => verifyRawEvent answer raw
  else (parseFirehoseFrame data).map fun event => { event := some event, seq := eventSeq event }

/-- A frame arrives, after which the connection is at `position`. -/
def receive (config : SerialConfig) (s : Serial) (data : Bytes) (position : ℤ) (answer : Answer) :
    Serial :=
  let s := { s with ws := some position }
  match parseFirehoseOutcome config answer data with
  | .ok { event := some event, .. } => s.push config event .polled
  | .ok { event := none, seq } =>
      { s with
        droppedWatermark := max s.droppedWatermark seq
        phase := .polled
        history := s.history.drop (frameSeq data) }
  | .error (.unknownType _) =>
      { s with phase := .polled, history := s.history.skip (frameSeq data) }
  | .error e => s.yieldError ⟨e, frameSeq data⟩

omit [Hashing] in
/-- The connection is closed. -/
def close (s : Serial) : Serial :=
  let s := { s with ws := none }
  if s.batch = [] then { s.passDropped with phase := .polled } else s.yieldBatch

omit [Hashing] in
/-- The connection breaks. -/
def fail (s : Serial) (message : String) : Serial :=
  let s := { s with ws := none }
  if s.batch = [] then s.passDropped.yieldError ⟨.webSocket message, 0⟩
  else s.yieldError ⟨.webSocket message, 0⟩

omit [Hashing] in
/-- The time for a batch is over. -/
def expire (s : Serial) : Serial :=
  if s.batch = [] then { s.passDropped with phase := .polled } else s.yieldBatch

/-- One step of the stream: an item is asked for, the channels of the verifier are looked into,
a connection is attempted, or, on an open connection, a frame or another message arrives, the
connection ends, or the time for a batch is over. -/
inductive Step (config : SerialConfig) (log : ServerLog) : Serial → Serial → Prop where
  | poll {s : Serial} (idle : s.phase = .idle) : Step config log s s.poll
  | readChannels {s : Serial} (channels : Channels) (polled : s.phase = .polled)
      (verified : config.verifier = false → channels = ⟨none, none⟩) :
      Step config log s (s.readChannels config channels)
  | connect {s : Serial} (result : Except String Unit) (waiting : s.phase = .waiting)
      (closed : s.ws = none) : Step config log s (s.connect result)
  | receive {s : Serial} {position position' data} (answer : Answer)
      (waiting : s.phase = .waiting) (opened : s.ws = some position)
      (sends : log.Sends position data position') :
      Step config log s (s.receive config data position' answer)
  | other {s : Serial} (waiting : s.phase = .waiting) (opened : s.ws.isSome) :
      Step config log s { s with phase := .polled }
  | close {s : Serial} (waiting : s.phase = .waiting) (opened : s.ws.isSome) :
      Step config log s s.close
  | fail {s : Serial} (message : String) (waiting : s.phase = .waiting) (opened : s.ws.isSome) :
      Step config log s (s.fail message)
  | expire {s : Serial} (waiting : s.phase = .waiting) (opened : s.ws.isSome) :
      Step config log s s.expire

/-- The runs of the stream. -/
abbrev Steps (config : SerialConfig) (log : ServerLog) : Serial → Serial → Prop :=
  Relation.ReflTransGen (Step config log)

end Serial

end Shrike.Streaming
