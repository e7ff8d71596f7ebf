import Shrike.Streaming.Watermark

/-!
# The cursor of a stream

No run moves the cursor back, and what has become of every frame up to it is known.
-/

namespace Shrike.Streaming

open Syntax Sync Cbor Bytes

namespace Serial

variable [Hashing] {config : SerialConfig} {log : ServerLog} {s s' : Serial}

/-- No run moves the cursor back. -/
theorem Steps.cursor_le (h : Steps config log s s') :
  s.cursor ≤ s'.cursor
  := by
  induction h with
  | refl => rfl
  | tail _ hstep ih => exact ih.trans hstep.cursor_le

end Serial

namespace Parallel

variable {config : ParallelConfig} {log : ServerLog} {s s' : Parallel}

/-- No run moves the cursor back. -/
theorem Steps.cursor_le (h : Steps config log s s') :
  s.cursor ≤ s'.cursor
  := by
  induction h with
  | refl => rfl
  | tail _ hstep ih => exact ih.trans hstep.cursor_le

end Parallel

/-- At every moment of a run of a stream, serial or parallel, every frame of the log of the server
above the first cursor and up to the current one was delivered in a batch, dropped by the verifier,
skipped since its type carries nothing to deliver, evicted by the cap of a queue, or has an error
that was yielded or waits to be; and the cursor never moves back. -/
theorem restart_safe [Hashing] (log : ServerLog) (origin : ℤ) :
  (∀ config s, Serial.Steps config log (.start origin) s →
    (∀ seq, 0 < seq → origin < seq → seq ≤ s.cursor → (log.frame seq).isSome →
      s.history.Handled s.pendingError.toList seq)
    ∧ ∀ s', Serial.Steps config log s s' → s.cursor ≤ s'.cursor)
  ∧ ∀ config s, Parallel.Steps config log (.start config origin) s →
    (∀ seq, 0 < seq → origin < seq → seq ≤ s.cursor → (log.frame seq).isSome →
      s.history.Handled s.waiting seq)
    ∧ ∀ s', Parallel.Steps config log s s' → s.cursor ≤ s'.cursor
  := by
  constructor
  · intro config s hsteps
    have hinv := hsteps.inv (Serial.start_inv log origin)
    refine ⟨?_, fun s' h => h.cursor_le⟩
    intro seq _ hlt hle hsome
    apply hinv.sound.handled seq hlt hle hsome
  · intro config s hsteps
    obtain ⟨hinv, -⟩ := hsteps.inv (Parallel.start_inv config log origin) rfl
    obtain ⟨m, -, haccounted⟩ := hinv.sound
    exact ⟨haccounted.handled, fun s' h => h.cursor_le⟩

/-! ### A frame that is skipped -/

namespace Sample

attribute [local instance] Hashing.checksum

/-- A field of a frame. -/
def field (key : String) (value : Bytes) : Bytes := putText (ascii key) ++ value

/-- A frame of the given type with the given fields. -/
def frame (t : String) (fields : List Bytes) : Bytes :=
  putHead 5 2 ++ field "t" (putText (ascii t)) ++ field "op" (putHead 0 1)
    ++ putHead 5 fields.length ++ fields.flatten

/-- The state of a repository, numbered 5. -/
def syncFrame : Bytes :=
  frame "#sync"
    [field "did" (putText (ascii "did:plc:a")), field "rev" (putText (ascii "2222222222222")),
      field "seq" (putHead 0 5), field "time" (putText []), field "blocks" (putBytes [])]

/-- An identity, numbered 6. -/
def identityFrame : Bytes :=
  frame "#identity"
    [field "did" (putText (ascii "did:plc:a")), field "seq" (putHead 0 6),
      field "time" (putText [])]

/-- A log of the two frames. -/
def log : ServerLog where
  frame seq := if seq = 5 then some syncFrame else if seq = 6 then some identityFrame else none
  frameSeq_eq {seq data} h := by
    have hsync : frameSeq syncFrame = 5 := by decide
    have hidentity : frameSeq identityFrame = 6 := by decide
    split_ifs at h with h5 h6
    · cases h
      rw [hsync, h5]
    · cases h
      rw [hidentity, h6]

theorem log_sends_sync :
  log.Sends 0 syncFrame 5
  := by
  apply ServerLog.Sends.next (by decide) rfl
  intro t hpos hlt
  simp only [log]
  rw [if_neg (by omega), if_neg (by omega)]

theorem log_sends_identity :
  log.Sends 5 identityFrame 6
  := by
  apply ServerLog.Sends.next (by decide) rfl
  intro t hpos hlt
  simp only [log]
  rw [if_neg (by omega), if_neg (by omega)]

/-- A stream of batches of one event, without a verifier. -/
def config : SerialConfig := { batchSize := 1, verifier := false }

/-- No verifier, and nothing in its channels. -/
def quiet : Serial.Channels := ⟨none, none⟩

/-- The stream has connected. -/
def connected : Serial := (((Serial.start 0).poll.readChannels config quiet).connect (.ok ()))

/-- The stream has received the state of the repository. -/
def synced : Serial := connected.receive config syncFrame 5 (.ok none)

/-- The stream has received the identity. -/
def delivered : Serial :=
  (synced.readChannels config quiet).receive config identityFrame 6 (.ok none)

theorem steps_delivered :
  Serial.Steps config log (.start 0) delivered
  := by
  have hpoll : Serial.Step config log (.start 0) _ := .poll rfl
  have hread : Serial.Step config log _ _ :=
    .readChannels (s := (Serial.start 0).poll) quiet rfl fun _ => rfl
  have hconnect : Serial.Step config log _ connected := .connect (.ok ()) rfl rfl
  have hsync : Serial.Step config log _ synced := .receive (.ok none) rfl rfl log_sends_sync
  have hagain : Serial.Step config log synced _ := .readChannels quiet (by decide) fun _ => rfl
  have hidentity : Serial.Step config log _ delivered :=
    .receive (.ok none) (by decide) (by decide) log_sends_identity
  exact .tail (.tail (.tail (.tail (.tail (.tail .refl hpoll) hread) hconnect) hsync) hagain)
    hidentity

/-- The cursor has passed the state of the repository, which was neither delivered, nor dropped
by a verifier, nor evicted, and has no error. -/
theorem sync_skipped :
  Serial.Steps config log (.start 0) delivered ∧ delivered.cursor = 6
    ∧ log.frame 5 = some syncFrame ∧ frameSeq syncFrame = 5
    ∧ ¬delivered.history.Delivered 5 ∧ 5 ∉ delivered.history.dropped
    ∧ 5 ∉ delivered.history.evicted ∧ ¬delivered.history.Failed delivered.pendingError.toList 5
  := by
  have hyielded : delivered.history.yielded
      = [.batch [.identity ⟨ascii "did:plc:a", by decide⟩ 6 none]] := by
    decide
  refine ⟨steps_delivered, by decide, rfl, by decide, ?_, by decide,
    by decide, ?_⟩
  · rintro ⟨events, hevents, event, hevent, hseq⟩
    rw [hyielded] at hevents
    obtain ⟨rfl⟩ := List.mem_singleton.mp hevents
    obtain rfl := List.mem_singleton.mp hevent
    exact absurd hseq (by decide)
  · rintro ⟨e, he | he⟩
    · rw [hyielded] at he
      simp at he
    · have hpending : delivered.pendingError = none := by decide
      rw [hpending] at he
      cases he

/-! ### A frame that is delivered -/

/-- A log of the identity. -/
def identityLog : ServerLog where
  frame seq := if seq = 6 then some identityFrame else none
  frameSeq_eq {seq data} h := by
    have hidentity : frameSeq identityFrame = 6 := by decide
    split_ifs at h with h6
    cases h
    rw [hidentity, h6]

theorem identityLog_sends :
  identityLog.Sends 0 identityFrame 6
  := by
  apply ServerLog.Sends.next (by decide) rfl
  intro t hpos hlt
  simp only [identityLog]
  rw [if_neg (by omega)]

/-- A parallel stream of batches of one event, with one worker. -/
def parallelConfig : ParallelConfig := { batchSize := 1, parallelism := 1, perDidQueue := 4 }

theorem did_valid :
  Did.validate (ascii "did:plc:a") = .ok ()
  := by
  decide

/-- The owner of the identity. -/
def did : Did := ⟨ascii "did:plc:a", did_valid⟩

/-- The work of the identity. -/
def job : ParallelJob where
  raw := .identity { did, seq := 6, time := [], handle := none }
  seq := 6
  seq_eq := rfl

/-- The stream has read the identity and counts it as in flight. -/
def submitting : Parallel :=
  { Parallel.start parallelConfig 0 with
    inflight := InflightSeqs.new.add 6
    dispatch := .submitting 6 did job }

theorem receive_identity :
  ({ Parallel.start parallelConfig 0 with dispatch := .reading 0 } : Parallel).receive identityFrame 6
    = submitting
  := by
  have hparsed : parseRawSyncFrame identityFrame
      = .ok (.identity { did, seq := 6, time := [], handle := none }) := by
    decide
  rw [Parallel.receive, hparsed]
  rfl

/-- The scheduler has the identity, which no worker has taken yet. -/
def submitted : Parallel := submitting.addWork 6 did job

/-- The result of the identity waits for the collector. -/
def worked : Parallel :=
  { submitted with
    scheduler := { submitted.scheduler with
      feeder := []
      workers := [.draining did]
      results := [job.run (.ok none)] } }

/-- The identity is delivered. -/
def collected : Parallel :=
  ({ worked.poll with
    scheduler := { worked.scheduler with results := [] } } : Parallel).collect parallelConfig
      (job.run (.ok none))

theorem steps_collected :
  Parallel.Steps parallelConfig identityLog (.start parallelConfig 0) collected
  := by
  have hload : Parallel.Step parallelConfig identityLog (.start parallelConfig 0)
      { Parallel.start parallelConfig 0 with dispatch := .connecting 0 } := .load rfl
  have hconnect : Parallel.Step parallelConfig identityLog
      { Parallel.start parallelConfig 0 with dispatch := .connecting 0 }
      { Parallel.start parallelConfig 0 with dispatch := .reading 0 } := .connect rfl
  have hreceive : Parallel.Step parallelConfig identityLog
      { Parallel.start parallelConfig 0 with dispatch := .reading 0 } submitting := by
    rw [← receive_identity]
    exact .receive rfl identityLog_sends
  have hsubmit : Parallel.Step parallelConfig identityLog submitting submitted := .addWork rfl
  have htake := @Scheduler.Step.take Did ParallelJob ParallelResult _ ParallelJob.Runs
    submitted.scheduler [] [] did job [] rfl rfl
  have hfinish := @Scheduler.Step.finish Did ParallelJob ParallelResult _ ParallelJob.Runs
    { submitted.scheduler with feeder := [], workers := [.running did job] } [] [] did job
    (job.run (.ok none)) rfl ⟨.ok none, rfl⟩
  have hsend := @Scheduler.Step.send Did ParallelJob ParallelResult _ ParallelJob.Runs
    { submitted.scheduler with feeder := [], workers := [.sending did (job.run (.ok none))] } [] []
    did (job.run (.ok none)) rfl (by decide)
  have hworked : Parallel.Steps parallelConfig identityLog submitted worked :=
    .tail (.tail (.tail .refl (.work htake)) (.work hfinish)) (.work hsend)
  have hpoll : Parallel.Step parallelConfig identityLog worked worked.poll := .poll rfl
  have hcollect : Parallel.Step parallelConfig identityLog worked.poll collected :=
    .collect rfl rfl
  exact .tail (.tail ((Relation.ReflTransGen.tail (.tail (.tail (.tail .refl hload) hconnect)
    hreceive) hsubmit).trans hworked) hpoll) hcollect

/-- Both streams have passed their frames, which are done with. -/
theorem delivered_restart_safe :
  (delivered.cursor = 6 ∧ delivered.history.Handled delivered.pendingError.toList 5
    ∧ delivered.history.Handled delivered.pendingError.toList 6)
    ∧ collected.cursor = 6 ∧ collected.history.Handled collected.waiting 6
  := by
  have hdelivered : delivered.cursor = 6 := by decide
  have hcollected : collected.cursor = 6 := by decide
  have hserial := ((restart_safe log 0).1 config delivered steps_delivered).1
  have hparallel := ((restart_safe identityLog 0).2 parallelConfig collected steps_collected).1
  refine ⟨⟨hdelivered, ?_, ?_⟩, hcollected, ?_⟩
  · apply hserial 5 (by decide) (by decide) (by rw [hdelivered]; decide) rfl
  · apply hserial 6 (by decide) (by decide) (by rw [hdelivered]) rfl
  · apply hparallel 6 (by decide) (by decide) (by rw [hcollected]) rfl

end Sample

end Shrike.Streaming
