import Shrike.Streaming.Delivery

/-!
# The checkpoint of a stream

Where a stream is started again at its cursor, it loses no frame: every frame of the log up to
the cursor is done with.
-/

namespace Shrike.Streaming

open Sync
open Except (map_eq_ok)

namespace Serial

variable {config : SerialConfig} {log : ServerLog} {origin : ℤ} {waiting : List Failure}
  {s s' : Serial}

/-- How far the log has been received: up to the position of the connection, or, where there is
none, up to the cursor, from which the next one starts. -/
def frontier (s : Serial) : ℤ := s.ws.getD s.cursor

/-- Every frame of the log up to the cursor is done with, and every other frame that was received
is done with or has its event in the batch, where the failures of `waiting` will be yielded. The
batch and the mark of the dropped frames stay below what was received. -/
structure Sound (log : ServerLog) (origin : ℤ) (waiting : List Failure) (s : Serial) : Prop where
  handled : ∀ t, origin < t → t ≤ s.cursor → (log.frame t).isSome → s.history.Handled waiting t
  received : ∀ t, origin < t → t ≤ s.frontier → (log.frame t).isSome →
    s.history.Handled waiting t ∨ t ∈ s.batch.map eventSeq
  batch_le : ∀ event ∈ s.batch, 0 < eventSeq event → eventSeq event ≤ s.frontier
  dropped_le : 0 < s.droppedWatermark → s.droppedWatermark ≤ s.frontier

/-- The invariant of the stream. An error is pending only between two items. -/
structure Inv (log : ServerLog) (origin : ℤ) (s : Serial) : Prop where
  sound : s.Sound log origin s.pendingError.toList
  pending : s.phase ≠ .idle → s.pendingError = none

theorem start_inv (log : ServerLog) (origin : ℤ) :
  (start origin).Inv log origin
  where
  sound := {
    handled := fun t hlt hle => absurd hlt hle.not_gt
    received := fun t hlt hle => absurd hlt hle.not_gt
    batch_le := by simp [start]
    dropped_le := by simp [start] }
  pending h := absurd rfl h

namespace Sound

/-- What is moved into the cursor has been received. -/
theorem target_le (h : s.Sound log origin waiting)
    (hpos : 0 < max (batchMax s.batch) s.droppedWatermark) :
  max (batchMax s.batch) s.droppedWatermark ≤ s.frontier
  := by
  rcases max_choice (batchMax s.batch) s.droppedWatermark with hmax | hmax
  · rw [hmax] at hpos ⊢
    apply batchMax_le h.batch_le hpos
  · rw [hmax] at hpos ⊢
    apply h.dropped_le hpos

/-- Yielding the batch moves the cursor only past frames that are done with. -/
theorem yieldBatch (h : s.Sound log origin waiting) :
  s.yieldBatch.Sound log origin waiting
  := by
  have hhandled : ∀ t, origin < t → t ≤ s.yieldBatch.cursor ∨ t ≤ s.frontier →
      (log.frame t).isSome → s.yieldBatch.history.Handled waiting t := by
    intro t hlt hle hsome
    have hall : s.history.Handled waiting t ∨ t ∈ s.batch.map eventSeq := by
      rcases hle with hle | hle
      · rcases le_of_le_fetchMax hle with hle | ⟨hpos, hle⟩
        · exact .inl (h.handled t hlt hle hsome)
        · apply h.received t hlt (hle.trans (h.target_le hpos)) hsome
      · apply h.received t hlt hle hsome
    rcases hall with hdone | hbatch
    · apply hdone.mono (History.extends_yield _ _)
      intro f hf
      exact .inl hf
    · apply History.handled_yield_batch hbatch
  refine ⟨fun t hlt hle => hhandled t hlt (.inl hle), ?_, ?_, ?_⟩
  · intro t hlt hle hsome
    refine .inl (hhandled t hlt ?_ hsome)
    cases hws : s.ws with
    | none =>
        left
        simpa [frontier, Serial.yieldBatch, updateFirehoseCursor, hws] using hle
    | some p =>
        right
        simpa [frontier, Serial.yieldBatch, updateFirehoseCursor, hws] using hle
  · simp [Serial.yieldBatch]
  · simp [Serial.yieldBatch, updateFirehoseCursor]

/-- Moving the cursor past dropped frames, with no batch, moves it only past frames that are done
with. -/
theorem passDropped (h : s.Sound log origin waiting) (hbatch : s.batch = []) :
  s.passDropped.Sound log origin waiting
  := by
  rw [Serial.passDropped]
  split_ifs with hdropped
  · have hbelow : ∀ t, origin < t → t ≤ s.frontier → (log.frame t).isSome →
        s.history.Handled waiting t := by
      intro t hlt hle hsome
      simpa [hbatch] using h.received t hlt hle hsome
    have hhandled : ∀ t, origin < t → t ≤ (s.updateFirehoseCursor []).cursor →
        (log.frame t).isSome → s.history.Handled waiting t := by
      intro t hlt hle hsome
      rcases le_of_le_fetchMax hle with hle | ⟨hpos, hle⟩
      · apply h.handled t hlt hle hsome
      · rw [← hbatch] at hpos hle
        apply hbelow t hlt (hle.trans (h.target_le hpos)) hsome
    refine ⟨hhandled, ?_, ?_, ?_⟩
    · intro t hlt hle hsome
      left
      cases hws : s.ws with
      | none =>
          apply hhandled t hlt _ hsome
          simpa [frontier, updateFirehoseCursor, hws] using hle
      | some p =>
          apply hbelow t hlt _ hsome
          simpa [frontier, updateFirehoseCursor, hws] using hle
    · simp [updateFirehoseCursor, hbatch]
    · simp [updateFirehoseCursor]
  · exact h

/-- More failures may wait. -/
theorem mono (h : s.Sound log origin waiting) {waiting' : List Failure}
    (hwaiting : waiting ⊆ waiting') :
  s.Sound log origin waiting'
  := by
  have hmono : ∀ t, s.history.Handled waiting t → s.history.Handled waiting' t := by
    intro t ht
    apply ht.mono (History.extends_refl _)
    intro f hf
    exact .inl (hwaiting hf)
  refine ⟨?_, ?_, h.batch_le, h.dropped_le⟩
  · intro t hlt hle hsome
    apply hmono t (h.handled t hlt hle hsome)
  · intro t hlt hle hsome
    apply (h.received t hlt hle hsome).imp_left (hmono t)

/-- Without a connection only the frames up to the cursor count as received. -/
theorem disconnect (h : s.Sound log origin waiting) (hbatch : s.batch = [])
    (hdropped : s.droppedWatermark ≤ 0) :
  { s with ws := none }.Sound log origin waiting
  := by
  refine ⟨h.handled, ?_, ?_, ?_⟩
  · intro t hlt hle hsome
    exact .inl (h.handled t hlt hle hsome)
  · simp [hbatch]
  · intro hpos
    exact absurd hdropped hpos.not_ge

/-- A frame arrives: of the frames received only it is not accounted for. -/
theorem advance (h : s.Sound log origin waiting) {position position' : ℤ} {data : Bytes}
    (hws : s.ws = some position) (hsends : log.Sends position data position') :
  (∀ t, origin < t → t ≤ position' → (log.frame t).isSome →
    s.history.Handled waiting t ∨ t ∈ s.batch.map eventSeq ∨ t = frameSeq data)
  ∧ (∀ event ∈ s.batch, 0 < eventSeq event → eventSeq event ≤ position')
  ∧ (0 < s.droppedWatermark → s.droppedWatermark ≤ position')
  := by
  obtain ⟨hle, -, hpasses⟩ := hsends.passes
  have hfrontier : s.frontier = position := by simp [frontier, hws]
  refine ⟨?_, ?_, ?_⟩
  · intro t hlt ht hsome
    rcases le_or_gt t position with hold | hnew
    · rcases h.received t hlt (hfrontier ▸ hold) hsome with hdone | hbatch
      · exact .inl hdone
      · exact .inr (.inl hbatch)
    · exact .inr (.inr (hpasses t hnew ht hsome))
  · intro event hevent hpos
    apply (h.batch_le event hevent hpos).trans (hfrontier.trans_le hle)
  · intro hpos
    apply (h.dropped_le hpos).trans (hfrontier.trans_le hle)

end Sound

/-! ### The steps keep the invariant -/

theorem passDropped_batch :
  s.passDropped.batch = s.batch
  := by
  rw [passDropped]
  split_ifs <;> rfl

theorem passDropped_pendingError :
  s.passDropped.pendingError = s.pendingError
  := by
  rw [passDropped]
  split_ifs <;> rfl

theorem passDropped_droppedWatermark :
  s.passDropped.droppedWatermark ≤ 0
  := by
  rw [passDropped]
  split_ifs with h
  · rfl
  · exact not_lt.mp h

/-- Whether there is a connection makes no difference to the cursor. -/
theorem passDropped_ws :
  ({ s with ws := none } : Serial).passDropped = { s.passDropped with ws := none }
  := by
  simp only [passDropped]
  split_ifs <;> rfl

/-- Between two waits nothing is pending. -/
theorem Sound.inv (h : s.Sound log origin []) (hpending : s.pendingError = none) {phase : Phase} :
  { s with phase := phase }.Inv log origin
  := by
  refine ⟨?_, fun _ => hpending⟩
  rw [hpending]
  exact ⟨h.handled, h.received, h.batch_le, h.dropped_le⟩

theorem yieldBatch_inv (h : s.Sound log origin []) (hpending : s.pendingError = none) :
  s.yieldBatch.Inv log origin
  where
  sound := by
    have hpending' : s.yieldBatch.pendingError = none := hpending
    rw [hpending']
    apply h.yieldBatch
  pending h := absurd rfl h

/-- An error that is yielded, now or after the batch, waits no more than it did. -/
theorem yieldError_inv {failure : Failure} (h : s.Sound log origin [failure]) :
  (s.yieldError failure).Inv log origin
  := by
  rw [yieldError]
  split_ifs with hbatch
  · refine ⟨?_, fun h => absurd rfl h⟩
    have hmono : ∀ t, s.history.Handled [failure] t →
        (s.history.yield (.error failure)).Handled s.pendingError.toList t := by
      intro t ht
      apply ht.mono (History.extends_yield _ _)
      intro f hf
      obtain rfl := List.mem_singleton.mp hf
      exact .inr (by simp [History.yield])
    refine ⟨?_, ?_, h.batch_le, h.dropped_le⟩
    · intro t hlt hle hsome
      apply hmono t (h.handled t hlt hle hsome)
    · intro t hlt hle hsome
      apply (h.received t hlt hle hsome).imp_left (hmono t)
  · have hsound := h.yieldBatch
    exact ⟨⟨hsound.handled, hsound.received, hsound.batch_le, hsound.dropped_le⟩,
      fun h => absurd rfl h⟩

variable {event : Event}

theorem push_inv {phase : Phase} (h : { s with batch := s.batch ++ [event] }.Sound log origin [])
    (hpending : s.pendingError = none) :
  (s.push config event phase).Inv log origin
  := by
  simp only [push]
  split_ifs
  · apply yieldBatch_inv h hpending
  · apply h.inv hpending

/-- An event without a place in the firehose joins the batch. -/
theorem Sound.resync (h : s.Sound log origin []) (hseq : eventSeq event = 0) :
  { s with batch := s.batch ++ [event] }.Sound log origin []
  := by
  refine ⟨h.handled, ?_, ?_, h.dropped_le⟩
  · intro t hlt hle hsome
    apply (h.received t hlt hle hsome).imp_right
    intro hmem
    simp [hmem]
  · intro e he hpos
    rcases List.mem_append.mp he with he | he
    · apply h.batch_le e he hpos
    · obtain rfl := List.mem_singleton.mp he
      rw [hseq] at hpos
      cases hpos

theorem poll_inv (h : s.Inv log origin) :
  s.poll.Inv log origin
  := by
  rw [poll]
  split
  · rename_i failure hpending
    have hmono : ∀ t, s.history.Handled s.pendingError.toList t →
        (s.history.yield (.error failure)).Handled [] t := by
      intro t ht
      apply ht.mono (History.extends_yield _ _)
      intro f hf
      rw [hpending] at hf
      obtain rfl := List.mem_singleton.mp hf
      exact .inr (by simp [History.yield])
    refine ⟨⟨?_, ?_, h.sound.batch_le, h.sound.dropped_le⟩, fun _ => rfl⟩
    · intro t hlt hle hsome
      apply hmono t (h.sound.handled t hlt hle hsome)
    · intro t hlt hle hsome
      apply (h.sound.received t hlt hle hsome).imp_left (hmono t)
  · rename_i hpending
    exact ⟨⟨h.sound.handled, h.sound.received, h.sound.batch_le, h.sound.dropped_le⟩,
      fun _ => hpending⟩

theorem eventFromResyncEvent_seq {r : ResyncEvent} (h : eventFromResyncEvent r = .ok event) :
  eventSeq event = 0
  := by
  obtain ⟨rev, -, h⟩ := Except.bind_eq_ok.mp h
  apply eventFromVerifierOps_seq h

theorem readChannels_inv (h : s.Sound log origin []) (hpending : s.pendingError = none)
    (channels : Channels) :
  (s.readChannels config channels).Inv log origin
  := by
  rw [readChannels]
  split
  · apply yieldError_inv (h.mono (List.nil_subset _))
  · apply h.inv hpending
  · split
    · rename_i hevent
      apply push_inv (h.resync (eventFromResyncEvent_seq hevent)) hpending
    · apply yieldError_inv (h.mono (List.nil_subset _))

theorem connect_inv (h : s.Sound log origin []) (hpending : s.pendingError = none)
    (hws : s.ws = none) (result : Except String Unit) :
  (s.connect result).Inv log origin
  := by
  cases result with
  | ok =>
      have hfrontier : s.frontier = s.cursor := by simp [frontier, hws]
      refine ⟨?_, fun _ => hpending⟩
      rw [connect, hpending]
      refine ⟨h.handled, ?_, ?_, ?_⟩
      · intro t hlt hle hsome
        exact .inl (h.handled t hlt hle hsome)
      · intro event hevent hpos
        exact hfrontier ▸ h.batch_le event hevent hpos
      · intro hpos
        exact hfrontier ▸ h.dropped_le hpos
  | error message => apply yieldError_inv (h.mono (List.nil_subset _))

/-- Without a connection and a batch, the cursor moves past the dropped frames. -/
theorem Sound.passDisconnected (h : s.Sound log origin []) (hbatch : s.batch = []) :
  ({ s with ws := none } : Serial).passDropped.Sound log origin []
  := by
  rw [passDropped_ws]
  apply (h.passDropped hbatch).disconnect (passDropped_batch.trans hbatch)
    passDropped_droppedWatermark

theorem close_inv (h : s.Sound log origin []) (hpending : s.pendingError = none) :
  s.close.Inv log origin
  := by
  simp only [close]
  split_ifs with hbatch
  · apply (h.passDisconnected hbatch).inv
    rw [passDropped_pendingError]
    exact hpending
  · have hsound := h.yieldBatch.disconnect rfl le_rfl
    have hpending' : s.yieldBatch.pendingError = none := hpending
    apply Sound.inv (s := { s.yieldBatch with ws := none }) hsound hpending'

theorem fail_inv (h : s.Sound log origin []) (message : String) :
  (s.fail message).Inv log origin
  := by
  simp only [fail]
  split_ifs with hbatch
  · apply yieldError_inv
    apply (h.passDisconnected hbatch).mono (List.nil_subset _)
  · have hsound : s.yieldBatch.Sound log origin [⟨.webSocket message, 0⟩] :=
      h.yieldBatch.mono (List.nil_subset _)
    have hclosed := hsound.disconnect rfl le_rfl
    rw [yieldError, if_neg hbatch]
    exact ⟨⟨hclosed.handled, hclosed.received, hclosed.batch_le, hclosed.dropped_le⟩,
      fun h => absurd rfl h⟩

theorem expire_inv (h : s.Sound log origin []) (hpending : s.pendingError = none) :
  s.expire.Inv log origin
  := by
  rw [expire]
  split_ifs with hbatch
  · apply (h.passDropped hbatch).inv
    apply passDropped_pendingError.trans hpending
  · apply yieldBatch_inv h hpending

/-! ### Frames -/

variable [Hashing]

/-- The outcome of a frame has its sequence number, and so has the event to deliver. -/
theorem parseFirehoseOutcome_seq {answer : Answer} {data : Bytes} {outcome : VerifyOutcome}
    (h : parseFirehoseOutcome config answer data = .ok outcome) :
  (outcome.seq = frameSeq data ∨ outcome.seq = 0)
    ∧ ∀ event ∈ outcome.event, eventSeq event = frameSeq data
  := by
  rw [parseFirehoseOutcome] at h
  split at h
  · split at h
    · cases h
    · cases h
    · rename_i raw hraw
      obtain ⟨hseq, hevent⟩ := verifyRawEvent_seq h
      by_cases hinfo : raw = .info
      · subst hinfo
        cases h
        simp
      · rw [parseRawSyncFrame_seq hraw hinfo] at hseq hevent
        exact ⟨.inl hseq, hevent⟩
  · obtain ⟨event, hevent, rfl⟩ := map_eq_ok.mp h
    simp [parseFirehoseFrame_seq hevent]

theorem receive_inv (h : s.Sound log origin []) (hpending : s.pendingError = none)
    {position position' : ℤ} {data : Bytes} (hws : s.ws = some position)
    (hsends : log.Sends position data position') (answer : Answer) :
  (s.receive config data position' answer).Inv log origin
  := by
  obtain ⟨hreceived, hbatch, hdropped⟩ := h.advance hws hsends
  obtain ⟨-, hframe, -⟩ := hsends.passes
  simp only [receive]
  split
  · rename_i event seq hok
    have hseq := (parseFirehoseOutcome_seq hok).2 event rfl
    apply push_inv (s := { s with ws := some position' }) _ hpending
    refine ⟨h.handled, ?_, ?_, hdropped⟩
    · intro t hlt hle hsome
      rcases hreceived t hlt hle hsome with hdone | hmem | rfl
      · exact .inl hdone
      · right
        simp [hmem]
      · right
        simp [hseq]
    · intro e he hpos
      rcases List.mem_append.mp he with he | he
      · apply hbatch e he hpos
      · obtain rfl := List.mem_singleton.mp he
        rw [hseq] at hpos ⊢
        apply hframe hpos
  · rename_i seq hok
    have hseq : seq = frameSeq data ∨ seq = 0 := (parseFirehoseOutcome_seq hok).1
    have hmono : ∀ t, s.history.Handled [] t → (s.history.drop (frameSeq data)).Handled [] t := by
      intro t ht
      apply ht.mono (History.extends_drop _ _)
      simp
    refine ⟨?_, fun _ => hpending⟩
    rw [hpending]
    refine ⟨?_, ?_, hbatch, ?_⟩
    · intro t hlt hle hsome
      apply hmono t (h.handled t hlt hle hsome)
    · intro t hlt hle hsome
      rcases hreceived t hlt hle hsome with hdone | hmem | rfl
      · exact .inl (hmono t hdone)
      · exact .inr hmem
      · left
        apply History.handled_drop
    · intro (hpos : 0 < max s.droppedWatermark seq)
      change max s.droppedWatermark seq ≤ position'
      rcases max_choice s.droppedWatermark seq with hmax | hmax
      · rw [hmax] at hpos ⊢
        apply hdropped hpos
      · rw [hmax] at hpos ⊢
        rcases hseq with hseq | hseq
        · rw [hseq] at hpos ⊢
          apply hframe hpos
        · exact absurd hseq hpos.ne'
  · have hmono : ∀ t, s.history.Handled [] t → (s.history.skip (frameSeq data)).Handled [] t := by
      intro t ht
      apply ht.mono (History.extends_skip _ _)
      simp
    refine ⟨?_, fun _ => hpending⟩
    rw [hpending]
    refine ⟨?_, ?_, hbatch, hdropped⟩
    · intro t hlt hle hsome
      apply hmono t (h.handled t hlt hle hsome)
    · intro t hlt hle hsome
      rcases hreceived t hlt hle hsome with hdone | hmem | rfl
      · exact .inl (hmono t hdone)
      · exact .inr hmem
      · left
        apply History.handled_skip
  · rename_i e _ hok
    have hwait := h.mono (List.nil_subset [⟨e, frameSeq data⟩])
    apply yieldError_inv
    refine ⟨hwait.handled, ?_, hbatch, hdropped⟩
    intro t hlt hle hsome
    rcases (hwait.advance hws hsends).1 t hlt hle hsome with hdone | hmem | rfl
    · exact .inl hdone
    · exact .inr hmem
    · left
      apply History.handled_of_waiting (List.mem_singleton.mpr rfl)

/-- Every step keeps the invariant. -/
theorem Step.inv (h : s.Inv log origin) (hstep : Step config log s s') :
  s'.Inv log origin
  := by
  have hsound : s.phase ≠ .idle → s.Sound log origin [] ∧ s.pendingError = none := by
    intro hphase
    have hpending := h.pending hphase
    have hsound := h.sound
    rw [hpending] at hsound
    exact ⟨hsound, hpending⟩
  cases hstep with
  | poll => apply poll_inv h
  | readChannels channels polled =>
      obtain ⟨hs, hpending⟩ := hsound (by simp [polled])
      apply readChannels_inv hs hpending
  | connect result waiting closed =>
      obtain ⟨hs, hpending⟩ := hsound (by simp [waiting])
      apply connect_inv hs hpending closed
  | receive answer waiting opened sends =>
      obtain ⟨hs, hpending⟩ := hsound (by simp [waiting])
      apply receive_inv hs hpending opened sends
  | other waiting =>
      obtain ⟨hs, hpending⟩ := hsound (by simp [waiting])
      apply hs.inv hpending
  | close waiting =>
      obtain ⟨hs, hpending⟩ := hsound (by simp [waiting])
      apply close_inv hs hpending
  | fail message waiting =>
      obtain ⟨hs, -⟩ := hsound (by simp [waiting])
      apply fail_inv hs
  | expire waiting =>
      obtain ⟨hs, hpending⟩ := hsound (by simp [waiting])
      apply expire_inv hs hpending

/-- Every run keeps the invariant. -/
theorem Steps.inv (h : s.Inv log origin) (hsteps : Steps config log s s') :
  s'.Inv log origin
  := by
  induction hsteps with
  | refl => exact h
  | tail _ hstep ih => apply hstep.inv ih

/-! ### The cursor never moves back -/

omit [Hashing] in
theorem cursor_le_yieldBatch (s : Serial) :
  s.cursor ≤ s.yieldBatch.cursor
  := le_fetchMax _ _

omit [Hashing] in
theorem cursor_le_yieldError (s : Serial) (failure : Failure) :
  s.cursor ≤ (s.yieldError failure).cursor
  := by
  rw [yieldError]
  split_ifs
  · rfl
  · apply cursor_le_yieldBatch

omit [Hashing] in
theorem cursor_le_push (s : Serial) (event : Event) (phase : Phase) :
  s.cursor ≤ (s.push config event phase).cursor
  := by
  simp only [push]
  split_ifs
  · apply cursor_le_yieldBatch
  · rfl

omit [Hashing] in
theorem cursor_le_passDropped (s : Serial) :
  s.cursor ≤ s.passDropped.cursor
  := by
  rw [passDropped]
  split_ifs
  · apply le_fetchMax
  · rfl

/-- No step moves the cursor back. -/
theorem Step.cursor_le (h : Step config log s s') :
  s.cursor ≤ s'.cursor
  := by
  cases h with
  | poll =>
      rw [Serial.poll]
      split <;> rfl
  | readChannels channels =>
      rw [Serial.readChannels]
      split
      · apply cursor_le_yieldError
      · rfl
      · split
        · apply cursor_le_push
        · apply cursor_le_yieldError
  | connect result =>
      cases result with
      | ok => rfl
      | error => apply cursor_le_yieldError
  | receive =>
      simp only [Serial.receive]
      split
      · apply cursor_le_push { s with ws := some _ }
      · rfl
      · rfl
      · apply cursor_le_yieldError { s with ws := some _ }
  | other => rfl
  | close =>
      simp only [Serial.close]
      split_ifs
      · apply cursor_le_passDropped { s with ws := none }
      · apply cursor_le_yieldBatch { s with ws := none }
  | fail message =>
      simp only [Serial.fail]
      split_ifs
      · apply (cursor_le_passDropped { s with ws := none }).trans
        apply cursor_le_yieldError
      · apply cursor_le_yieldError { s with ws := none }
  | expire =>
      rw [Serial.expire]
      split_ifs
      · apply cursor_le_passDropped
      · apply cursor_le_yieldBatch

end Serial

end Shrike.Streaming
