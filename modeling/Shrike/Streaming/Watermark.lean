import Shrike.Streaming.Checkpoint
import Shrike.Streaming.Parallel

/-!
# The checkpoint of the parallel stream

Every frame of the log that was dispatched is done with, in the batch or in flight, so no frame
below those in flight is lost.
-/

namespace Shrike.Streaming

open Syntax Sync

namespace Parallel

variable {config : ParallelConfig} {log : ServerLog} {origin m : ℤ} {waiting : List Failure}
  {s s' : Parallel}

/-! ### The invariant -/

/-- The sequence number of a frame, if it has one, is at most `m`. -/
def AtMost (m seq : ℤ) : Prop := 0 < seq → seq ≤ m

/-- What the dispatcher holds lies at most at `m`. -/
def DispatchAtMost (m : ℤ) : Dispatch → Prop
  | .disconnected => True
  | .connecting given => given ≤ m
  | .reading position => position ≤ m
  | .submitting position _ job => position ≤ m ∧ AtMost m job.seq
  | .evicting position _ job => position ≤ m ∧ AtMost m job.seq
  | .reporting _ position => ∀ p ∈ position, p ≤ m
  | .stopped => True

/-- Everything lies at most at `m`: the cursor, the connection, and all frames that were
dispatched. -/
structure Bounded (m : ℤ) (s : Parallel) : Prop where
  cursor : s.cursor ≤ m
  dispatch : DispatchAtMost m s.dispatch
  inflight : ∀ t ∈ s.inflight.xs, t ≤ m
  scheduler : s.scheduler.Holds (fun job => AtMost m job.seq) (fun result => AtMost m result.seq)
  batch : ∀ event ∈ s.batch, AtMost m (eventSeq event)

/-- Every frame of the log up to the cursor is done with, and every other frame up to `m` is done
with, in flight, or has its event in the batch, where the failures of `waiting` will be yielded. -/
structure Accounted (log : ServerLog) (origin : ℤ) (waiting : List Failure) (m : ℤ)
    (s : Parallel) : Prop where
  handled : ∀ t, 0 < t → origin < t → t ≤ s.cursor → (log.frame t).isSome →
    s.history.Handled waiting t
  dispatched : ∀ t, 0 < t → origin < t → t ≤ m → (log.frame t).isSome →
    s.history.Handled waiting t ∨ t ∈ s.batch.map eventSeq ∨ t ∈ s.inflight.xs

/-- The invariant of the stream. An error is pending only between two items. -/
structure Inv (log : ServerLog) (origin : ℤ) (s : Parallel) : Prop where
  sound : ∃ m, s.Bounded m ∧ s.Accounted log origin s.waiting m
  pending : s.collecting = true → s.pendingError = none

theorem start_inv (config : ParallelConfig) (log : ServerLog) (origin : ℤ) :
  (start config origin).Inv log origin
  where
  sound := by
    use origin
    constructor
    · exact ⟨le_rfl, trivial, by simp [start, InflightSeqs.new], Scheduler.new_holds _ _ _,
        by simp [start]⟩
    · exact ⟨fun t _ hlt hle => absurd hlt hle.not_gt, fun t _ hlt hle => absurd hlt hle.not_gt⟩
  pending h := by cases h

theorem AtMost.mono {m m' seq : ℤ} (h : AtMost m seq) (hle : m ≤ m') :
  AtMost m' seq
  := fun hpos => (h hpos).trans hle

variable {m' t position position' : ℤ} {d : Dispatch}

theorem DispatchAtMost.mono {m m' : ℤ} (h : DispatchAtMost m d) (hle : m ≤ m') :
  DispatchAtMost m' d
  := by
  cases d with
  | disconnected => trivial
  | connecting given => exact h.trans hle
  | reading position => exact h.trans hle
  | submitting position key job => exact ⟨h.1.trans hle, h.2.mono hle⟩
  | evicting position key job => exact ⟨h.1.trans hle, h.2.mono hle⟩
  | reporting failure position =>
      intro p hp
      apply (h p hp).trans hle
  | stopped => trivial

theorem Bounded.mono (h : s.Bounded m) (hle : m ≤ m') :
  s.Bounded m'
  where
  cursor := h.cursor.trans hle
  dispatch := h.dispatch.mono hle
  inflight t ht := (h.inflight t ht).trans hle
  scheduler := h.scheduler.mono (fun _ h => h.mono hle) (fun _ h => h.mono hle)
  batch event hevent := (h.batch event hevent).mono hle

theorem Bounded.extend (h : s.Bounded m) (history : History) :
  { s with history }.Bounded m
  := ⟨h.cursor, h.dispatch, h.inflight, h.scheduler, h.batch⟩

/-- More failures may wait, and more may be told. -/
theorem Accounted.extend {history : History} (h : s.Accounted log origin waiting m)
    (waiting' : List Failure) (hext : s.history.Extends history)
    (hwaiting : ∀ f ∈ waiting, f ∈ waiting' ∨ .error f ∈ history.yielded) :
  { s with history }.Accounted log origin waiting' m
  := by
  refine ⟨?_, ?_⟩
  · intro t hpos hlt hle hsome
    apply (h.handled t hpos hlt hle hsome).mono hext hwaiting
  · intro t hpos hlt hle hsome
    apply (h.dispatched t hpos hlt hle hsome).imp_left
    intro hdone
    apply hdone.mono hext hwaiting

/-- A frame that is done with may leave the flight. -/
theorem Accounted.remove (h : s.Accounted log origin waiting m) (seq : ℤ)
    (hseq : s.history.Handled waiting seq ∨ seq ∈ s.batch.map eventSeq) :
  { s with inflight := s.inflight.remove seq }.Accounted log origin waiting m
  := by
  refine ⟨h.handled, ?_⟩
  intro t hpos hlt hle hsome
  rcases h.dispatched t hpos hlt hle hsome with hdone | hbatch | hflight
  · exact .inl hdone
  · exact .inr (.inl hbatch)
  · by_cases hne : t = seq
    · rw [hne]
      exact hseq.imp_right .inl
    · exact .inr (.inr ((InflightSeqs.mem_remove hne).mpr hflight))

theorem Bounded.remove (h : s.Bounded m) (seq : ℤ) :
  { s with inflight := s.inflight.remove seq }.Bounded m
  where
  cursor := h.cursor
  dispatch := h.dispatch
  inflight t ht := h.inflight t (InflightSeqs.mem_of_mem_remove ht)
  scheduler := h.scheduler
  batch := h.batch

/-! ### The cursor -/

/-- The cursor moves only past frames that were dispatched and are not in flight. -/
theorem le_advanceCursor (h : s.Bounded m) (ht : t ≤ (s.advanceCursor s.batch).cursor) :
  t ≤ s.cursor ∨ t ≤ m ∧ t ∉ s.inflight.xs
  := by
  rcases le_of_le_fetchMax ht with ht | ⟨hpos, ht⟩
  · exact .inl ht
  · right
    split_ifs at hpos ht with hmin
    · have hmem := h.inflight _ (InflightSeqs.min_mem hmin)
      refine ⟨by omega, ?_⟩
      intro hflight
      have hle := InflightSeqs.min_le hflight
      omega
    · refine ⟨ht.trans (batchMax_le h.batch hpos), ?_⟩
      intro hflight
      have hxs := s.inflight.positive
      rw [InflightSeqs.min] at hmin
      cases hinflight : s.inflight.xs with
      | nil =>
          rw [hinflight] at hflight
          cases hflight
      | cons x xs =>
          rw [hinflight] at hxs hmin
          exact hmin (hxs x List.mem_cons_self)

theorem advanceCursor_bounded (h : s.Bounded m) :
  (s.advanceCursor s.batch).Bounded m
  where
  cursor := by
    rcases le_advanceCursor h le_rfl with hle | ⟨hle, -⟩
    · exact hle.trans h.cursor
    · exact hle
  dispatch := h.dispatch
  inflight := h.inflight
  scheduler := h.scheduler
  batch := h.batch

theorem flush_bounded (h : s.Bounded m) :
  s.flush.Bounded m
  where
  cursor := (advanceCursor_bounded h).cursor
  dispatch := h.dispatch
  inflight := h.inflight
  scheduler := h.scheduler
  batch := by simp [flush]

/-- Yielding the batch moves the cursor only past frames that are done with. -/
theorem Accounted.flush (h : s.Accounted log origin waiting m) (hbounded : s.Bounded m) :
  s.flush.Accounted log origin waiting m
  := by
  have hdone : ∀ t, s.history.Handled waiting t → s.flush.history.Handled waiting t := by
    intro t ht
    apply ht.mono (History.extends_yield _ _)
    intro f hf
    exact .inl hf
  have hdispatched : ∀ t, 0 < t → origin < t → t ≤ m → (log.frame t).isSome →
      s.flush.history.Handled waiting t ∨ t ∈ s.inflight.xs := by
    intro t hpos hlt hle hsome
    rcases h.dispatched t hpos hlt hle hsome with ht | hbatch | hflight
    · exact .inl (hdone t ht)
    · left
      apply History.handled_yield_batch hbatch
    · exact .inr hflight
  refine ⟨?_, ?_⟩
  · intro t hpos hlt hle hsome
    rcases le_advanceCursor hbounded hle with hle | ⟨hle, hflight⟩
    · apply hdone t (h.handled t hpos hlt hle hsome)
    · apply (hdispatched t hpos hlt hle hsome).resolve_right hflight
  · intro t hpos hlt hle hsome
    apply (hdispatched t hpos hlt hle hsome).imp_right .inr

/-- Without a batch, the cursor moves only past frames that are done with. -/
theorem Accounted.advanceCursor (h : s.Accounted log origin waiting m) (hbounded : s.Bounded m)
    (hbatch : s.batch = []) :
  (s.advanceCursor s.batch).Accounted log origin waiting m
  := by
  refine ⟨?_, h.dispatched⟩
  intro t hpos hlt hle hsome
  rcases le_advanceCursor hbounded hle with hle | ⟨hle, hflight⟩
  · apply h.handled t hpos hlt hle hsome
  · have hdone := h.dispatched t hpos hlt hle hsome
    simp only [hbatch, List.map_nil, List.not_mem_nil, hflight, or_false] at hdone
    exact hdone

/-! ### The collector -/

/-- An error that is yielded, now or after the batch, waits no more than it did. -/
theorem yieldError_inv {failure : Failure} (hbounded : s.Bounded m)
    (h : s.Accounted log origin (failure :: s.waiting) m) (hpending : s.pendingError = none) :
  (s.yieldError failure).Inv log origin
  := by
  rw [yieldError]
  split_ifs with hbatch
  · refine ⟨⟨m, ⟨hbounded.cursor, hbounded.dispatch, hbounded.inflight, hbounded.scheduler,
      hbounded.batch⟩, ?_⟩, by simp⟩
    have hyielded := h.extend s.waiting (History.extends_yield _ (.error failure)) (by
      intro f hf
      rcases List.mem_cons.mp hf with rfl | hf
      · exact .inr (by simp [History.yield])
      · exact .inl hf)
    exact ⟨hyielded.handled, hyielded.dispatched⟩
  · have hflushed := flush_bounded hbounded
    have haccounted := h.flush hbounded
    refine ⟨⟨m, ⟨hflushed.cursor, hflushed.dispatch, hflushed.inflight, hflushed.scheduler,
      hflushed.batch⟩, ?_⟩, ?_⟩
    · have hwaiting : ({ s.flush with pendingError := some failure } : Parallel).waiting
          = failure :: s.waiting := by
        simp [Parallel.waiting, hpending, flush, Parallel.advanceCursor]
      rw [hwaiting]
      exact ⟨haccounted.handled, haccounted.dispatched⟩
    · intro hcollecting
      cases hcollecting

theorem flush_inv (hbounded : s.Bounded m) (h : s.Accounted log origin s.waiting m) :
  s.flush.Inv log origin
  where
  sound := ⟨m, flush_bounded hbounded, h.flush hbounded⟩
  pending hcollecting := by cases hcollecting

theorem push_inv {event : Event} (hbounded : { s with batch := s.batch ++ [event] }.Bounded m)
    (h : { s with batch := s.batch ++ [event] }.Accounted log origin s.waiting m)
    (hpending : s.pendingError = none) :
  (s.push config event).Inv log origin
  := by
  simp only [push]
  split_ifs
  · apply flush_inv hbounded h
  · exact ⟨⟨m, hbounded, h⟩, fun _ => hpending⟩

/-- An event that is at most at `m` joins the batch. -/
theorem Bounded.append {event : Event} (h : s.Bounded m) (hevent : AtMost m (eventSeq event)) :
  { s with batch := s.batch ++ [event] }.Bounded m
  where
  cursor := h.cursor
  dispatch := h.dispatch
  inflight := h.inflight
  scheduler := h.scheduler
  batch := by
    rw [List.forall_mem_append]
    exact ⟨h.batch, by simpa using hevent⟩

theorem Accounted.append (h : s.Accounted log origin waiting m) (event : Event) :
  { s with batch := s.batch ++ [event] }.Accounted log origin waiting m
  := by
  refine ⟨h.handled, ?_⟩
  intro t hpos hlt hle hsome
  rcases h.dispatched t hpos hlt hle hsome with hdone | hbatch | hflight
  · exact .inl hdone
  · right
    left
    simp [hbatch]
  · exact .inr (.inr hflight)

theorem collectResync_inv (hbounded : s.Bounded m) (h : s.Accounted log origin s.waiting m)
    (hpending : s.pendingError = none) (event : ResyncEvent) :
  (s.collectResync config event).Inv log origin
  := by
  rw [collectResync]
  split
  · rename_i event hevent
    have hseq := Serial.eventFromResyncEvent_seq hevent
    apply push_inv (hbounded.append _) (h.append event) hpending
    rw [hseq]
    exact fun hpos => absurd rfl hpos.ne'
  · apply yieldError_inv hbounded _ hpending
    apply h.extend _ (History.extends_refl _)
    intro f hf
    exact .inl (List.mem_cons_of_mem _ hf)

/-- The outcome of a frame that was in flight is done with, or its event joins the batch. -/
theorem collect_inv {result : ParallelResult} (hbounded : s.Bounded m)
    (h : s.Accounted log origin s.waiting m) (hpending : s.pendingError = none)
    (hresult : AtMost m result.seq) :
  (s.collect config result).Inv log origin
  := by
  simp only [collect]
  split
  · rename_i event seq houtcome
    have hseq : eventSeq event = result.seq := result.event_seq _ houtcome event rfl
    have hjoined : ({ s with batch := s.batch ++ [event] }).Accounted log origin s.waiting m :=
      h.append event
    apply push_inv ((hbounded.remove result.seq).append (hseq ▸ hresult)) (hjoined.remove _ _) hpending
    right
    simp [hseq]
  · have hdropped := h.extend s.waiting (History.extends_drop _ result.seq)
      fun f hf => .inl hf
    have hremoved := hdropped.remove _ (.inl (History.handled_drop _ _))
    exact ⟨⟨m, (hbounded.remove result.seq).extend _, hremoved⟩, fun _ => hpending⟩
  · have hskipped := h.extend s.waiting (History.extends_skip _ result.seq)
      fun f hf => .inl hf
    have hremoved := hskipped.remove _ (.inl (History.handled_skip _ _))
    exact ⟨⟨m, (hbounded.remove result.seq).extend _, hremoved⟩, fun _ => hpending⟩
  · rename_i e _ _
    have hfailed := h.extend (⟨e, result.seq⟩ :: s.waiting) (History.extends_refl _)
      fun f hf => .inl (List.mem_cons_of_mem _ hf)
    apply yieldError_inv (hbounded.remove result.seq) _ hpending
    apply hfailed.remove
    left
    apply History.handled_of_waiting List.mem_cons_self

theorem poll_inv (h : s.Inv log origin) :
  s.poll.Inv log origin
  := by
  obtain ⟨m, hbounded, haccounted⟩ := h.sound
  rw [poll]
  split
  · rename_i failure hpending
    have hyielded := haccounted.extend ({ s with pendingError := none } : Parallel).waiting
      (History.extends_yield _ (.error failure)) (by
        intro f hf
        have hmem : f = failure ∨ f ∈ ({ s with pendingError := none } : Parallel).waiting := by
          simpa [waiting, hpending] using hf
        rcases hmem with rfl | hf
        · exact .inr (by simp [History.yield])
        · exact .inl hf)
    exact ⟨⟨m, ⟨hbounded.cursor, hbounded.dispatch, hbounded.inflight, hbounded.scheduler,
      hbounded.batch⟩, ⟨hyielded.handled, hyielded.dispatched⟩⟩, fun _ => rfl⟩
  · rename_i hpending
    exact ⟨⟨m, ⟨hbounded.cursor, hbounded.dispatch, hbounded.inflight, hbounded.scheduler,
      hbounded.batch⟩, ⟨haccounted.handled, haccounted.dispatched⟩⟩, fun _ => hpending⟩

theorem expire_inv (hbounded : s.Bounded m) (h : s.Accounted log origin s.waiting m)
    (hpending : s.pendingError = none) :
  s.expire.Inv log origin
  := by
  rw [expire]
  split_ifs with hbatch
  · rw [← hbatch]
    exact ⟨⟨m, advanceCursor_bounded hbounded, h.advanceCursor hbounded hbatch⟩,
      fun _ => hpending⟩
  · apply flush_inv hbounded h

/-! ### The dispatcher -/

/-- The dispatcher goes on without a change to the frames: an error that it was about to hand over
is handed over. -/
theorem Inv.dispatch (h : s.Inv log origin) {ctrl : List Failure}
    (hd : ∀ m, s.Bounded m → DispatchAtMost m d)
    (hwaiting : s.waiting ⊆ { s with dispatch := d, ctrl }.waiting) :
  { s with dispatch := d, ctrl }.Inv log origin
  := by
  obtain ⟨m, hbounded, haccounted⟩ := h.sound
  refine ⟨⟨m, ⟨hbounded.cursor, hd m hbounded, hbounded.inflight, hbounded.scheduler,
    hbounded.batch⟩, ?_⟩, h.pending⟩
  have hextended := haccounted.extend { s with dispatch := d, ctrl }.waiting
    (History.extends_refl _) fun f hf => .inl (hwaiting hf)
  exact ⟨hextended.handled, hextended.dispatched⟩

/-- The dispatcher has read a frame: it is done with, waits to be reported, or is in flight. -/
theorem Inv.received (h : s.Inv log origin) {data : Bytes}
    (hdispatch : s.dispatch = .reading position) (hsends : log.Sends position data position')
    {history : History} {inflight : InflightSeqs}
    (hext : s.history.Extends history) (hkept : s.inflight.xs ⊆ inflight.xs)
    (hnew : ∀ t ∈ inflight.xs, t ∈ s.inflight.xs ∨ t = frameSeq data)
    (hd : ∀ m, position' ≤ m → AtMost m (frameSeq data) → DispatchAtMost m d)
    (hframe : 0 < frameSeq data →
      history.Handled { s with dispatch := d }.waiting (frameSeq data)
        ∨ frameSeq data ∈ inflight.xs) :
  { s with dispatch := d, history, inflight }.Inv log origin
  := by
  obtain ⟨m, hbounded, haccounted⟩ := h.sound
  obtain ⟨-, hseq, hpasses⟩ := hsends.passes
  have hposition : position ≤ m := by
    have hat := hbounded.dispatch
    rw [hdispatch] at hat
    exact hat
  have hwider := hbounded.mono (le_max_left m position')
  have hatMost : AtMost (max m position') (frameSeq data) := by
    intro hpos
    exact (hseq hpos).trans (le_max_right _ _)
  have hextended := haccounted.extend { s with dispatch := d }.waiting hext (by
    intro f hf
    left
    have hmem : f ∈ s.pendingError.toList ++ s.ctrl := by simpa [waiting, hdispatch] using hf
    apply List.mem_append_left _ hmem)
  refine ⟨⟨max m position', ⟨hwider.cursor, hd _ (le_max_right _ _) hatMost, ?_, hwider.scheduler,
    hwider.batch⟩, ⟨hextended.handled, ?_⟩⟩, h.pending⟩
  · intro t ht
    rcases hnew t ht with ht | rfl
    · apply hwider.inflight t ht
    · apply hatMost (inflight.positive _ ht)
  · intro t hpos hlt hle hsome
    by_cases hold : t ≤ m
    · apply (hextended.dispatched t hpos hlt hold hsome).imp_right
      apply Or.imp_right fun ht => hkept ht
    · have hle' := (le_max_iff.mp hle).resolve_left hold
      obtain rfl := hpasses t (hposition.trans_lt (not_le.mp hold)) hle' hsome
      exact (hframe hpos).imp_right .inr

theorem receive_inv (h : s.Inv log origin) {data : Bytes}
    (hdispatch : s.dispatch = .reading position) (hsends : log.Sends position data position') :
  (s.receive data position').Inv log origin
  := by
  have hreported : ∀ e : StreamError, { s with
      dispatch := .reporting ⟨e, frameSeq data⟩ (some position') }.Inv log origin := by
    intro e
    apply h.received hdispatch hsends (History.extends_refl _) (List.Subset.refl _)
      (fun t ht => .inl ht)
    · intro m hm _ p hp
      cases hp
      exact hm
    · intro _
      left
      apply History.handled_of_waiting (e := e)
      simp [waiting]
  rw [receive]
  split
  · apply hreported
  · apply hreported
  · rename_i raw hraw
    split
    · apply h.received hdispatch hsends (History.extends_skip _ _) (List.Subset.refl _)
        (fun t ht => .inl ht)
      · intro m hm _
        exact hm
      · intro _
        left
        apply History.handled_skip
    · rename_i key hkey
      have hinfo : raw ≠ .info := by
        rintro rfl
        cases hkey
      have hseq := parseRawSyncFrame_seq hraw hinfo
      apply h.received hdispatch hsends (History.extends_refl _)
      · intro t ht
        exact InflightSeqs.mem_add.mpr (.inr ht)
      · intro t ht
        apply (InflightSeqs.mem_add.mp ht).symm.imp_right
        rintro ⟨rfl, -⟩
        exact hseq
      · intro m hm hat
        rw [← hseq] at hat
        exact ⟨hm, hat⟩
      · intro hpos
        exact .inr (InflightSeqs.mem_add.mpr (.inl ⟨hseq.symm, hseq ▸ hpos⟩))

/-- The scheduler takes a frame, or takes it in the place of one that it evicts. -/
theorem addWork_inv (h : s.Inv log origin) (hopen : s.scheduler.closed = false)
    {key : Did} {job : ParallelJob} (hdispatch : s.dispatch = .submitting position key job) :
  (s.addWork position key job).Inv log origin
  := by
  obtain ⟨m, hbounded, haccounted⟩ := h.sound
  obtain ⟨hposition, hjob⟩ : position ≤ m ∧ AtMost m job.seq := by
    have hat := hbounded.dispatch
    rw [hdispatch] at hat
    exact hat
  obtain ⟨hadded, hevicted⟩ := hbounded.scheduler.addWork key hjob
  have hwaiting : s.waiting = s.pendingError.toList ++ s.ctrl := by simp [waiting, hdispatch]
  rw [addWork]
  split
  · rename_i scheduler hadd
    rw [hadd] at hadded
    refine ⟨⟨m, ⟨hbounded.cursor, hposition, hbounded.inflight, hadded, hbounded.batch⟩, ?_⟩,
      h.pending⟩
    rw [hwaiting] at haccounted
    have hextended := haccounted.extend { s with dispatch := .reading position }.waiting
      (History.extends_refl _) fun f hf => .inl (List.mem_append_left _ hf)
    exact ⟨hextended.handled, hextended.dispatched⟩
  · rename_i oldest scheduler hadd
    rw [hadd] at hadded hevicted
    refine ⟨⟨m, ⟨hbounded.cursor, ⟨hposition, hevicted oldest rfl⟩, hbounded.inflight, hadded,
      hbounded.batch⟩, ?_⟩, h.pending⟩
    rw [hwaiting] at haccounted
    have hextended := haccounted.extend { s with dispatch := .evicting position key oldest }.waiting
      (History.extends_evict _ oldest.seq) fun f hf => .inl (List.mem_append_left _ hf)
    exact ⟨hextended.handled, hextended.dispatched⟩
  · rename_i w _ hadd
    have hne := Scheduler.addWork_of_open key job hopen w
    rw [hadd] at hne
    exact absurd rfl hne

/-- An evicted frame leaves the flight with the error that reports it. -/
theorem evict_inv (h : s.Inv log origin) {key : Did} {job : ParallelJob}
    (hdispatch : s.dispatch = .evicting position key job) :
  (s.evict position key job).Inv log origin
  := by
  obtain ⟨m, hbounded, haccounted⟩ := h.sound
  obtain ⟨hposition, hjob⟩ : position ≤ m ∧ AtMost m job.seq := by
    have hat := hbounded.dispatch
    rw [hdispatch] at hat
    exact hat
  have hwaiting : s.waiting = s.pendingError.toList ++ s.ctrl := by simp [waiting, hdispatch]
  rw [hwaiting] at haccounted
  have hextended := haccounted.extend (s.evict position key job).waiting (History.extends_refl _)
    fun f hf => .inl (List.mem_append_left _ hf)
  have hremoved := hextended.remove job.seq (by
    left
    apply History.handled_of_waiting (e := .queueOverflow key job.seq)
    simp [waiting, evict])
  refine ⟨⟨m, ⟨hbounded.cursor, ?_, (hbounded.remove job.seq).inflight, hbounded.scheduler,
    hbounded.batch⟩, ⟨hremoved.handled, hremoved.dispatched⟩⟩, h.pending⟩
  intro p hp
  cases hp
  exact hposition

theorem work_inv (h : s.Inv log origin) {scheduler : Scheduler Did ParallelJob ParallelResult}
    (hwork : Scheduler.Step ParallelJob.Runs s.scheduler scheduler) :
  { s with scheduler }.Inv log origin
  := by
  obtain ⟨m, hbounded, haccounted⟩ := h.sound
  have hholds := hwork.holds (Q := fun result => AtMost m result.seq) (by
    rintro job _ hjob ⟨answer, rfl⟩
    exact hjob) hbounded.scheduler
  exact ⟨⟨m, ⟨hbounded.cursor, hbounded.dispatch, hbounded.inflight, hholds, hbounded.batch⟩,
    ⟨haccounted.handled, haccounted.dispatched⟩⟩, h.pending⟩

/-! ### The runs -/

/-- Every step keeps the invariant. -/
theorem Step.inv (h : s.Inv log origin) (hopen : s.scheduler.closed = false)
    (hstep : Step config log s s') :
  s'.Inv log origin
  := by
  obtain ⟨m, hbounded, haccounted⟩ := h.sound
  have hgiven : ∀ d, s.dispatch = d → ∀ m, s.Bounded m → DispatchAtMost m d := by
    rintro _ rfl m hbounded
    exact hbounded.dispatch
  cases hstep with
  | load dispatch =>
      apply h.dispatch
      · intro m hbounded
        exact hbounded.cursor
      · simp [waiting, dispatch]
  | connect dispatch =>
      apply h.dispatch
      · intro m hbounded
        exact hgiven _ dispatch m hbounded
      · simp [waiting, dispatch]
  | refuse message dispatch =>
      apply h.dispatch
      · intro m _ p hp
        cases hp
      · simp [waiting, dispatch]
  | receive dispatch sends => apply receive_inv h dispatch sends
  | close dispatch =>
      apply h.dispatch
      · intro m _
        trivial
      · simp [waiting, dispatch]
  | fail message dispatch =>
      apply h.dispatch
      · intro m _ p hp
        cases hp
      · simp [waiting, dispatch]
  | addWork dispatch => apply addWork_inv h hopen dispatch
  | evict dispatch => apply evict_inv h dispatch
  | @report failure position dispatch =>
      apply h.dispatch
      · intro m hbounded
        have hat := hgiven _ dispatch m hbounded
        cases position with
        | none => trivial
        | some position => exact hat position rfl
      · cases position <;> simp [waiting, dispatch]
  | work worked => apply work_inv h worked
  | poll => apply poll_inv h
  | asyncError e collecting =>
      apply yieldError_inv hbounded _ (h.pending collecting)
      apply haccounted.extend _ (History.extends_refl _)
      intro f hf
      exact .inl (List.mem_cons_of_mem _ hf)
  | @ctrl failure rest ctrl collecting =>
      have hpending := h.pending collecting
      have hwaiting : s.waiting = failure :: { s with ctrl := rest }.waiting := by
        simp [waiting, hpending, ctrl]
      rw [hwaiting] at haccounted
      apply yieldError_inv (s := { s with ctrl := rest }) (m := m) _ _ hpending
      · exact ⟨hbounded.cursor, hbounded.dispatch, hbounded.inflight, hbounded.scheduler,
          hbounded.batch⟩
      · exact ⟨haccounted.handled, haccounted.dispatched⟩
  | resync event collecting =>
      apply collectResync_inv hbounded haccounted (h.pending collecting)
  | @collect result rest results collecting =>
      have hholds := hbounded.scheduler.results
      rw [results, List.forall_mem_cons] at hholds
      apply collect_inv (s := { s with scheduler := { s.scheduler with results := rest } }) (m := m)
        _ _ (h.pending collecting) hholds.1
      · exact ⟨hbounded.cursor, hbounded.dispatch, hbounded.inflight,
          ⟨hbounded.scheduler.active, hbounded.scheduler.feeder, hbounded.scheduler.workers,
            hholds.2⟩, hbounded.batch⟩
      · exact ⟨haccounted.handled, haccounted.dispatched⟩
  | expire collecting => apply expire_inv hbounded haccounted (h.pending collecting)

theorem yieldError_scheduler (s : Parallel) (failure : Failure) :
  (s.yieldError failure).scheduler = s.scheduler
  := by
  rw [yieldError]
  split_ifs <;> rfl

theorem push_scheduler (s : Parallel) (event : Event) :
  (s.push config event).scheduler = s.scheduler
  := by
  simp only [push]
  split_ifs <;> rfl

/-- The scheduler stays open as long as the stream runs. -/
theorem Step.opened (hstep : Step config log s s') :
  s'.scheduler.closed = s.scheduler.closed
  := by
  cases hstep with
  | receive =>
      rw [Parallel.receive]
      split
      · rfl
      · rfl
      · split <;> rfl
  | @addWork position key job =>
      have hclosed := Scheduler.addWork_closed s.scheduler key job
      rw [Parallel.addWork]
      split <;> (rename_i hadd; rw [hadd] at hclosed; exact hclosed)
  | work worked => exact worked.closed
  | poll =>
      rw [Parallel.poll]
      split <;> rfl
  | asyncError => rw [yieldError_scheduler]
  | ctrl => rw [yieldError_scheduler]
  | resync =>
      rw [collectResync]
      split
      · rw [push_scheduler]
      · rw [yieldError_scheduler]
  | collect =>
      simp only [Parallel.collect]
      split
      · rw [push_scheduler]
      · rfl
      · rfl
      · rw [yieldError_scheduler]
  | expire =>
      rw [Parallel.expire]
      split_ifs <;> rfl
  | _ => rfl

/-- Every run keeps the invariant. -/
theorem Steps.inv (h : s.Inv log origin) (hopen : s.scheduler.closed = false)
    (hsteps : Steps config log s s') :
  s'.Inv log origin ∧ s'.scheduler.closed = false
  := by
  induction hsteps with
  | refl => exact ⟨h, hopen⟩
  | tail _ hstep ih => exact ⟨hstep.inv ih.1 ih.2, hstep.opened.trans ih.2⟩

/-! ### The cursor never moves back -/

theorem cursor_le_flush (s : Parallel) :
  s.cursor ≤ s.flush.cursor
  := le_fetchMax _ _

theorem cursor_le_yieldError (s : Parallel) (failure : Failure) :
  s.cursor ≤ (s.yieldError failure).cursor
  := by
  rw [yieldError]
  split_ifs
  · rfl
  · apply cursor_le_flush

theorem cursor_le_push (s : Parallel) (event : Event) :
  s.cursor ≤ (s.push config event).cursor
  := by
  simp only [push]
  split_ifs
  · apply cursor_le_flush { s with batch := _ }
  · rfl

/-- No step moves the cursor back. -/
theorem Step.cursor_le (h : Step config log s s') :
  s.cursor ≤ s'.cursor
  := by
  cases h with
  | receive =>
      rw [Parallel.receive]
      split
      · rfl
      · rfl
      · split <;> rfl
  | addWork =>
      rw [Parallel.addWork]
      split <;> rfl
  | poll =>
      rw [Parallel.poll]
      split <;> rfl
  | asyncError => apply cursor_le_yieldError
  | @ctrl failure rest => apply cursor_le_yieldError { s with ctrl := rest }
  | resync =>
      rw [collectResync]
      split
      · apply cursor_le_push
      · apply cursor_le_yieldError
  | @collect result rest =>
      simp only [Parallel.collect]
      split
      · apply cursor_le_push { s with inflight := _, scheduler := { s.scheduler with results := rest } }
      · rfl
      · rfl
      · apply cursor_le_yieldError
          { s with inflight := _, scheduler := { s.scheduler with results := rest } }
  | expire =>
      rw [Parallel.expire]
      split_ifs
      · apply le_fetchMax
      · apply cursor_le_flush
  | _ => rfl

end Parallel

end Shrike.Streaming
