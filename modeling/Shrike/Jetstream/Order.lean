import Mathlib.Data.List.Infix
import Shrike.Jetstream.Engine

/-!
# The order of delivery

Over a whole run of the engine, whatever the archive source, the live server and the consumer
do, the sequence numbers of the delivered events increase strictly, and the processed counter
is the last of them.
-/

namespace Shrike.Jetstream

variable {E ε : Type}

/-! ### Ordered logs -/

/-- The events that an item hands to the consumer. -/
def Item.events : Item E ε → List E
  | .batch events => events
  | _ => []

/-- The events that the consumer was handed. -/
def delivered (log : List (Moment E ε)) : List E := log.flatMap (·.item.events)

/-- The processed counter after a log that started at `start`. -/
def processedAt (start : ℕ) (log : List (Moment E ε)) : ℕ :=
  match log.getLast? with
  | none => start
  | some moment => moment.lastProcessedSeq

@[simp]
theorem delivered_append (log log' : List (Moment E ε)) :
  delivered (log ++ log') = delivered log ++ delivered log'
  := List.flatMap_append

@[simp]
theorem delivered_singleton (moment : Moment E ε) :
  delivered [moment] = moment.item.events
  := List.flatMap_singleton ..

@[simp]
theorem processedAt_concat (start : ℕ) (log : List (Moment E ε)) (moment : Moment E ε) :
  processedAt start (log ++ [moment]) = moment.lastProcessedSeq
  := by
  rw [processedAt, List.getLast?_concat]

variable [Sequenced E]

/-- Events whose sequence numbers increase strictly. -/
def Ascending (events : List E) : Prop :=
  events.Pairwise fun e e' => sequence e < sequence e'

/-- The larger of `start` and the last sequence of some events. -/
def highest (start : ℕ) (events : List E) : ℕ :=
  match events.getLast? with
  | none => start
  | some last => max start (sequence last)

/-- What holds of a log: the delivered events increase strictly and lie above `start`, and
the processed counter is the larger of `start` and the last of them. -/
structure Ordered (start : ℕ) (log : List (Moment E ε)) : Prop where
  ascending : Ascending (delivered log)
  above : ∀ e ∈ delivered log, start < sequence e
  processed : processedAt start log = highest start (delivered log)

@[simp]
theorem highest_nil (start : ℕ) :
  highest start ([] : List E) = start
  := rfl

@[simp]
theorem highest_concat (start : ℕ) (events : List E) (last : E) :
  highest start (events ++ [last]) = max start (sequence last)
  := by
  rw [highest, List.getLast?_concat]

theorem start_le_highest (start : ℕ) (events : List E) :
  start ≤ highest start events
  := by
  cases events using List.reverseRecOn with
  | nil => exact le_rfl
  | append_singleton events last =>
      rw [highest_concat]
      exact le_max_left ..

/-- Every event of an ascending list is at most the last. -/
theorem Ascending.le_highest {events : List E} (h : Ascending events) (start : ℕ) {e : E}
    (he : e ∈ events) :
  sequence e ≤ highest start events
  := by
  cases events using List.reverseRecOn with
  | nil => cases he
  | append_singleton events last =>
      rw [highest_concat]
      rcases List.mem_append.mp he with he | he
      · have := (List.pairwise_append.mp h).2.2 e he last (List.mem_singleton_self last)
        exact this.le.trans (le_max_right ..)
      · rw [List.mem_singleton.mp he]
        exact le_max_right ..

/-- Ascending lists of which the second lies above the first make one ascending list. -/
theorem Ascending.append {events events' : List E} {start : ℕ} (h : Ascending events)
    (h' : Ascending events') (habove : ∀ e ∈ events', highest start events < sequence e) :
  Ascending (events ++ events')
  := by
  refine List.pairwise_append.mpr ⟨h, h', fun e he e' he' => ?_⟩
  exact lt_of_le_of_lt (h.le_highest start he) (habove e' he')

/-! ### One item -/

/-- An invariant of the state of the engine: every part of the log up to some moment is
ordered, the processed counter is the one after the log, and every delivered event satisfies
`P`. -/
structure Orderly (P : E → Prop) (start : ℕ) (log : List (Moment E ε)) (processed : ℕ) : Prop where
  ordered : ∀ log', log' <+: log → Ordered start log'
  processed_eq : processedAt start log = processed
  held : ∀ e ∈ delivered log, P e

namespace Orderly

variable {P : E → Prop} {start processed : ℕ} {log : List (Moment E ε)}

/-- The processed counter is the larger of `start` and the last delivered sequence. -/
theorem processed_eq_highest (h : Orderly P start log processed) :
  processed = highest start (delivered log)
  := by
  rw [← h.processed_eq]
  exact (h.ordered log (List.prefix_refl log)).processed

theorem start_le (h : Orderly P start log processed) :
  start ≤ processed
  := by
  rw [h.processed_eq_highest]
  exact start_le_highest ..

/-- Every delivered event is at most the processed counter. -/
theorem le_processed (h : Orderly P start log processed) {e : E} (he : e ∈ delivered log) :
  sequence e ≤ processed
  := by
  rw [h.processed_eq_highest]
  exact (h.ordered log (List.prefix_refl log)).ascending.le_highest start he

/-- The start of a run. -/
theorem nil (P : E → Prop) (start : ℕ) :
  Orderly P start ([] : List (Moment E ε)) start where
  ordered := fun log' hlog' => by
    rw [List.prefix_nil.mp hlog']
    exact ⟨List.Pairwise.nil, fun _ he => (by cases he), rfl⟩
  processed_eq := rfl
  held := fun _ he => (by cases he)

/-- One more moment. -/
theorem concat {moment : Moment E ε} (h : Orderly P start log processed)
    (hordered : Ordered start (log ++ [moment])) (hheld : ∀ e ∈ moment.item.events, P e) :
  Orderly P start (log ++ [moment]) moment.lastProcessedSeq where
  ordered := fun log' hlog' => by
    rcases List.prefix_concat_iff.mp hlog' with rfl | hlog'
    · exact hordered
    · exact h.ordered log' hlog'
  processed_eq := processedAt_concat ..
  held := fun e he => by
    rw [delivered_append, delivered_singleton] at he
    rcases List.mem_append.mp he with he | he
    · exact h.held e he
    · exact hheld e he

/-- An item without events changes nothing. -/
theorem silent {item : Item E ε} (h : Orderly P start log processed) (hitem : item.events = []) :
  Orderly P start (log ++ [⟨item, processed⟩]) processed
  := by
  have hdelivered : delivered (log ++ [⟨item, processed⟩]) = delivered log := by
    rw [delivered_append, delivered_singleton, hitem, List.append_nil]
  have hlog := h.ordered log (List.prefix_refl log)
  refine h.concat ⟨?_, ?_, ?_⟩ fun e he => ?_
  · rw [hdelivered]
    exact hlog.ascending
  · rw [hdelivered]
    exact hlog.above
  · rw [hdelivered, processedAt_concat]
    exact h.processed_eq_highest
  · rw [hitem] at he
    cases he

/-- A batch of ascending events above the processed counter. -/
theorem batch {events : List E} {last : E} (h : Orderly P start log processed)
    (hascending : Ascending (events ++ [last]))
    (habove : ∀ e ∈ events ++ [last], processed < sequence e) (hheld : ∀ e ∈ events ++ [last], P e) :
  Orderly P start (log ++ [⟨.batch (events ++ [last]), max processed (sequence last)⟩])
    (max processed (sequence last))
  := by
  have hlog := h.ordered log (List.prefix_refl log)
  have heq := h.processed_eq_highest
  have hdelivered : delivered (log ++ [⟨.batch (events ++ [last]), max processed (sequence last)⟩])
      = delivered log ++ (events ++ [last]) := by
    rw [delivered_append, delivered_singleton]
    rfl
  refine h.concat ⟨?_, ?_, ?_⟩ hheld
  · rw [hdelivered]
    rw [heq] at habove
    exact hlog.ascending.append hascending habove
  · rw [hdelivered]
    intro e he
    rcases List.mem_append.mp he with he | he
    · exact hlog.above e he
    · exact lt_of_le_of_lt h.start_le (habove e he)
  · have hlast := habove last (by simp)
    rw [hdelivered, processedAt_concat, ← List.append_assoc, highest_concat]
    have := h.start_le
    dsimp only
    omega

end Orderly

/-! ### A pending batch -/

/-- An invariant of the parts of the engine that keep a pending batch: its events ascend, lie
above what was processed and do not exceed the floor. -/
structure Holding (P : E → Prop) (start floor : ℕ) (buf : List E) (log : List (Moment E ε))
    (processed : ℕ) : Prop extends Orderly P start log processed where
  processed_le : processed ≤ floor
  ascending : Ascending buf
  above : ∀ e ∈ buf, processed < sequence e
  below : ∀ e ∈ buf, sequence e ≤ floor
  buf_held : ∀ e ∈ buf, P e

namespace Holding

variable {P : E → Prop} {start floor processed : ℕ} {buf : List E} {log : List (Moment E ε)}

/-- Nothing is pending. -/
theorem of_orderly (h : Orderly P start log processed) (hle : processed ≤ floor) :
  Holding P start floor [] log processed where
  toOrderly := h
  processed_le := hle
  ascending := List.Pairwise.nil
  above := fun _ he => (by cases he)
  below := fun _ he => (by cases he)
  buf_held := fun _ he => (by cases he)

/-- A higher floor. -/
theorem raise (h : Holding P start floor buf log processed) {floor' : ℕ} (hle : floor ≤ floor') :
  Holding P start floor' buf log processed
  := { h with
    processed_le := h.processed_le.trans hle
    below := fun e he => (h.below e he).trans hle }

/-- An item without events changes nothing. -/
theorem silent {item : Item E ε} (h : Holding P start floor buf log processed)
    (hitem : item.events = []) :
  Holding P start floor buf (log ++ [⟨item, processed⟩]) processed
  := { h with toOrderly := h.toOrderly.silent hitem }

/-- One more pending event above the floor. -/
theorem push {event : E} (h : Holding P start floor buf log processed)
    (hfloor : floor < sequence event) (hevent : P event) :
  Holding P start (sequence event) (buf ++ [event]) log processed where
  toOrderly := h.toOrderly
  processed_le := h.processed_le.trans hfloor.le
  ascending := by
    refine List.pairwise_append.mpr ⟨h.ascending, List.pairwise_singleton .., fun e he e' he' => ?_⟩
    rw [List.mem_singleton.mp he']
    exact lt_of_le_of_lt (h.below e he) hfloor
  above := fun e he => by
    rcases List.mem_append.mp he with he | he
    · exact h.above e he
    · rw [List.mem_singleton.mp he]
      exact lt_of_le_of_lt h.processed_le hfloor
  below := fun e he => by
    rcases List.mem_append.mp he with he | he
    · exact (h.below e he).trans hfloor.le
    · rw [List.mem_singleton.mp he]
  buf_held := fun e he => by
    rcases List.mem_append.mp he with he | he
    · exact h.buf_held e he
    · rw [List.mem_singleton.mp he]
      exact hevent

/-- The pending batch is delivered. -/
theorem flush {events : List E} {last : E}
    (h : Holding P start floor (events ++ [last]) log processed) :
  Holding P start floor [] (log ++ [⟨.batch (events ++ [last]), max processed (sequence last)⟩])
    (max processed (sequence last))
  := by
  refine of_orderly (h.toOrderly.batch h.ascending h.above h.buf_held) ?_
  exact max_le h.processed_le (h.below last (by simp))

end Holding

/-! ### Archive replay -/

/-- A property of the log and the processed counter, as one of the state. -/
def OnLog (I : List (Moment E ε) → ℕ → Prop) (s : State E ε) : Prop := I s.log s.lastProcessedSeq

/-- What was delivered so far is in order. -/
abbrev InOrder (start : ℕ) : State E ε → Prop := OnLog (Orderly (fun _ => True) start)

/-- The postcondition of a part of the replay, for a normal end and for another end. -/
def Flow.Post {α σ : Type} (I : α → σ → Prop) (J : σ → Prop) : Flow ε α → σ → Prop
  | .next a => I a
  | .stop => J
  | .fail _ => J

open Act

section Environment

variable (env : Environment E ε) {P : E → Prop} {start : ℕ}

omit [Sequenced E] in
/-- Asking the environment changes neither the log nor the counters. -/
theorem ask_onLog {α : Type} (I : List (Moment E ε) → ℕ → Prop) (answer : ℕ → α) :
  Preserves (OnLog I) (ask answer)
  := fun _ h => h

omit [Sequenced E] in
/-- The answer is the one that the environment gives at some time. -/
theorem answer_onLog {α : Type} (I : List (Moment E ε) → ℕ → Prop) (answer : ℕ → α) :
  Triple (OnLog I) (ask answer) fun a s => (∃ t, a = answer t) ∧ OnLog I s
  := fun s h => ⟨⟨s.clock, rfl⟩, h⟩

variable {buf batch events : List E} {floor lastSeq processed : ℕ}

variable {err cause : Error ε} {item : Item E ε} {fuel after before maxBatch : ℕ}

/-- An item without events keeps what is pending. -/
theorem record_holding (hitem : item.events = []) :
  Preserves (OnLog (Holding P start floor buf)) (record item)
  := fun _ h => Holding.silent h hitem

/-- Handing over an item without events keeps what is pending. -/
theorem handOver_holding (hitem : item.events = []) :
  Preserves (OnLog (Holding P start floor buf)) (handOver env item)
  := Triple.bind (record_holding hitem) fun _ => ask_onLog _ _

/-- A pending batch is delivered in order. -/
theorem deliverCounted_holding (hbuf : buf ≠ []) :
  Triple (OnLog (Holding P start floor buf)) (deliverCounted env buf)
    fun _ => OnLog (Holding P start floor [])
  := by
  intro s hs
  cases buf using List.reverseRecOn with
  | nil => exact absurd rfl hbuf
  | append_singleton events last =>
      have hflush := Holding.flush hs
      unfold OnLog
      simpa [deliverCounted, countBatch, handOver, record, ask, Act.modify] using hflush

/-- The pending batch is delivered in order. -/
theorem flushArchiveBatch_holding :
  Triple (OnLog (Holding P start floor buf)) (flushArchiveBatch env buf)
    fun _ => OnLog (Holding P start floor [])
  := by
  refine Triple.ite (fun hempty => ?_) fun hempty => ?_
  · rw [List.isEmpty_iff.mp hempty]
    exact Triple.pure fun _ h => h
  · exact deliverCounted_holding env fun h => hempty (by rw [h]; rfl)

/-- What holds when a part of the replay ends: the pending batch and the floor that it leaves,
or only the order of the log. -/
def Left (P : E → Prop) (start : ℕ) : Flow ε (ℕ × List E) → State E ε → Prop :=
  Flow.Post (fun left => OnLog (Holding P start left.1 left.2)) (OnLog (Orderly P start))

theorem flushAndStop_orderly {α : Type} {I : α → State E ε → Prop} :
  Triple (OnLog (Holding P start floor buf)) (flushAndStop env buf)
    (Flow.Post I (OnLog (Orderly P start)))
  := Triple.bind (flushArchiveBatch_holding env) fun _ => Triple.pure fun _ h => h.toOrderly

theorem flushAndReport_holding :
  Triple (OnLog (Holding P start floor buf)) (flushAndReport env buf err)
    fun _ => OnLog (Holding P start floor [])
  := by
  refine Triple.bind (flushArchiveBatch_holding env) fun more => ?_
  refine Triple.ite (fun _ => handOver_holding env rfl) fun _ => ?_
  exact Triple.pure fun _ h => h

theorem reportDropped_holding :
  ∀ dropped : List (Error ε), Preserves (OnLog (Holding P start floor []))
    (reportDropped env dropped)
  | [] => Triple.pure fun _ h => h
  | dropped :: rest => by
      rw [reportDropped]
      refine Triple.bind (handOver_holding env rfl) fun more => ?_
      refine Triple.ite (fun _ => reportDropped_holding rest) fun _ => ?_
      exact Triple.pure fun _ h => h

/-- Events that ascend from a floor can be pending all at once. -/
theorem Holding.take {log : List (Moment E ε)} :
  ∀ {events buf : List E} {floor last : ℕ}, Holding P start floor buf log processed →
    ascendFrom floor events = some last → (∀ e ∈ events, P e) →
    Holding P start last (buf ++ events) log processed
  | [], buf, floor, last, h, hlast, _ => by
      cases hlast
      rw [List.append_nil]
      exact h
  | event :: events, buf, floor, last, h, hlast, hevents => by
      rw [ascendFrom] at hlast
      split at hlast
      · cases hlast
      · rename_i hfloor
        have hpush := h.push (Nat.lt_of_not_le hfloor) (hevents event List.mem_cons_self)
        have := hpush.take hlast fun e he => hevents e (List.mem_cons_of_mem _ he)
        rwa [List.append_assoc] at this

theorem replayEvents_left :
  ∀ {events : List E} {floor : ℕ} {buf : List E}, (∀ e ∈ events, P e) →
    Triple (OnLog (Holding P start floor buf)) (replayEvents env maxBatch after events floor buf)
      (Left P start)
  | [], floor, buf, _ => Triple.pure fun _ h => h
  | event :: events, floor, buf, hevents => by
      have hevent := hevents event List.mem_cons_self
      have hrest : ∀ e ∈ events, P e := fun e he => hevents e (List.mem_cons_of_mem _ he)
      rw [replayEvents]
      refine Triple.ite (fun _ => replayEvents_left hrest) fun hskip => ?_
      refine Triple.ite (fun _ => Triple.pure fun _ h => h.toOrderly) fun hlow => ?_
      have hfloor : floor < sequence event := by omega
      refine Triple.ite (fun _ => ?_) fun _ => ?_
      · have hpush : Triple (OnLog (Holding P start floor buf))
            (flushArchiveBatch env (buf ++ [event]))
            fun _ => OnLog (Holding P start (sequence event) []) :=
          (flushArchiveBatch_holding env).strengthen fun _ h => h.push hfloor hevent
        refine Triple.bind hpush fun more => ?_
        refine Triple.ite (fun _ => replayEvents_left hrest) fun _ => ?_
        exact Triple.pure fun _ h => h.toOrderly
      · exact (replayEvents_left hrest).strengthen fun _ h => h.push hfloor hevent

theorem takeEvents_left {maxBatch after floor : ℕ} (hevents : ∀ e ∈ events, P e) :
  Triple (OnLog (Holding P start floor buf)) (takeEvents env maxBatch after events floor buf)
    (Left P start)
  := by
  rw [takeEvents]
  split
  · rename_i last hlast
    refine Triple.ite (fun hempty => ?_) fun _ => replayEvents_left env hevents
    rw [List.isEmpty_iff.mp hempty.1]
    refine Triple.pure fun s h => ?_
    have := (h.raise (le_max_left floor after)).take hlast hevents
    rwa [List.nil_append] at this
  · exact replayEvents_left env hevents

theorem settleDropped_holding {dropped : List (Error ε)} :
  Triple (OnLog (Holding P start floor buf)) (settleDropped env dropped buf)
    fun left => OnLog (Holding P start floor (left.getD []))
  := by
  refine Triple.ite (fun _ => Triple.pure fun _ h => h) fun _ => ?_
  refine Triple.bind (flushArchiveBatch_holding env) fun more => ?_
  refine Triple.ite (fun _ => ?_) fun _ => Triple.pure fun _ h => h
  refine Triple.bind (reportDropped_holding env dropped) fun more => ?_
  exact Triple.ite (fun _ => Triple.pure fun _ h => h) fun _ => Triple.pure fun _ h => h

/-- Every event of a stream of chunks satisfies `P`. -/
def Yields (P : E → Prop) (chunks : ArchiveStream E ε) : Prop :=
  ∀ downloaded, Except.ok downloaded ∈ chunks → ∀ e ∈ downloaded.events, P e

theorem replayChunks_left :
  ∀ {chunks : ArchiveStream E ε} {floor : ℕ} {buf : List E}, Yields P chunks →
    Triple (OnLog (Holding P start floor buf)) (replayChunks env maxBatch after chunks floor buf)
      (Left P start)
  | [], floor, buf, _ => Triple.pure fun _ h => h
  | result :: chunks, floor, buf, hyields => by
      have hrest : Yields P chunks := fun downloaded h => hyields downloaded (List.mem_cons_of_mem _ h)
      unfold replayChunks
      refine Triple.bind (ask_onLog _ _) fun cancelled => ?_
      refine Triple.ite (fun _ => flushAndStop_orderly env) fun _ => ?_
      split
      · exact flushAndStop_orderly env
      · refine Triple.bind (flushAndReport_holding env) fun more => ?_
        exact Triple.ite (fun _ => Triple.pure fun _ h => h) fun _ => Triple.pure fun _ h => h.toOrderly
      · rename_i downloaded
        refine Triple.bind (takeEvents_left env (hyields downloaded List.mem_cons_self)) fun left => ?_
        match left with
        | .stop => exact Triple.pure fun _ h => h
        | .fail err => exact Triple.pure fun _ h => h
        | .next (floor, buf) =>
            refine Triple.bind (settleDropped_holding env) fun left => ?_
            match left with
            | none => exact Triple.pure fun _ h => h.toOrderly
            | some buf =>
                dsimp only
                split
                · refine Triple.bind (flushAndReport_holding env) fun more => ?_
                  exact Triple.ite (fun _ => Triple.pure fun _ h => h)
                    fun _ => Triple.pure fun _ h => h.toOrderly
                · refine Triple.bind (flushArchiveBatch_holding env) fun more => ?_
                  exact Triple.ite (fun _ => replayChunks_left hrest)
                    fun _ => Triple.pure fun _ h => h.toOrderly

/-- Every event that the archive source returns for a window satisfies `P`. -/
def Supplies (P : E → Prop) (after before : ℕ) : Prop :=
  ∀ t segment chunks, env.prepare t segment after before = .ok chunks → Yields P chunks

theorem replayEntries_orderly (hsupplies : Supplies env P after before) :
  ∀ {segments : List PlanSegment} {floor : ℕ} {buf : List E},
    Triple (OnLog (Holding P start floor buf))
      (replayEntries env maxBatch after before segments floor buf)
      (Flow.Post (fun floor => OnLog (Holding P start floor [])) (OnLog (Orderly P start)))
  | [], floor, buf => by
      rw [replayEntries]
      refine Triple.bind (flushArchiveBatch_holding env) fun more => ?_
      exact Triple.ite (fun _ => Triple.pure fun _ h => h) fun _ => Triple.pure fun _ h => h.toOrderly
  | segment :: segments, floor, buf => by
      rw [replayEntries]
      refine Triple.bind_of (answer_onLog _ _) fun result hresult => ?_
      refine Triple.bind (ask_onLog _ _) fun cancelled => ?_
      refine Triple.ite (fun _ => flushAndStop_orderly env) fun _ => ?_
      split
      · exact flushAndStop_orderly env
      · refine Triple.bind (flushAndReport_holding env) fun more => ?_
        exact Triple.ite (fun _ => replayEntries_orderly hsupplies)
          fun _ => Triple.pure fun _ h => h.toOrderly
      · rename_i chunks
        refine Triple.bind (record_holding rfl) fun _ => ?_
        obtain ⟨t, ht⟩ := hresult
        refine Triple.bind (replayChunks_left env (hsupplies t segment chunks ht.symm)) fun left => ?_
        match left with
        | .stop => exact Triple.pure fun _ h => h
        | .fail err => exact Triple.pure fun _ h => h
        | .next (floor, buf) => exact replayEntries_orderly hsupplies

/-- At time `t` the archive source answers the next request of a sweep only with pages that
leave the sweep with a tip that satisfies `T`. -/
def Tips (T : ℕ → Prop) (sweep : PlanSweep) (t : ℕ) : Prop :=
  ∀ page (absorbed : PlanSweep), env.planPage t sweep.bounds = .ok page →
    (sweep.absorb page : Except (Error ε) PlanSweep) = .ok absorbed → T (absorbed.tip.getD 0)

theorem replayPages_orderly {T : ℕ → Prop}
    (hsupplies : ∀ after tip, T tip → Supplies env P after tip) :
  ∀ {budget : ℕ} {sweep : PlanSweep} {floor : ℕ},
    Triple (fun s => OnLog (Holding P start floor []) s ∧ Tips env T sweep (s.clock + 1))
      (replayPages env maxBatch budget sweep floor) fun _ => OnLog (Orderly P start)
  | 0, _, _ => Triple.pure fun _ h => h.1.toOrderly
  | budget + 1, sweep, floor => by
      rw [replayPages]
      refine Triple.bind (Q := fun _ s => OnLog (Holding P start floor []) s ∧ Tips env T sweep s.clock)
        (fun _ h => h) fun cancelled => ?_
      refine Triple.ite (fun _ => Triple.pure fun _ h => h.1.toOrderly) fun _ => ?_
      refine Triple.bind_of (p := fun answer => ∀ page (absorbed : PlanSweep), answer = .ok page →
        (sweep.absorb page : Except (Error ε) PlanSweep) = .ok absorbed → T (absorbed.tip.getD 0))
        (Q := fun _ => OnLog (Holding P start floor []))
        (fun s h => ⟨fun page absorbed => h.2 page absorbed, h.1⟩) fun answer hanswer => ?_
      split
      · exact Triple.pure fun _ h => h.toOrderly
      · exact Triple.pure fun _ h => h.toOrderly
      · rename_i page
        split
        · exact Triple.pure fun _ h => h.toOrderly
        · rename_i absorbed habsorbed
          have htip := hanswer page absorbed rfl habsorbed
          refine Triple.bind (Q := fun _ => OnLog (Holding P start floor [])) (fun _ h => h) fun _ => ?_
          refine Triple.bind (replayEntries_orderly env (hsupplies _ _ htip)) fun left => ?_
          match left with
          | .stop => exact Triple.pure fun _ h => h
          | .fail err => exact Triple.pure fun _ h => h
          | .next floor =>
              refine Triple.bind (Q := fun _ => OnLog (Holding P start floor [])) (fun _ h => h)
                fun _ => ?_
              refine Triple.ite (fun _ => Triple.pure fun _ h => h.toOrderly) fun _ => ?_
              refine (replayPages_orderly hsupplies).strengthen fun s h => ⟨h, ?_⟩
              intro page' absorbed' _ habsorbed'
              rw [PlanSweep.absorb_tip habsorbed habsorbed']
              exact htip

/-! ### The live tail -/

variable (canBackfill : Bool) (config : LiveConfig E ε)

/-- An invariant of the live tail: it asks the engine to return to the archive only if there
is one. -/
def Bridged (I : List (Moment E ε) → ℕ → Prop) (s : State E ε) : Prop :=
  OnLog I s ∧ (s.outcome = .backfill → canBackfill = true)

/-- The invariant of a pending batch, without a property of the events. -/
abbrev Sequences (start lastSeq : ℕ) (batch : List E) : List (Moment E ε) → ℕ → Prop :=
  Holding (fun _ => True) start lastSeq batch

omit [Sequenced E] in
theorem ask_bridged {α : Type} (I : List (Moment E ε) → ℕ → Prop) (answer : ℕ → α) :
  Preserves (Bridged canBackfill I) (ask answer)
  := fun _ h => h

omit [Sequenced E] in
theorem noteStopped_bridged (I : List (Moment E ε) → ℕ → Prop) (more : Bool) :
  Preserves (Bridged canBackfill I) (noteStopped more)
  := by
  refine Triple.ite (fun _ => Triple.pure fun _ h => h) fun _ => ?_
  refine Triple.bind (Q := fun _ => Bridged canBackfill I) (fun s h => ?_)
    fun _ => Triple.pure fun _ h => h
  exact ⟨h.1, fun h => (by cases h)⟩

omit [Sequenced E] in
theorem deliverError_bridged (I : List (Moment E ε) → ℕ → Prop) (err : Error ε) :
  Preserves (Bridged canBackfill I) (deliverError canBackfill err)
  := by
  refine fun s h => ⟨h.1, fun hout => ?_⟩
  dsimp only [deliverError, setOutcome, Act.modify] at hout
  split at hout
  · rename_i hback
    exact (Bool.and_eq_true_iff.mp hback).1
  · cases hout

theorem handOver_bridged (hitem : item.events = []) :
  Preserves (Bridged canBackfill (Sequences start lastSeq batch)) (handOver env item)
  := fun s h => ⟨handOver_holding env hitem s h.1, h.2⟩

theorem deliverBatch_bridged :
  Triple (Bridged canBackfill (Sequences start lastSeq batch)) (deliverBatch env batch)
    fun _ => Bridged canBackfill (Sequences start lastSeq [])
  := by
  refine Triple.ite (fun hempty => ?_) fun hempty => ?_
  · rw [List.isEmpty_iff.mp hempty]
    exact Triple.pure fun _ h => h
  · refine Triple.bind (Q := fun _ => Bridged canBackfill (Sequences start lastSeq []))
      (fun s h => ⟨?_, h.2⟩) fun more => noteStopped_bridged canBackfill _ more
    exact deliverCounted_holding env (fun h => hempty (by rw [h]; rfl)) s h.1

theorem recoverable_bridged :
  Preserves (Bridged canBackfill (Sequences start lastSeq batch)) (recoverable env err)
  := Triple.bind (handOver_bridged env canBackfill rfl) fun more => noteStopped_bridged canBackfill _ more

theorem deliverInfo_bridged {info : Info} :
  Preserves (Bridged canBackfill (Sequences start lastSeq batch)) (deliverInfo env info)
  := Triple.bind (handOver_bridged env canBackfill rfl) fun more => noteStopped_bridged canBackfill _ more

theorem acceptEvent_bridged {event : E} {state : StreamState} :
  Triple (Bridged canBackfill (Sequences start state.lastSeq batch))
    (acceptEvent env config event state batch)
    fun left => Bridged canBackfill (Sequences start left.1.lastSeq (left.2.getD []))
  := by
  refine Triple.ite (fun _ => Triple.pure fun _ h => h) fun hlow => ?_
  have hfloor : state.lastSeq < sequence event := Nat.lt_of_not_le hlow
  refine Triple.bind (Q := fun _ => Bridged canBackfill (Sequences start state.lastSeq batch))
    (fun _ h => h) fun _ => ?_
  refine Triple.ite (fun _ => ?_) fun _ => Triple.pure fun _ h => ⟨h.1.raise hfloor.le, h.2⟩
  refine Triple.ite (fun _ => ?_) fun _ => Triple.pure fun _ h => ⟨h.1.push hfloor trivial, h.2⟩
  refine Triple.bind ((deliverBatch_bridged env canBackfill).strengthen
    fun _ h => ⟨h.1.push hfloor trivial, h.2⟩) fun more => ?_
  exact Triple.ite (fun _ => Triple.pure fun _ h => h) fun _ => Triple.pure fun _ h => h

theorem flushAndReconnect_bridged :
  Triple (Bridged canBackfill (Sequences start lastSeq batch)) (flushAndReconnect env batch cause)
    fun _ => Bridged canBackfill (Sequences start lastSeq [])
  := by
  refine Triple.bind (deliverBatch_bridged env canBackfill) fun more => ?_
  exact Triple.ite (fun _ => Triple.pure fun _ h => h) fun _ => Triple.pure fun _ h => h

omit [Sequenced E] in
theorem recoverDict_bridged (I : List (Moment E ε) → ℕ → Prop) (dict : DictState) :
  Preserves (Bridged canBackfill I) (recoverDict env dict)
  := by
  refine Triple.bind (ask_bridged canBackfill I env.dictionary) fun answer => ?_
  split <;> exact Triple.pure fun _ h => h

theorem onProtocolError_bridged {dict : DictState} :
  Triple (Bridged canBackfill (Sequences start lastSeq batch))
    (onProtocolError env canBackfill batch dict err)
    fun _ => Bridged canBackfill (Sequences start lastSeq [])
  := by
  refine Triple.bind (deliverBatch_bridged env canBackfill) fun more => ?_
  refine Triple.ite (fun _ => ?_) fun _ => Triple.pure fun _ h => h
  split
  · exact Triple.bind (deliverError_bridged canBackfill _ err) fun _ => Triple.pure fun _ h => h
  · refine Triple.bind (recoverDict_bridged env canBackfill _ dict) fun answer => ?_
    split <;> exact Triple.pure fun _ h => h
  · exact Triple.pure fun _ h => h

/-- A session delivers in order, and leaves nothing pending. -/
theorem session_bridged :
  ∀ {reads : List (ReadStep E ε)} {state : StreamState} {dict : DictState} {batch : List E},
    Triple (Bridged canBackfill (Sequences start state.lastSeq batch))
      (session env canBackfill config reads state dict batch)
      fun left => Bridged canBackfill (Sequences start left.2.1.lastSeq [])
  | [], state, dict, batch =>
      Triple.bind (flushAndReconnect_bridged env canBackfill) fun _ => Triple.pure fun _ h => h
  | .cancelled :: _, state, dict, batch =>
      Triple.bind (deliverBatch_bridged env canBackfill) fun _ => Triple.pure fun _ h => h
  | .flushTimer :: reads, state, dict, batch => by
      refine Triple.bind (deliverBatch_bridged env canBackfill) fun more => ?_
      exact Triple.ite (fun _ => session_bridged) fun _ => Triple.pure fun _ h => h
  | .closed :: _, state, dict, batch =>
      Triple.bind (flushAndReconnect_bridged env canBackfill) fun _ => Triple.pure fun _ h => h
  | .failed :: _, state, dict, batch =>
      Triple.bind (flushAndReconnect_bridged env canBackfill) fun _ => Triple.pure fun _ h => h
  | .message .skip :: reads, state, dict, batch => by
      rw [session]
      exact session_bridged
  | .message (.recoverable err) :: reads, state, dict, batch => by
      refine Triple.bind (deliverBatch_bridged env canBackfill) fun more => ?_
      refine Triple.ite (fun _ => ?_) fun _ => Triple.pure fun _ h => h
      refine Triple.bind (recoverable_bridged env canBackfill) fun more => ?_
      exact Triple.ite (fun _ => session_bridged) fun _ => Triple.pure fun _ h => h
  | .message .tooLarge :: _, state, dict, batch =>
      Triple.bind (flushAndReconnect_bridged env canBackfill) fun _ => Triple.pure fun _ h => h
  | .message (.event event) :: reads, state, dict, batch => by
      refine Triple.bind (acceptEvent_bridged env canBackfill config) fun left => ?_
      match left with
      | (state, some batch) => exact session_bridged
      | (state, none) => exact Triple.pure fun _ h => h
  | .message (.info info) :: reads, state, dict, batch => by
      refine Triple.bind (deliverBatch_bridged env canBackfill) fun more => ?_
      refine Triple.ite (fun _ => ?_) fun _ => Triple.pure fun _ h => h
      refine Triple.bind (deliverInfo_bridged env canBackfill) fun more => ?_
      exact Triple.ite (fun _ => session_bridged) fun _ => Triple.pure fun _ h => h
  | .message (.fatal err) :: _, state, dict, batch => by
      refine Triple.bind (deliverBatch_bridged env canBackfill) fun more => ?_
      refine Triple.ite (fun _ => ?_) fun _ => Triple.pure fun _ h => h
      exact Triple.bind (deliverError_bridged canBackfill _ err) fun _ => Triple.pure fun _ h => h
  | .message (.proto err) :: _, state, dict, batch =>
      Triple.bind (onProtocolError_bridged env canBackfill) fun _ => Triple.pure fun _ h => h

omit [Sequenced E] in
theorem handleDialError_bridged (I : List (Moment E ε) → ℕ → Prop) (err : DialError ε) :
  Preserves (Bridged canBackfill I) (handleDialError canBackfill err)
  := by
  cases err with
  | canceled => exact Triple.pure fun _ h => h
  | transport => exact Triple.pure fun _ h => h
  | subprotocol =>
      exact Triple.bind (deliverError_bridged canBackfill I _) fun _ => Triple.pure fun _ h => h
  | http err =>
      rw [handleDialError]
      split
      · exact Triple.bind (deliverError_bridged canBackfill I err) fun _ => Triple.pure fun _ h => h
      · exact Triple.pure fun _ h => h
      · exact Triple.pure fun _ h => h

omit [Sequenced E] in
theorem dial_bridged (I : List (Moment E ε) → ℕ → Prop) (state : StreamState) (dict : DictState) :
  Preserves (Bridged canBackfill I) (dial env canBackfill config state dict)
  := by
  refine Triple.bind (ask_bridged canBackfill I _) fun dialed => ?_
  split
  · exact Triple.pure fun _ h => h
  · exact handleDialError_bridged canBackfill I _
  · exact Triple.bind (deliverError_bridged canBackfill I _) fun _ => Triple.pure fun _ h => h
  · exact Triple.pure fun _ h => h

theorem reportAndBackOff_bridged :
  Preserves (Bridged canBackfill (Sequences start lastSeq batch)) (reportAndBackOff env cause)
  := by
  refine Triple.bind (recoverable_bridged env canBackfill) fun more => ?_
  exact Triple.ite (fun _ => ask_bridged canBackfill _ _) fun _ => Triple.pure fun _ h => h

/-- The live tail delivers in order, whatever the server does. -/
theorem tail_bridged :
  ∀ {fuel : ℕ} {state : StreamState} {dict : DictState},
    Triple (Bridged canBackfill (Sequences start state.lastSeq []))
      (tail env canBackfill config fuel state dict)
      fun _ => Bridged canBackfill (Orderly (fun _ => True) start)
  | 0, _, _ => Triple.pure fun _ h => ⟨h.1.toOrderly, h.2⟩
  | fuel + 1, state, dict => by
      have hagain {cause : Error ε} {state : StreamState} {dict : DictState} :
          Triple (Bridged canBackfill (Sequences start state.lastSeq []))
            (do if ← reportAndBackOff env cause then tail env canBackfill config fuel state dict
                else pure true)
            fun _ => Bridged canBackfill (Orderly (fun _ => True) start) := by
        refine Triple.bind (reportAndBackOff_bridged env canBackfill) fun more => ?_
        exact Triple.ite (fun _ => tail_bridged)
          fun _ => Triple.pure fun _ h => ⟨h.1.toOrderly, h.2⟩
      rw [tail]
      refine Triple.bind (ask_bridged canBackfill _ _) fun cancelled => ?_
      refine Triple.ite (fun _ => Triple.pure fun _ h => ⟨h.1.toOrderly, h.2⟩) fun _ => ?_
      refine Triple.bind (dial_bridged env canBackfill config _ state dict) fun attempt => ?_
      split
      · exact Triple.pure fun _ h => ⟨h.1.toOrderly, h.2⟩
      · exact hagain
      · refine Triple.bind (recoverDict_bridged env canBackfill _ dict) fun answer => ?_
        split
        · exact Triple.pure fun _ h => ⟨h.1.toOrderly, h.2⟩
        · exact hagain
      · refine Triple.bind (session_bridged env canBackfill config) fun left => ?_
        obtain ⟨outcome, state, dict⟩ := left
        cases outcome with
        | stop => exact Triple.pure fun _ h => ⟨h.1.toOrderly, h.2⟩
        | reconnect cause => exact hagain

theorem runLive_bridged :
  Triple (Bridged canBackfill (Sequences start (initialLastSeq config.cursor) []))
    (runLive env canBackfill config fuel)
    fun _ => Bridged canBackfill (Orderly (fun _ => True) start)
  := by
  have htail := @tail_bridged E ε _ env start canBackfill config fuel
    { lastSeq := initialLastSeq config.cursor, seenAny := false }
  refine Triple.ite (fun _ => ?_) fun _ => htail
  refine Triple.bind (ask_bridged canBackfill _ _) fun answer => ?_
  split
  · exact Triple.pure fun _ h => ⟨h.1.toOrderly, h.2⟩
  · exact htail

end Environment

/-! ### Runs -/

section Environment

variable (env : Environment E ε) (config : EngineConfig E ε) {start : ℕ}

omit [Sequenced E] in
/-- Where a live phase starts to accept events, nothing has been delivered yet. -/
theorem processed_le_cutover {canBackfill : Bool} {s : State E ε}
    (h : canBackfill = false → s.lastProcessedSeq = 0) :
  s.lastProcessedSeq ≤ initialLastSeq (cutover config canBackfill s).cursor
  := by
  rw [cutover]
  cases canBackfill with
  | true =>
      rw [if_pos rfl]
      dsimp only [initialLastSeq]
      omega
  | false =>
      rw [h rfl]
      exact Nat.zero_le _

variable {fuel after maxBatch maxPlanPages : ℕ}

theorem livePhase_bridged {canBackfill : Bool} :
  Triple (fun s => InOrder start s ∧
      (canBackfill = false → s.lastProcessedSeq = 0))
    (livePhase env config canBackfill fuel)
    fun _ => Bridged canBackfill (Orderly (fun _ => True) start)
  := by
  refine Triple.bind_get fun s h => ?_
  refine Triple.bind (Q := fun _ => Bridged canBackfill
    (Sequences start (initialLastSeq (cutover config canBackfill s).cursor) [])) ?_ fun _ => ?_
  · refine Triple.modify fun s' hs' => ⟨?_, fun h => (by cases h)⟩
    subst hs'
    exact Holding.of_orderly h.1 (processed_le_cutover config h.2)
  · split
    · exact Triple.pure fun _ h => ⟨h.1.toOrderly, h.2⟩
    · exact Triple.bind (runLive_bridged env canBackfill _) fun _ => Triple.pure fun _ h => h

theorem replaySweep_orderly {P : E → Prop} {T : ℕ → Prop}
    {before : Option ℕ} (hsupplies : ∀ after tip, T tip → Supplies env P after tip) :
  Triple (fun s => OnLog (Orderly P start) s ∧ s.lastProcessedSeq ≤ after ∧
      Tips env T (PlanSweep.new after before maxPlanPages) (s.clock + 1))
    (replaySweep env maxBatch maxPlanPages after before) fun _ => OnLog (Orderly P start)
  := (replayPages_orderly env hsupplies).strengthen
    fun _ h => ⟨Holding.of_orderly h.1 h.2.1, h.2.2⟩

/-- An archive phase delivers in order, and does nothing without an archive. -/
theorem archivePhase_orderly {archive : Option ℕ} :
  Triple (fun s => InOrder start s ∧ s.lastProcessedSeq ≤ after ∧
      (archive.isSome = false → s.lastProcessedSeq = 0))
    (archivePhase env config archive after)
    fun _ s => InOrder start s ∧
      (archive.isSome = false → s.lastProcessedSeq = 0)
  := by
  cases archive with
  | none => exact Triple.pure fun _ h => ⟨h.1, h.2.2⟩
  | some maxPlanPages =>
      refine Triple.bind (Q := fun _ => InOrder start) ?_ fun left => ?_
      · refine (replaySweep_orderly env (T := fun _ => True) ?_).strengthen fun _ h => ⟨h.1, h.2.1, ?_⟩
        · exact fun _ _ _ _ _ _ _ _ _ _ _ => trivial
        · exact fun _ _ _ _ => trivial
      · have hend : ∀ s : State E ε, InOrder start s →
            InOrder start s ∧
              ((some maxPlanPages).isSome = false → s.lastProcessedSeq = 0) :=
          fun s h => ⟨h, fun hsome => (by cases hsome)⟩
        split
        · exact Triple.pure hend
        · exact Triple.pure hend
        · exact Triple.ite (fun _ => Triple.pure hend) fun _ => Triple.pure hend

/-- The cycles of archive and live phase deliver in order. -/
theorem cycles_orderly {archive : Option ℕ} :
  ∀ {fuel after : ℕ} {prev : Progress},
    Triple (fun s => InOrder start s ∧ s.lastProcessedSeq ≤ after ∧
        (archive.isSome = false → s.lastProcessedSeq = 0))
      (cycles env config archive fuel after prev)
      fun _ => InOrder start
  | 0, _, _ => Triple.pure fun _ h => h.1
  | fuel + 1, after, prev => by
      rw [cycles]
      refine Triple.bind (Q := fun _ s => InOrder start s ∧
          s.lastProcessedSeq ≤ after ∧ (archive.isSome = false → s.lastProcessedSeq = 0))
        (fun _ h => h) fun cancelled => ?_
      refine Triple.ite (fun _ => Triple.pure fun _ h => h.1) fun _ => ?_
      refine Triple.bind (archivePhase_orderly env config) fun left => ?_
      split
      · exact Triple.pure fun _ h => h.1
      · exact Triple.pure fun _ h => h.1
      · refine Triple.bind (Q := fun _ s => InOrder start s ∧
            (archive.isSome = false → s.lastProcessedSeq = 0)) (fun _ h => h) fun cancelled => ?_
        refine Triple.ite (fun _ => Triple.pure fun _ h => h.1) fun _ => ?_
        refine Triple.bind (livePhase_bridged env config) fun left => ?_
        split
        · exact Triple.pure fun _ h => h.1
        · exact Triple.pure fun _ h => h.1
        · exact Triple.pure fun _ h => h.1
        · refine Triple.bind_get fun s h => ?_
          split
          · exact Triple.pure fun _ hs => hs ▸ h.1
          · exact Triple.pure fun _ hs => hs ▸ h.1
          · exact Triple.pure fun _ hs => hs ▸ h.1
          · rename_i hout
            split
            · exact Triple.pure fun _ hs => hs ▸ h.1
            · refine cycles_orderly.strengthen fun s' hs' => ?_
              subst hs'
              refine ⟨h.1, le_max_left .., fun hnone => ?_⟩
              rw [h.2 hout] at hnone
              cases hnone

/-- A run delivers in order. -/
theorem engineRun_orderly (archive : Option ℕ) (fuel : ℕ) :
  InOrder config.afterSeq (engineRun env config archive fuel config.start).2
  := by
  have hstart : InOrder config.afterSeq config.start :=
    Orderly.nil _ config.afterSeq
  have hrun : Triple (fun s => s = config.start) (engineRun env config archive fuel)
      fun _ => InOrder config.afterSeq := by
    rw [engineRun]
    split
    · exact Triple.pure fun s hs => hs ▸ hstart
    · refine Triple.ite (fun _ => Triple.pure fun s hs => hs ▸ hstart) fun hguard => ?_
      refine (cycles_orderly env config).strengthen fun s hs => ?_
      subst hs
      refine ⟨hstart, le_rfl, fun hnone => ?_⟩
      have harchive : archive.isNone = true := by
        cases archive with
        | none => rfl
        | some _ => cases hnone
      by_contra hafter
      exact hguard ⟨harchive, .inr (.inl hafter)⟩
  exact hrun config.start rfl

/-- At every moment of every run of the engine, the delivered events increase strictly, all
of them lie above the lower bound of the archive window, and the processed counter is the
larger of that bound and the last delivered sequence. -/
theorem run_ordered (archive : Option ℕ) (fuel : ℕ) :
  (∀ log, log <+: runLog env config archive fuel → Ordered config.afterSeq log) ∧
    (engineRun env config archive fuel config.start).2.lastProcessedSeq
      = highest config.afterSeq (delivered (runLog env config archive fuel))
  := by
  have h := engineRun_orderly env config archive fuel
  exact ⟨h.ordered, h.processed_eq_highest⟩

end Environment

end Shrike.Jetstream
