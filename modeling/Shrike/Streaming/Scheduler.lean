import Shrike.Data.Assoc

/-!
# A keyed scheduler

A pool of workers that runs units of work of different keys at once, and units of the same key
one after another in the order of their arrival. A unit that arrives while a worker has its key
joins the queue of the key, which may evict the oldest unit of it.
-/

namespace Shrike.Streaming

/-- What a worker does: wait, run a unit, send the result of a unit, or look into the queue of the
key it has. -/
inductive Worker (K W R : Type) where
  | idle
  | running (key : K) (work : W)
  | sending (key : K) (result : R)
  | draining (key : K)

/-- The scheduler: the queues of the keys that a worker has, the units that no worker has taken
yet, the workers, and the results that were not received yet. The workers end only when the
scheduler is dropped. -/
structure Scheduler (K W R : Type) where
  keyQueueCap : ℕ
  resultCapacity : ℕ
  closed : Bool
  active : List (K × List W)
  feeder : List (K × W)
  workers : List (Worker K W R)
  results : List R

/-- What became of a unit that was submitted: it was accepted, or it was accepted and the oldest
of its queue was evicted, or it was not accepted. -/
inductive AddOutcome (W : Type) where
  | queued
  | dropped (oldest : W)
  | shuttingDown (work : W)

namespace Scheduler

variable {K W R : Type} [DecidableEq K]

omit [DecidableEq K] in
/-- A scheduler with at least one worker. -/
def new (workers keyQueueCap resultCapacity : ℕ) : Scheduler K W R where
  keyQueueCap := keyQueueCap
  resultCapacity := max resultCapacity 1
  closed := false
  active := []
  feeder := []
  workers := List.replicate (max workers 1) .idle
  results := []

/-- Submit a unit. -/
def addWork (s : Scheduler K W R) (key : K) (work : W) : AddOutcome W × Scheduler K W R :=
  if s.closed then (.shuttingDown work, s)
  else match s.active.lookup key with
    | none =>
        (.queued, { s with active := (key, []) :: s.active, feeder := s.feeder ++ [(key, work)] })
    | some [] => (.queued, { s with active := s.active.replaceEntry key [work] })
    | some (oldest :: queue) =>
        if 0 < s.keyQueueCap ∧ s.keyQueueCap ≤ queue.length + 1 then
          (.dropped oldest, { s with active := s.active.replaceEntry key (queue ++ [work]) })
        else (.queued, { s with active := s.active.replaceEntry key (oldest :: queue ++ [work]) })

/-- A worker goes from one state to another. -/
def setWorker (s : Scheduler K W R) (before after : List (Worker K W R))
    (worker : Worker K W R) : Scheduler K W R :=
  { s with workers := before ++ worker :: after }

/-- One step of a worker, where a unit can have the results that `run` allows: it takes a unit,
finishes it, sends the result once there is room for it, and then goes on with the queue of the
key, or gives up the key if the queue is empty. -/
inductive Step (run : W → R → Prop) : Scheduler K W R → Scheduler K W R → Prop where
  | take {s : Scheduler K W R} {before after key work rest}
      (workers : s.workers = before ++ .idle :: after)
      (feeder : s.feeder = (key, work) :: rest) :
      Step run s ({ s with feeder := rest }.setWorker before after (.running key work))
  | finish {s : Scheduler K W R} {before after key work result}
      (workers : s.workers = before ++ .running key work :: after)
      (ran : run work result) : Step run s (s.setWorker before after (.sending key result))
  | send {s : Scheduler K W R} {before after key result}
      (workers : s.workers = before ++ .sending key result :: after)
      (room : s.results.length < s.resultCapacity) :
      Step run s
        ({ s with results := s.results ++ [result] }.setWorker before after (.draining key))
  | drain {s : Scheduler K W R} {before after key work queue}
      (workers : s.workers = before ++ .draining key :: after)
      (active : s.active.lookup key = some (work :: queue)) :
      Step run s ({ s with active := s.active.replaceEntry key queue }.setWorker before after
        (.running key work))
  | release {s : Scheduler K W R} {before after key}
      (workers : s.workers = before ++ .draining key :: after)
      (active : (s.active.lookup key).getD [] = []) :
      Step run s ({ s with active := s.active.eraseP fun entry => entry.1 = key }.setWorker before
        after .idle)

/-! ### What holds of every unit -/

/-- What holds of the unit or the result that a worker has. -/
def WorkerHolds (P : W → Prop) (Q : R → Prop) : Worker K W R → Prop
  | .running _ work => P work
  | .sending _ result => Q result
  | .idle => True
  | .draining _ => True

/-- A property of every unit and one of every result. -/
structure Holds (P : W → Prop) (Q : R → Prop) (s : Scheduler K W R) : Prop where
  active : ∀ entry ∈ s.active, ∀ work ∈ entry.2, P work
  feeder : ∀ entry ∈ s.feeder, P entry.2
  workers : ∀ worker ∈ s.workers, WorkerHolds P Q worker
  results : ∀ result ∈ s.results, Q result

variable {P P' : W → Prop} {Q Q' : R → Prop} {s s' : Scheduler K W R}

omit [DecidableEq K] in
theorem new_holds (workers keyQueueCap resultCapacity : ℕ) :
  (new workers keyQueueCap resultCapacity : Scheduler K W R).Holds P Q
  := by
  refine ⟨by simp [new], by simp [new], ?_, by simp [new]⟩
  intro worker hworker
  obtain rfl := List.eq_of_mem_replicate hworker
  trivial

omit [DecidableEq K] in
theorem Holds.mono (h : s.Holds P Q) (hP : ∀ work, P work → P' work)
    (hQ : ∀ result, Q result → Q' result) :
  s.Holds P' Q'
  := by
  refine ⟨?_, ?_, ?_, ?_⟩
  · intro entry hentry work hwork
    apply hP work (h.active entry hentry work hwork)
  · intro entry hentry
    apply hP entry.2 (h.feeder entry hentry)
  · intro worker hworker
    have hholds := h.workers worker hworker
    cases worker with
    | idle => trivial
    | running key work => apply hP work hholds
    | sending key result => apply hQ result hholds
    | draining key => trivial
  · intro result hresult
    apply hQ result (h.results result hresult)

omit [DecidableEq K] in
theorem Holds.setWorker {before after : List (Worker K W R)} {worker : Worker K W R}
    (h : s.Holds P Q) (worker' : Worker K W R)
    (hworkers : s.workers = before ++ worker :: after) (hworker : WorkerHolds P Q worker') :
  (s.setWorker before after worker').Holds P Q
  := by
  refine ⟨h.active, h.feeder, ?_, h.results⟩
  intro w hw
  rcases List.mem_append.mp hw with hw | hw
  · apply h.workers w
    simp [hworkers, hw]
  · rcases List.mem_cons.mp hw with rfl | hw
    · exact hworker
    · apply h.workers w
      simp [hworkers, hw]

/-- What holds of a key's new queue and of all other queues holds of all queues. -/
theorem Holds.replaceEntry {key : K} {queue : List W} (h : s.Holds P Q)
    (hqueue : ∀ work ∈ queue, P work) :
  { s with active := s.active.replaceEntry key queue }.Holds P Q
  := by
  refine ⟨?_, h.feeder, h.workers, h.results⟩
  intro entry hentry
  rcases List.mem_of_mem_replaceEntry hentry with rfl | hentry
  · exact hqueue
  · apply h.active entry hentry

/-- What holds of every unit holds of a queue that a lookup finds. -/
theorem Holds.lookup {key : K} {queue : List W} (h : s.Holds P Q)
    (hlookup : s.active.lookup key = some queue) :
  ∀ work ∈ queue, P work
  := h.active _ (List.mem_of_lookup hlookup)

/-- Submitting a unit keeps what holds of every unit, and an evicted unit is one of them. -/
theorem Holds.addWork {work : W} (h : s.Holds P Q) (key : K) (hwork : P work) :
  (s.addWork key work).2.Holds P Q
    ∧ ∀ oldest, (s.addWork key work).1 = .dropped oldest → P oldest
  := by
  rw [Scheduler.addWork]
  split_ifs
  · exact ⟨h, by simp⟩
  · split
    · refine ⟨⟨?_, ?_, h.workers, h.results⟩, by simp⟩
      · intro entry hentry
        rcases List.mem_cons.mp hentry with rfl | hentry
        · simp
        · apply h.active entry hentry
      · intro entry hentry
        rcases List.mem_append.mp hentry with hentry | hentry
        · apply h.feeder entry hentry
        · obtain rfl := List.mem_singleton.mp hentry
          exact hwork
    · refine ⟨h.replaceEntry ?_, by simp⟩
      simpa using hwork
    · rename_i oldest queue hlookup
      have hqueue := h.lookup hlookup
      rw [List.forall_mem_cons] at hqueue
      split_ifs
      · refine ⟨h.replaceEntry ?_, ?_⟩
        · rw [List.forall_mem_append]
          exact ⟨hqueue.2, by simpa using hwork⟩
        · rintro _ ⟨⟩
          exact hqueue.1
      · refine ⟨h.replaceEntry ?_, by simp⟩
        rw [List.forall_mem_append, List.forall_mem_cons]
        exact ⟨hqueue, by simpa using hwork⟩

theorem addWork_closed (s : Scheduler K W R) (key : K) (work : W) :
  (s.addWork key work).2.closed = s.closed
  := by
  rw [addWork]
  split_ifs
  · rfl
  · split
    · rfl
    · rfl
    · split_ifs <;> rfl

/-- A scheduler that is open accepts every unit. -/
theorem addWork_of_open (key : K) (work : W) (h : s.closed = false) (w : W) :
  (s.addWork key work).1 ≠ .shuttingDown w
  := by
  rw [addWork, h, if_neg (by simp)]
  split
  · simp
  · simp
  · split_ifs <;> simp

/-- The workers keep what holds of every unit and of every result. -/
theorem Step.holds {run : W → R → Prop} (hrun : ∀ work result, P work → run work result → Q result)
    (h : s.Holds P Q) (hstep : Step run s s') :
  s'.Holds P Q
  := by
  cases hstep with
  | @take before after key work rest workers feeder =>
      have hfeeder := h.feeder
      rw [feeder, List.forall_mem_cons] at hfeeder
      have htaken : { s with feeder := rest }.Holds P Q :=
        ⟨h.active, hfeeder.2, h.workers, h.results⟩
      apply htaken.setWorker (.running key work) workers hfeeder.1
  | @finish before after key work result workers ran =>
      have hwork : P work := by
        apply h.workers (.running key work)
        simp [workers]
      apply h.setWorker (.sending key result) workers (hrun work result hwork ran)
  | @send before after key result workers =>
      have hresult : Q result := by
        apply h.workers (.sending key result)
        simp [workers]
      have hsent : { s with results := s.results ++ [result] }.Holds P Q := by
        refine ⟨h.active, h.feeder, h.workers, ?_⟩
        rw [List.forall_mem_append]
        exact ⟨h.results, by simpa using hresult⟩
      apply hsent.setWorker (.draining key) workers trivial
  | @drain before after key work queue workers active =>
      have hqueue := h.lookup active
      rw [List.forall_mem_cons] at hqueue
      apply (h.replaceEntry hqueue.2).setWorker (.running key work) workers hqueue.1
  | @release before after key workers =>
      have hreleased :
          { s with active := s.active.eraseP fun entry => entry.1 = key }.Holds P Q := by
        refine ⟨?_, h.feeder, h.workers, h.results⟩
        intro entry hentry
        apply h.active entry (List.mem_of_mem_eraseP hentry)
      apply hreleased.setWorker .idle workers trivial

theorem Step.closed {run : W → R → Prop} (hstep : Step run s s') :
  s'.closed = s.closed
  := by
  cases hstep <;> rfl

end Scheduler

end Shrike.Streaming
