import Mathlib.Algebra.GroupWithZero.Nat
import Shrike.Streaming.Keyed

/-!
# Settling

The workers of a scheduler that nothing is submitted to anymore come to an end, and then they have
done with every unit that was accepted.
-/

namespace Shrike.Streaming

variable {K W R : Type} [DecidableEq K]

omit [DecidableEq K] in
/-- How many steps a worker may still take with the unit that it has. -/
def Worker.load : Worker K W R → ℕ
  | .idle => 0
  | .draining _ => 1
  | .sending _ _ => 3
  | .running _ _ => 4

namespace Scheduler

omit [DecidableEq K] in
/-- How many steps the workers and the receiver may still take. -/
def load (s : Scheduler K W R) : ℕ :=
  4 * (s.active.map fun entry => entry.2.length).sum + 5 * s.feeder.length
    + (s.workers.map Worker.load).sum + s.results.length

section

variable {run : W → R → Prop} {s s' : Scheduler K W R} {action : Action K W R}
  {actions : List (Action K W R)}

variable {key : K}

theorem sum_replaceEntry {active : List (K × List W)} {queue : List W}
    (h : active.lookup key = some queue) (queue' : List W) :
  ((active.replaceEntry key queue').map fun entry => entry.2.length).sum + queue.length
    = (active.map fun entry => entry.2.length).sum + queue'.length
  := by
  induction active with
  | nil => cases h
  | cons entry active ih =>
      rw [List.lookup_cons] at h
      by_cases hkey : entry.1 = key
      · rw [hkey, beq_self_eq_true] at h
        cases h
        rw [List.replaceEntry, if_pos (by simpa using hkey)]
        simp only [List.map_cons, List.sum_cons]
        omega
      · rw [beq_false_of_ne (Ne.symm hkey)] at h
        rw [List.replaceEntry, if_neg (by simpa using hkey)]
        simp only [List.map_cons, List.sum_cons]
        have hrest := ih h
        omega

omit [DecidableEq K] in
theorem sum_eraseP (active : List (K × List W)) (p : K × List W → Bool) :
  ((active.eraseP p).map fun entry => entry.2.length).sum
    ≤ (active.map fun entry => entry.2.length).sum
  := by
  induction active with
  | nil => rfl
  | cons entry active ih =>
      rw [List.eraseP_cons]
      cases p entry with
      | true => exact Nat.le_add_left _ _
      | false => exact Nat.add_le_add_left ih _

/-- Each step but a submission leaves less to do. -/
theorem Acts.load_lt (h : Acts run s action s') (hsubmit : action.isSubmission = false) :
  s'.load < s.load
  := by
  cases h with
  | @addWork key work isOpen =>
      rcases addWork_cases isOpen key work with ⟨-, haction, -⟩ | ⟨queue, -, haction, -⟩
          | ⟨oldest, queue, -, haction, -⟩ <;>
        rw [haction] at hsubmit <;> cases hsubmit
  | take workers feeder =>
      simp only [load, setWorker, workers, feeder, List.map_append, List.map_cons, List.sum_append,
        List.sum_cons, Worker.load, List.length_cons]
      omega
  | finish workers ran =>
      simp only [load, setWorker, workers, List.map_append, List.map_cons, List.sum_append,
        List.sum_cons, Worker.load]
      omega
  | send workers room =>
      simp only [load, setWorker, workers, List.map_append, List.map_cons, List.sum_append,
        List.sum_cons, Worker.load, List.length_append, List.length_singleton]
      omega
  | @drain before after key work queue workers active =>
      have hsum := sum_replaceEntry active queue
      rw [List.length_cons] at hsum
      simp only [load, setWorker, workers, List.map_append, List.map_cons, List.sum_append,
        List.sum_cons, Worker.load]
      omega
  | @release before after key workers active =>
      have hsum := sum_eraseP s.active fun entry => entry.1 = key
      simp only [load, setWorker, workers, List.map_append, List.map_cons, List.sum_append,
        List.sum_cons, Worker.load]
      omega
  | receive results =>
      simp only [load, results, List.length_cons]
      omega

variable {start : Scheduler K W R}

/-- As many steps as there is to do are taken at most when nothing is submitted. -/
theorem Run.length_le (h : Run run start actions s)
    (hsubmit : ∀ action ∈ actions, action.isSubmission = false) :
  actions.length + s.load ≤ start.load
  := by
  induction h with
  | nil => simp
  | snoc _ hacts ih =>
      rw [List.forall_mem_append, List.forall_mem_singleton] at hsubmit
      have hbefore := ih hsubmit.1
      have hlt := hacts.load_lt hsubmit.2
      rw [List.length_append, List.length_singleton]
      omega

/-- A scheduler in which nobody can go on has nothing left to do. -/
theorem Invariant.quiet (h : Invariant run actions s) (hrun : ∀ work, ∃ result, run work result)
    (hquiet : ∀ action s', Acts run s action s' → action.isSubmission = true) :
  s.feeder = [] ∧ s.results = [] ∧ ∀ worker ∈ s.workers, worker = .idle
  := by
  have hstuck : ∀ {action s'}, action.isSubmission = false → ¬ Acts run s action s' := by
    intro action s' hsubmit hacts
    rw [hquiet action s' hacts] at hsubmit
    cases hsubmit
  have hresults : s.results = [] := by
    cases hresults : s.results with
    | nil => rfl
    | cons result rest => exact absurd (.receive hresults) (hstuck rfl)
  have hidle : ∀ worker ∈ s.workers, worker = .idle := by
    intro worker hworker
    obtain ⟨before, after, hworkers⟩ := List.append_of_mem hworker
    cases worker with
    | idle => rfl
    | running key work =>
        obtain ⟨result, hran⟩ := hrun work
        exact absurd (.finish hworkers hran) (hstuck rfl)
    | sending key result =>
        have hroom : s.results.length < s.resultCapacity := by
          rw [hresults]
          exact h.room
        exact absurd (.send hworkers hroom) (hstuck rfl)
    | draining key =>
        rcases hlookup : s.active.lookup key with _ | _ | ⟨work, queue⟩
        · exact absurd (.release hworkers (by rw [hlookup]; rfl)) (hstuck rfl)
        · exact absurd (.release hworkers (by rw [hlookup]; rfl)) (hstuck rfl)
        · exact absurd (.drain hworkers hlookup) (hstuck rfl)
  have hfeeder : s.feeder = [] := by
    cases hfeeder : s.feeder with
    | nil => rfl
    | cons entry rest =>
        obtain ⟨worker, hworker⟩ := List.exists_mem_of_ne_nil _ h.workers
        obtain ⟨before, after, hworkers⟩ := List.append_of_mem hworker
        rw [hidle worker hworker] at hworkers
        exact absurd (.take hworkers hfeeder) (hstuck rfl)
  exact ⟨hfeeder, hresults, hidle⟩

/-- Every unit that was accepted is done with when nobody can go on. -/
theorem Invariant.settled (h : Invariant run actions s) (hrun : ∀ work, ∃ result, run work result)
    (hquiet : ∀ action s', Acts run s action s' → action.isSubmission = true) (key : K) :
  ∀ t ∈ ledger actions key, t.Settled run
  := by
  obtain ⟨hfeeder, -, hidle⟩ := h.quiet hrun hquiet
  obtain ⟨settled, current, evicted, hkeeps, -⟩ := h.keys key
  have hheads : s.heads key = [] := by
    rw [heads, hfeeder]
    rfl
  have hholders : s.holders key = [] := by
    rw [holders, List.filter_eq_nil_iff]
    intro worker hworker
    rw [hidle worker hworker]
    simp [Worker.key?]
  have howned := hkeeps.owned
  rw [hkeeps.tickets]
  cases howned with
  | dispatched _ heads => simp [hheads] at heads
  | running _ _ holders => simp [hholders] at holders
  | sending _ _ holders => simp [hholders] at holders
  | draining _ _ holders => simp [hholders] at holders
  | free active _ _ =>
      rw [queue, active, Option.getD_none, List.map_nil, List.append_nil, List.nil_append]
      exact hkeeps.settled_append

/-! ### Units of one key -/

/-- What is known of the units of a key after a run: at most one worker has the key, which is active
exactly while one does or its first unit waits for one; the tickets of the key say what the run did
to its units, and those of an earlier moment have only moved on; and what is evicted is the first
unit that is in the queue of the key. -/
structure InOrder (run : W → R → Prop) (actions : List (Action K W R)) (s : Scheduler K W R)
    (key : K) : Prop where
  exclusive : (s.holders key).length ≤ 1
  active : (s.active.lookup key).isSome
    ↔ (∃ work, (key, work) ∈ s.feeder) ∨ ∃ worker ∈ s.workers, worker.key? = some key
  kept : ∃ settled current evicted,
    Keeps run s key (ledger actions key) settled current evicted
  reads : Reads key actions (ledger actions key)
  follows : ∀ earlier later, actions = earlier ++ later →
    Follows (ledger earlier key) (ledger actions key)
  evicts : ∀ earlier later work oldest, actions = earlier ++ .evict key work oldest :: later →
    ∃ before after : List (Ticket W R),
      (∀ t ∈ before, t.fate.isQueued = false)
      ∧ ledger earlier key = before ++ .inQueue oldest :: after
      ∧ ledger (earlier ++ [.evict key work oldest]) key
        = before ++ ⟨oldest, .dropped⟩ :: (after ++ [.inQueue work])

/-- A run goes through the state after any of its first steps. -/
theorem Run.split {more : List (Action K W R)} (h : Run run start (actions ++ more) s) :
  ∃ middle, Run run start actions middle ∧ Run run middle more s
  := by
  induction more using List.reverseRecOn generalizing s with
  | nil =>
      rw [List.append_nil] at h
      exact ⟨s, h, .nil⟩
  | append_singleton more action ih =>
      rw [← List.append_assoc] at h
      generalize hall : actions ++ more ++ [action] = all at h
      cases h with
      | nil => simp at hall
      | snoc before acts =>
          obtain ⟨hbefore, hlast⟩ := List.append_inj' hall rfl
          cases hlast
          obtain ⟨middle, hfirst, hrest⟩ := ih (hbefore ▸ before)
          exact ⟨middle, hfirst, hrest.snoc acts⟩

theorem Run.append {more : List (Action K W R)}
    (h : Run run start actions s) (h' : Run run s more s') :
  Run run start (actions ++ more) s'
  := by
  induction h' with
  | nil =>
      rw [List.append_nil]
      exact h
  | snoc _ acts ih =>
      rw [← List.append_assoc]
      exact ih.snoc acts

theorem Run.last (h : Run run start (actions ++ [action]) s') :
  ∃ s, Run run start actions s ∧ Acts run s action s'
  := by
  generalize hall : actions ++ [action] = all at h
  cases h with
  | nil => simp at hall
  | @snoc _ _ s _ before acts =>
      obtain ⟨rfl, hlast⟩ := List.append_inj' hall rfl
      cases hlast
      exact ⟨s, before, acts⟩

/-- A unit is evicted only from a queue that starts with it. -/
theorem Acts.evicted {work oldest : W} (h : Acts run s (.evict key work oldest) s') :
  ∃ rest, s.queue key = oldest :: rest
  := by
  generalize haction : Action.evict key work oldest = action at h
  cases h with
  | @addWork key' work' isOpen =>
      rcases addWork_cases isOpen key' work' with ⟨-, hsubmit, -⟩ | ⟨queue, -, hsubmit, -⟩
          | ⟨oldest', queue, hactive, hsubmit, -⟩
      · rw [hsubmit] at haction
        cases haction
      · rw [hsubmit] at haction
        cases haction
      · rw [hsubmit] at haction
        cases haction
        use queue
        rw [Scheduler.queue, hactive, Option.getD_some]
  | _ => cases haction

/-- The ticket of a unit that is evicted is the first one of its key in the queue. -/
theorem Invariant.evicts (h : Invariant run actions s) {work oldest : W}
    (hacts : Acts run s (.evict key work oldest) s') :
  ∃ before after : List (Ticket W R),
    (∀ t ∈ before, t.fate.isQueued = false)
    ∧ ledger actions key = before ++ .inQueue oldest :: after
    ∧ ledger (actions ++ [.evict key work oldest]) key
      = before ++ ⟨oldest, .dropped⟩ :: (after ++ [.inQueue work])
  := by
  obtain ⟨settled, current, evicted, hkeeps, -⟩ := h.keys key
  obtain ⟨rest, hqueue⟩ := hacts.evicted
  have hbefore : ∀ t ∈ settled ++ (current ++ evicted), t.fate.isQueued = false := by
    rw [List.forall_mem_append, List.forall_mem_append]
    exact ⟨hkeeps.settled_ne (fun _ => rfl) rfl, hkeeps.owned.current_ne, hkeeps.evicted_ne rfl⟩
  have htickets : ledger actions key
      = (settled ++ (current ++ evicted)) ++ .inQueue oldest :: rest.map .inQueue := by
    rw [hkeeps.tickets, hqueue]
    simp
  refine ⟨_, _, hbefore, htickets, ?_⟩
  rw [ledger_snoc, Action.record, Function.update_self, htickets, setFirst_append _ hbefore rfl,
    List.append_assoc, List.cons_append]
  rfl

theorem Invariant.exclusive (h : Invariant run actions s) (key : K) :
  (s.holders key).length ≤ 1
  := by
  obtain ⟨settled, current, evicted, hkeeps, -⟩ := h.keys key
  cases hkeeps.owned with
  | free _ _ holders => simp [holders]
  | dispatched _ _ holders => simp [holders]
  | running _ _ holders => simp [holders]
  | sending _ _ holders => simp [holders]
  | draining _ _ holders => simp [holders]

/-- A key is active exactly while its first unit waits for a worker or a worker has it. -/
theorem Invariant.active_iff (h : Invariant run actions s) (key : K) :
  (s.active.lookup key).isSome
    ↔ (∃ work, (key, work) ∈ s.feeder) ∨ ∃ worker ∈ s.workers, worker.key? = some key
  := by
  obtain ⟨settled, current, evicted, hkeeps, -⟩ := h.keys key
  have hfeeder : (∃ work, (key, work) ∈ s.feeder) ↔ s.heads key ≠ [] := by
    rw [heads, Ne, List.filter_eq_nil_iff]
    simp
  have hworkers : (∃ worker ∈ s.workers, worker.key? = some key) ↔ s.holders key ≠ [] := by
    rw [holders, Ne, List.filter_eq_nil_iff]
    simp
  rw [hfeeder, hworkers]
  cases hkeeps.owned with
  | free active heads holders => simp [active, heads, holders]
  | dispatched active heads holders => simp [active, heads]
  | running active heads holders => simp [active, holders]
  | sending active heads holders => simp [active, holders]
  | draining active heads holders => simp [active, holders]

/-- In every run of a scheduler the units of each key are in order. From any state that it reaches,
the workers and the receiver can take only so many steps without a submission, and when nobody can
go on every unit that was accepted was evicted, or its result was sent. -/
theorem runs_keyed (hrun : ∀ work, ∃ result, run work result)
    {workers keyQueueCap resultCapacity : ℕ}
    (h : Run run (new workers keyQueueCap resultCapacity : Scheduler K W R) actions s) :
  (∀ key, InOrder run actions s key)
  ∧ ∀ more s', Run run s more s' → (∀ action ∈ more, action.isSubmission = false) →
    more.length ≤ s.load
    ∧ ((∀ action s'', Acts run s' action s'' → action.isSubmission = true) →
      ∀ key, ∀ t ∈ ledger (actions ++ more) key, t.Settled run)
  := by
  have hnew : Invariant run [] (new workers keyQueueCap resultCapacity : Scheduler K W R) :=
    new_invariant run workers keyQueueCap resultCapacity
  have hinv := h.invariant hnew
  constructor
  · intro key
    obtain ⟨settled, current, evicted, hkeeps, hreads⟩ := hinv.keys key
    constructor
    case exclusive => exact hinv.exclusive key
    case active => exact hinv.active_iff key
    case kept => exact ⟨settled, current, evicted, hkeeps⟩
    case reads => exact hreads
    case follows =>
      rintro earlier later rfl
      exact ledger_follows earlier later key
    case evicts =>
      intro earlier later work oldest hactions
      rw [List.append_cons] at hactions
      rw [hactions] at h
      obtain ⟨middle, hmiddle, -⟩ := h.split
      obtain ⟨before, hbefore, hacts⟩ := hmiddle.last
      exact (hbefore.invariant hnew).evicts hacts
  · intro more s' hmore hsubmit
    constructor
    · have hle := hmore.length_le hsubmit
      omega
    · intro hquiet key
      exact (h.append hmore).invariant hnew |>.settled hrun hquiet key

end

/-! ### Backpressure -/

/-- The cap on the queues of a scheduler, and that they are within it. -/
structure Bounded (cap : ℕ) (s : Scheduler K W R) : Prop where
  keyQueueCap : s.keyQueueCap = cap
  queues : ∀ entry ∈ s.active, entry.2.length ≤ cap

section

variable {run : W → R → Prop} {s s' : Scheduler K W R} {action : Action K W R}
  {actions : List (Action K W R)} {cap : ℕ}

theorem Bounded.replaceEntry {key : K} {queue : List W} (h : s.Bounded cap)
    (hqueue : queue.length ≤ cap) :
  { s with active := s.active.replaceEntry key queue }.Bounded cap
  := by
  refine { h with queues := fun entry hentry => ?_ }
  rcases List.mem_of_mem_replaceEntry hentry with rfl | hentry
  · exact hqueue
  · exact h.queues entry hentry

theorem Acts.bounded (h : Acts run s action s') (hcap : 0 < cap) (hb : s.Bounded cap) :
  s'.Bounded cap
  := by
  cases h with
  | @addWork key work =>
      obtain rfl := hb.keyQueueCap
      rw [Scheduler.addWork]
      split_ifs
      · exact hb
      · split
        · exact { hb with queues := List.forall_mem_cons.mpr ⟨hcap.le, hb.queues⟩ }
        · exact hb.replaceEntry hcap
        · rename_i oldest queue hlookup
          have hfits := hb.queues _ (List.mem_of_lookup hlookup)
          rw [List.length_cons] at hfits
          split_ifs <;> apply hb.replaceEntry <;> simp <;> omega
  | drain _ active =>
      have hfits := hb.queues _ (List.mem_of_lookup active)
      exact { hb.replaceEntry ((Nat.le_succ _).trans hfits) with }
  | release =>
      exact { hb with queues := fun entry hentry => hb.queues entry (List.mem_of_mem_eraseP hentry) }
  | _ => exact { hb with }

omit [DecidableEq K] in
theorem length_of_settled {tickets : List (Ticket W R)} (h : ∀ t ∈ tickets, t.Settled run) :
  tickets.length = (tickets.filterMap Ticket.sent?).length
    + (tickets.filterMap Ticket.dropped?).length
  := by
  induction tickets with
  | nil => rfl
  | cons t tickets ih =>
      rw [List.forall_mem_cons] at h
      rcases h.1 with ⟨result, hfate, -⟩ | hfate <;>
        simp [Ticket.sent?, Ticket.dropped?, hfate, ih h.2] <;> omega

/-- In every run of a scheduler with a cap on its queues, the units in the queue of a key are the
newest that were accepted, and all but as many as the cap and one have had their results sent, or
were evicted. -/
theorem runs_bounded {workers keyQueueCap resultCapacity : ℕ} (hcap : 0 < keyQueueCap)
    (h : Run run (new workers keyQueueCap resultCapacity : Scheduler K W R) actions s) (key : K) :
  s.queue key <:+ actions.filterMap (Action.accepted? key)
    ∧ (actions.filterMap (Action.accepted? key)).length
      ≤ (actions.filterMap (Action.sent? key)).length
        + (actions.filterMap (Action.dropped? key)).length + keyQueueCap + 1
  := by
  have hbounded : s.Bounded keyQueueCap := by
    generalize hstart : new workers keyQueueCap resultCapacity = start at h
    induction h with
    | nil => exact hstart ▸ ⟨rfl, fun _ hentry => by cases hentry⟩
    | snoc _ hacts ih => exact hacts.bounded hcap ih
  obtain ⟨settled, current, evicted, hkeeps, hreads⟩ := (h.invariant (new_invariant ..)).keys key
  obtain ⟨haccepted, -, hsent, hdropped⟩ := hkeeps.reads.mp hreads
  have hsettled := length_of_settled hkeeps.settled
  have hcurrent : current.length ≤ 1 := by cases hkeeps.owned <;> simp
  have hqueue : (s.queue key).length ≤ keyQueueCap := by
    rw [queue]
    rcases hlookup : s.active.lookup key with _ | waiting
    · exact hcap.le
    · exact hbounded.queues _ (List.mem_of_lookup hlookup)
  rw [haccepted, hsent, hdropped]
  constructor
  · rw [← List.append_assoc, ← List.append_assoc]
    apply List.suffix_append
  · simp only [List.length_append, List.length_map]
    omega

end

/-! ### A unit that is run -/

namespace ThreeUnits

/-- A unit is its own result. -/
def echo (work result : ℕ) : Prop := result = work

/-- A unit was taken by a worker and run. Meanwhile a second one joined the queue of its key, from
which a third one evicted it. -/
def actions : List (Action ℕ ℕ ℕ) :=
  [.dispatch 0 7, .take 0 7, .enqueue 0 8, .evict 0 9 8, .finish 0 7 7]

/-- The worker has the first unit. -/
def running (queue : List ℕ) : Scheduler ℕ ℕ ℕ :=
  { (new 1 1 1 : Scheduler ℕ ℕ ℕ) with active := [(0, queue)], workers := [.running 0 7] }

/-- The scheduler before the result is sent. -/
def finished : Scheduler ℕ ℕ ℕ := { running [9] with workers := [.sending 0 7] }

theorem run_finished :
  Run echo (new 1 1 1) actions finished
  := by
  have hsubmit : Acts echo (new 1 1 1) (.dispatch 0 7) _ := .addWork rfl
  have htake := @Acts.take ℕ ℕ ℕ _ echo ((new 1 1 1 : Scheduler ℕ ℕ ℕ).addWork 0 7).2 [] [] 0 7 []
    rfl rfl
  have hjoin : Acts echo (running []) (.enqueue 0 8) (running [8]) :=
    @Acts.addWork ℕ ℕ ℕ _ echo (running []) 0 8 rfl
  have hevict : Acts echo (running [8]) (.evict 0 9 8) (running [9]) :=
    @Acts.addWork ℕ ℕ ℕ _ echo (running [8]) 0 9 rfl
  have hfinish := @Acts.finish ℕ ℕ ℕ _ echo (running [9]) [] [] 0 7 7 rfl rfl
  exact ((((Run.nil.snoc hsubmit).snoc htake).snoc hjoin).snoc hevict).snoc hfinish

/-- The units have been run in order, and what is left to do ends. -/
theorem finished_keyed :
  InOrder echo actions finished 0 ∧ ∀ more s', Run echo finished more s' →
    (∀ action ∈ more, action.isSubmission = false) → more.length ≤ finished.load
  := by
  have hecho : ∀ work, ∃ result, echo work result := fun work => ⟨work, rfl⟩
  obtain ⟨hkeys, hends⟩ := runs_keyed hecho run_finished
  constructor
  · exact hkeys 0
  · intro more s' hmore hsubmit
    exact (hends more s' hmore hsubmit).1

/-- The last unit is in the queue. Of the three that were accepted no result was sent, and one was
evicted. -/
theorem finished_bounded :
  finished.queue 0 <:+ [7, 8, 9] ∧ 3 ≤ 0 + 1 + 1 + 1
  := runs_bounded Nat.one_pos run_finished 0

end ThreeUnits

end Scheduler

end Shrike.Streaming
