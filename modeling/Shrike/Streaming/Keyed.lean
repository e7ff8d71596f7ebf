import Shrike.Streaming.Tickets

/-!
# Units of one key

In every run of the scheduler the units of a key run one at a time in the order of their submission,
each of them once unless it is evicted before it starts, and a key is active exactly while its first
unit waits for a worker or a worker has it.
-/

namespace Shrike.Streaming

variable {K W R : Type} [DecidableEq K]

omit [DecidableEq K] in
/-- The key that a worker has. -/
def Worker.key? : Worker K W R → Option K
  | .idle => none
  | .running key _ | .sending key _ | .draining key => some key

namespace Scheduler

/-- The workers that have a key. -/
def holders (s : Scheduler K W R) (key : K) : List (Worker K W R) :=
  s.workers.filter fun worker => worker.key? = some key

/-- The units of a key that wait for a worker. -/
def heads (s : Scheduler K W R) (key : K) : List (K × W) :=
  s.feeder.filter fun entry => entry.1 = key

/-- The units in the queue of a key. -/
def queue (s : Scheduler K W R) (key : K) : List W := (s.active.lookup key).getD []

/-! ### The owner of a key -/

/-- Who has a key, and the ticket of the unit that it has: nobody, the workers' channel, or a
worker, which has no unit when it looks for the next one. -/
inductive Owned (run : W → R → Prop) (s : Scheduler K W R) (key : K) : List (Ticket W R) → Prop where
  | free (active : s.active.lookup key = none) (heads : s.heads key = [])
      (holders : s.holders key = []) : Owned run s key []
  | dispatched {work : W} (active : (s.active.lookup key).isSome) (heads : s.heads key = [(key, work)])
      (holders : s.holders key = []) : Owned run s key [⟨work, .dispatched⟩]
  | running {work : W} (active : (s.active.lookup key).isSome) (heads : s.heads key = [])
      (holders : s.holders key = [.running key work]) : Owned run s key [⟨work, .running⟩]
  | sending {work : W} {result : R} (active : (s.active.lookup key).isSome)
      (heads : s.heads key = []) (holders : s.holders key = [.sending key result])
      (ran : run work result) : Owned run s key [⟨work, .finished result⟩]
  | draining (active : (s.active.lookup key).isSome) (heads : s.heads key = [])
      (holders : s.holders key = [.draining key]) : Owned run s key []

/-- The tickets of a key: those that are done with, the one of the unit that its owner has, those
that were evicted since the owner has it, and those in the queue of the key. -/
structure Keeps (run : W → R → Prop) (s : Scheduler K W R) (key : K)
    (tickets settled current evicted : List (Ticket W R)) : Prop where
  tickets : tickets = settled ++ (current ++ (evicted ++ (s.queue key).map .inQueue))
  settled : ∀ t ∈ settled, t.Settled run
  evicted : ∀ t ∈ evicted, t.fate = .dropped
  owned : Owned run s key current

/-- Who has a key depends on whether it is active, the units of it that wait for a worker and the
workers that have it. -/
theorem Owned.congr {run : W → R → Prop} {s s' : Scheduler K W R} {key : K}
    {current : List (Ticket W R)} (h : Owned run s key current)
    (hactive : (s'.active.lookup key).isSome = (s.active.lookup key).isSome)
    (hheads : s'.heads key = s.heads key) (hholders : s'.holders key = s.holders key) :
  Owned run s' key current
  := by
  cases h with
  | free active heads holders =>
      apply Owned.free
      · rw [← Option.isNone_iff_eq_none, ← Option.not_isSome, hactive, active]
        rfl
      · rw [hheads, heads]
      · rw [hholders, holders]
  | dispatched active heads holders =>
      apply Owned.dispatched
      · rw [hactive, active]
      · rw [hheads, heads]
      · rw [hholders, holders]
  | running active heads holders =>
      apply Owned.running
      · rw [hactive, active]
      · rw [hheads, heads]
      · rw [hholders, holders]
  | sending active heads holders ran =>
      apply Owned.sending _ _ _ ran
      · rw [hactive, active]
      · rw [hheads, heads]
      · rw [hholders, holders]
  | draining active heads holders =>
      apply Owned.draining
      · rw [hactive, active]
      · rw [hheads, heads]
      · rw [hholders, holders]

/-- What holds of the parts of the state for one key holds of any state with these parts. -/
theorem Keeps.congr {run : W → R → Prop} {s s' : Scheduler K W R} {key : K}
    {tickets settled current evicted : List (Ticket W R)}
    (h : Keeps run s key tickets settled current evicted)
    (hactive : s'.active.lookup key = s.active.lookup key) (hheads : s'.heads key = s.heads key)
    (hholders : s'.holders key = s.holders key) :
  Keeps run s' key tickets settled current evicted
  := by
  constructor
  case tickets =>
    rw [queue, hactive]
    exact h.tickets
  case settled => exact h.settled
  case evicted => exact h.evicted
  case owned => exact h.owned.congr (by rw [hactive]) hheads hholders

section

variable {s : Scheduler K W R} {before after : List (Worker K W R)} {worker worker' : Worker K W R}
  {key : K}

omit [DecidableEq K] in
@[simp]
theorem setWorker_active :
  (s.setWorker before after worker').active = s.active
  := rfl

omit [DecidableEq K] in
@[simp]
theorem setWorker_feeder :
  (s.setWorker before after worker').feeder = s.feeder
  := rfl

@[simp]
theorem setWorker_queue :
  (s.setWorker before after worker').queue key = s.queue key
  := rfl

@[simp]
theorem setWorker_heads :
  (s.setWorker before after worker').heads key = s.heads key
  := rfl

/-- A worker that has the key neither before nor after a step leaves who has the key. -/
theorem holders_setWorker_of_ne (hworkers : s.workers = before ++ worker :: after)
    (hworker : worker.key? ≠ some key) (hworker' : worker'.key? ≠ some key) :
  (s.setWorker before after worker').holders key = s.holders key
  := by
  rw [holders, holders, hworkers, setWorker]
  simp only [List.filter_append, List.filter_cons, hworker, hworker', decide_false,
    Bool.false_eq_true, if_false]

variable {holder : Worker K W R}

/-- A worker that has a key is the only one in the place of which nobody else can be. -/
theorem sole_holder (hworkers : s.workers = before ++ worker :: after)
    (hworker : worker.key? = some key) (hholders : s.holders key = [holder]) :
  worker = holder ∧ (before.filter fun w => w.key? = some key) = []
    ∧ (after.filter fun w => w.key? = some key) = []
  := by
  rw [holders, hworkers, List.filter_append, List.filter_cons, if_pos (by simpa using hworker),
    List.append_eq_singleton_iff] at hholders
  rcases hholders with ⟨hbefore, hafter⟩ | ⟨-, hafter⟩
  · obtain ⟨hsame, hnone⟩ := List.cons_eq_cons.mp hafter
    exact ⟨hsame, hbefore, hnone⟩
  · cases hafter

/-- The holder of a key goes on and keeps it. -/
theorem holders_setWorker_keep (hworkers : s.workers = before ++ worker :: after)
    (hworker : worker.key? = some key) (hholders : s.holders key = [holder])
    (hworker' : worker'.key? = some key) :
  (s.setWorker before after worker').holders key = [worker']
  := by
  obtain ⟨-, hbefore, hafter⟩ := sole_holder hworkers hworker hholders
  rw [holders, setWorker, List.filter_append, List.filter_cons, if_pos (by simpa using hworker'),
    hbefore, hafter, List.nil_append]

/-- The holder of a key gives it up. -/
theorem holders_setWorker_release (hworkers : s.workers = before ++ worker :: after)
    (hworker : worker.key? = some key) (hholders : s.holders key = [holder])
    (hworker' : worker'.key? ≠ some key) :
  (s.setWorker before after worker').holders key = []
  := by
  obtain ⟨-, hbefore, hafter⟩ := sole_holder hworkers hworker hholders
  rw [holders, setWorker, List.filter_append, List.filter_cons, if_neg (by simpa using hworker'),
    hbefore, hafter, List.nil_append]

/-- A worker takes a key that nobody has. -/
theorem holders_setWorker_new (hworkers : s.workers = before ++ worker :: after)
    (hholders : s.holders key = []) (hworker' : worker'.key? = some key) :
  (s.setWorker before after worker').holders key = [worker']
  := by
  rw [holders, hworkers, List.filter_append, List.append_eq_nil_iff, List.filter_cons] at hholders
  obtain ⟨hbefore, hafter⟩ := hholders
  rw [holders, setWorker, List.filter_append, List.filter_cons, if_pos (by simpa using hworker'),
    hbefore, List.nil_append]
  split_ifs at hafter
  rw [hafter]

theorem mem_holders (hworkers : s.workers = before ++ worker :: after)
    (hworker : worker.key? = some key) :
  worker ∈ s.holders key
  := by
  rw [holders, hworkers, List.mem_filter]
  simp [hworker]

end

/-! ### What a step does to a key -/

section

variable {run : W → R → Prop} {s : Scheduler K W R} {before after : List (Worker K W R)} {key : K}
  {tickets settled current evicted : List (Ticket W R)}

theorem Keeps.settled_ne (h : Keeps run s key tickets settled current evicted) {p : Fate R → Bool}
    (hsent : ∀ result, p (.sent result) = false) (hdropped : p .dropped = false) :
  ∀ t ∈ settled, p t.fate = false
  := by
  intro t ht
  rcases h.settled t ht with ⟨result, hfate, -⟩ | hfate
  · rw [hfate, hsent]
  · rw [hfate, hdropped]

theorem Keeps.evicted_ne (h : Keeps run s key tickets settled current evicted) {p : Fate R → Bool}
    (hdropped : p .dropped = false) :
  ∀ t ∈ evicted, p t.fate = false
  := by
  intro t ht
  rw [h.evicted t ht, hdropped]

/-- The units that were evicted before the owner of a key has another unit are done with. -/
theorem Keeps.settled_append (h : Keeps run s key tickets settled current evicted) :
  ∀ t ∈ settled ++ evicted, t.Settled run
  := by
  rw [List.forall_mem_append]
  constructor
  · exact h.settled
  · intro t ht
    right
    apply h.evicted t ht

/-- A key that nobody has is dispatched. -/
theorem Keeps.dispatch (h : Keeps run s key tickets settled current evicted)
    (hfree : s.active.lookup key = none) (work : W) :
  Keeps run { s with active := (key, []) :: s.active, feeder := s.feeder ++ [(key, work)] } key
    (tickets ++ [⟨work, .dispatched⟩]) (settled ++ evicted) [⟨work, .dispatched⟩] []
    ∧ current = []
  := by
  have hqueue : s.queue key = [] := by rw [queue, hfree, Option.getD_none]
  have howned := h.owned
  have htickets := h.tickets
  cases howned with
  | dispatched active => simp [hfree] at active
  | running active => simp [hfree] at active
  | sending active => simp [hfree] at active
  | draining active => simp [hfree] at active
  | free active heads holders =>
      constructor
      · constructor
        case tickets =>
          rw [htickets, hqueue, queue, List.lookup_cons_self]
          simp
        case settled => exact h.settled_append
        case evicted => simp
        case owned =>
          apply Owned.dispatched
          · rw [List.lookup_cons_self, Option.isSome_some]
          · rw [Scheduler.heads] at heads ⊢
            simp [heads]
          · exact holders
      · rfl

variable {queue : List W}

/-- A unit joins the queue of a key. -/
theorem Keeps.enqueue (h : Keeps run s key tickets settled current evicted)
    (hactive : s.active.lookup key = some queue) (work : W) :
  Keeps run { s with active := s.active.replaceEntry key (queue ++ [work]) } key
    (tickets ++ [.inQueue work]) settled current evicted
  := by
  have hlookup := List.lookup_replaceEntry_self hactive (queue ++ [work])
  constructor
  case tickets =>
    rw [h.tickets, Scheduler.queue, Scheduler.queue, hlookup, hactive]
    simp
  case settled => exact h.settled
  case evicted => exact h.evicted
  case owned => exact h.owned.congr (by rw [hlookup, hactive]; rfl) rfl rfl

theorem Owned.current_ne (h : Owned run s key current) :
  ∀ t ∈ current, t.fate.isQueued = false
  := by
  cases h <;> simp [Fate.isQueued]

variable {work oldest : W}

/-- A unit joins the queue of a key, from which the first one is evicted: the first of its units
whose ticket says that it is in the queue. -/
theorem Keeps.evict (h : Keeps run s key tickets settled current evicted)
    (hactive : s.active.lookup key = some (oldest :: queue)) (work : W) :
  Keeps run { s with active := s.active.replaceEntry key (queue ++ [work]) } key
    (setFirst Fate.isQueued (fun _ => .dropped) tickets ++ [.inQueue work]) settled current
    (evicted ++ [⟨oldest, .dropped⟩])
  := by
  have hlookup := List.lookup_replaceEntry_self hactive (queue ++ [work])
  constructor
  case tickets =>
    have hbefore : ∀ t ∈ settled ++ (current ++ evicted), t.fate.isQueued = false := by
      rw [List.forall_mem_append, List.forall_mem_append]
      exact ⟨h.settled_ne (fun _ => rfl) rfl, h.owned.current_ne, h.evicted_ne rfl⟩
    have hset := @setFirst_append _ _ (fun _ => .dropped) Fate.isQueued _ (.inQueue oldest)
      (queue.map .inQueue) hbefore rfl
    rw [h.tickets, Scheduler.queue, Scheduler.queue, hlookup, hactive, Option.getD_some,
      Option.getD_some, List.map_cons]
    simp only [List.append_assoc] at hset ⊢
    rw [hset]
    simp [Ticket.inQueue]
  case settled => exact h.settled
  case evicted =>
    rw [List.forall_mem_append]
    exact ⟨h.evicted, by simp⟩
  case owned => exact h.owned.congr (by rw [hlookup, hactive]; rfl) rfl rfl

/-- A worker takes the unit of a key. -/
theorem Keeps.take (h : Keeps run s key tickets settled current evicted)
    {rest : List (K × W)} (hworkers : s.workers = before ++ .idle :: after)
    (hfeeder : s.feeder = (key, work) :: rest) :
  Keeps run ({ s with feeder := rest }.setWorker before after (.running key work)) key
    (setFirst Fate.isDispatched (fun _ => .running) tickets) settled [⟨work, .running⟩] evicted
    ∧ current = [⟨work, .dispatched⟩]
  := by
  have hhead : s.heads key = (key, work) :: rest.filter fun entry => entry.1 = key := by
    rw [heads, hfeeder, List.filter_cons, if_pos (by simp)]
  have howned := h.owned
  have htickets := h.tickets
  cases howned with
  | free _ heads => simp [hhead] at heads
  | running _ heads => simp [hhead] at heads
  | sending _ heads => simp [hhead] at heads
  | draining _ heads => simp [hhead] at heads
  | dispatched active heads holders =>
      rw [hhead, List.cons_eq_cons] at heads
      obtain ⟨hsame, hrest⟩ := heads
      cases hsame
      constructor
      · constructor
        case tickets =>
          rw [htickets, List.cons_append,
            setFirst_append _ (h.settled_ne (fun _ => rfl) rfl) rfl, List.cons_append]
          rfl
        case settled => exact h.settled
        case evicted => exact h.evicted
        case owned =>
          apply Owned.running
          · exact active
          · exact hrest
          · exact holders_setWorker_new hworkers holders rfl
      · rfl

/-- A worker has run a unit. -/
theorem Keeps.finish (h : Keeps run s key tickets settled current evicted) {result : R}
    (hworkers : s.workers = before ++ .running key work :: after) (hran : run work result) :
  Keeps run (s.setWorker before after (.sending key result)) key
    (setFirst Fate.isRunning (fun _ => .finished result) tickets) settled [⟨work, .finished result⟩] evicted
    ∧ current = [⟨work, .running⟩]
  := by
  have hmem := mem_holders hworkers rfl
  have howned := h.owned
  have htickets := h.tickets
  cases howned with
  | free _ _ holders => simp [holders] at hmem
  | dispatched _ _ holders => simp [holders] at hmem
  | sending _ _ holders => simp [holders] at hmem
  | draining _ _ holders => simp [holders] at hmem
  | running active heads holders =>
      rw [holders, List.mem_singleton] at hmem
      cases hmem
      constructor
      · constructor
        case tickets =>
          rw [htickets, List.cons_append,
            setFirst_append _ (h.settled_ne (fun _ => rfl) rfl) rfl, List.cons_append]
          rfl
        case settled => exact h.settled
        case evicted => exact h.evicted
        case owned =>
          apply Owned.sending
          · exact active
          · exact heads
          · exact holders_setWorker_keep hworkers rfl holders rfl
          · exact hran
      · rfl

/-- A worker has sent the result of a unit. -/
theorem Keeps.send (h : Keeps run s key tickets settled current evicted) {result : R}
    (hworkers : s.workers = before ++ .sending key result :: after) (results : List R) :
  ∃ work, Keeps run ({ s with results }.setWorker before after (.draining key)) key
      (setFirst Fate.isFinished Fate.send tickets) (settled ++ [⟨work, .sent result⟩]) []
      evicted
    ∧ current = [⟨work, .finished result⟩]
  := by
  have hmem := mem_holders hworkers rfl
  have howned := h.owned
  have htickets := h.tickets
  cases howned with
  | free _ _ holders => simp [holders] at hmem
  | dispatched _ _ holders => simp [holders] at hmem
  | running _ _ holders => simp [holders] at hmem
  | draining _ _ holders => simp [holders] at hmem
  | @sending work _ active heads holders ran =>
      rw [holders, List.mem_singleton] at hmem
      cases hmem
      use work
      constructor
      · constructor
        case tickets =>
          rw [htickets, List.cons_append,
            setFirst_append _ (h.settled_ne (fun _ => rfl) rfl) rfl, List.append_assoc]
          rfl
        case settled =>
          rw [List.forall_mem_append]
          constructor
          · exact h.settled
          · rw [List.forall_mem_singleton]
            left
            exact ⟨result, rfl, ran⟩
        case evicted => exact h.evicted
        case owned =>
          apply Owned.draining
          · exact active
          · exact heads
          · exact holders_setWorker_keep hworkers rfl holders rfl
      · rfl

/-- The holder of a key that looks for its next unit. -/
theorem Owned.of_draining (h : Owned run s key current)
    (hworkers : s.workers = before ++ .draining key :: after) :
  current = [] ∧ s.heads key = [] ∧ s.holders key = [.draining key]
  := by
  have hmem := mem_holders hworkers rfl
  cases h with
  | free _ _ holders => simp [holders] at hmem
  | dispatched _ _ holders => simp [holders] at hmem
  | running _ _ holders => simp [holders] at hmem
  | sending _ _ holders => simp [holders] at hmem
  | draining _ heads holders => exact ⟨rfl, heads, holders⟩

/-- A worker goes on with the first unit in the queue of its key. -/
theorem Keeps.drain (h : Keeps run s key tickets settled current evicted)
    (hworkers : s.workers = before ++ .draining key :: after)
    (hactive : s.active.lookup key = some (work :: queue)) :
  Keeps run ({ s with active := s.active.replaceEntry key queue }.setWorker before after
      (.running key work)) key (setFirst Fate.isQueued (fun _ => .running) tickets) (settled ++ evicted)
      [⟨work, .running⟩] []
    ∧ current = []
  := by
  obtain ⟨hcurrent, hheads, hholders⟩ := h.owned.of_draining hworkers
  have hlookup := List.lookup_replaceEntry_self hactive queue
  constructor
  · constructor
    case tickets =>
      have hbefore : ∀ t ∈ settled ++ evicted, t.fate.isQueued = false := by
        rw [List.forall_mem_append]
        exact ⟨h.settled_ne (fun _ => rfl) rfl, h.evicted_ne rfl⟩
      have hset := @setFirst_append _ _ (fun _ => .running) Fate.isQueued _ (.inQueue work)
        (queue.map .inQueue) hbefore rfl
      rw [h.tickets, hcurrent, Scheduler.queue, Scheduler.queue, setWorker_active, hlookup, hactive,
        Option.getD_some, Option.getD_some, List.map_cons, List.nil_append, List.nil_append,
        ← List.append_assoc, hset]
      rfl
    case settled => exact h.settled_append
    case evicted => simp
    case owned =>
      apply Owned.running
      · rw [setWorker_active, hlookup]
        rfl
      · exact hheads
      · exact holders_setWorker_keep hworkers rfl hholders rfl
  · exact hcurrent

/-- A worker gives up a key with nothing in its queue. -/
theorem Keeps.release (h : Keeps run s key tickets settled current evicted)
    (hnodup : (s.active.map Prod.fst).Nodup)
    (hworkers : s.workers = before ++ .draining key :: after) (hactive : s.queue key = []) :
  Keeps run ({ s with active := s.active.eraseP fun entry => entry.1 = key }.setWorker before after
      .idle) key tickets (settled ++ evicted) [] []
  := by
  obtain ⟨hcurrent, hheads, hholders⟩ := h.owned.of_draining hworkers
  have hlookup := List.lookup_eraseKey_self hnodup key
  constructor
  case tickets =>
    rw [h.tickets, hcurrent, hactive, Scheduler.queue, setWorker_active, hlookup]
    simp
  case settled => exact h.settled_append
  case evicted => simp
  case owned =>
    apply Owned.free
    · exact hlookup
    · exact hheads
    · exact holders_setWorker_release hworkers rfl hholders (by simp [Worker.key?])

end

/-! ### What a run does to a key -/

/-- What a run did to a key is what its tickets say: in the order of the tickets, their units were
accepted, those that were started were started, those that have a result had it sent, and those that
were evicted were evicted. -/
structure Reads (key : K) (actions : List (Action K W R)) (tickets : List (Ticket W R)) : Prop where
  accepted : actions.filterMap (Action.accepted? key) = tickets.map Ticket.work
  started : actions.filterMap (Action.started? key) = tickets.filterMap Ticket.started?
  sent : actions.filterMap (Action.sent? key) = tickets.filterMap Ticket.sent?
  dropped : actions.filterMap (Action.dropped? key) = tickets.filterMap Ticket.dropped?

section

variable {run : W → R → Prop} {s s' : Scheduler K W R} {key : K} {action : Action K W R}
  {actions : List (Action K W R)} {tickets settled current evicted : List (Ticket W R)}

omit [DecidableEq K] in
theorem filterMap_inQueue {β : Type} {f : Ticket W R → Option β}
    (hf : ∀ work, f (.inQueue work) = none) (queue : List W) :
  (queue.map .inQueue).filterMap f = []
  := by
  rw [List.filterMap_map, List.filterMap_eq_nil_iff]
  intro work _
  apply hf

omit [DecidableEq K] in
theorem filterMap_evicted {β : Type} {f : Ticket W R → Option β}
    (hf : ∀ work, f ⟨work, .dropped⟩ = none) (h : ∀ t ∈ evicted, t.fate = .dropped) :
  evicted.filterMap f = []
  := by
  rw [List.filterMap_eq_nil_iff]
  intro t ht
  rw [show t = ⟨t.work, .dropped⟩ from by rw [← h t ht], hf]

omit [DecidableEq K] in
theorem filterMap_dropped (h : ∀ t ∈ evicted, t.fate = .dropped) :
  evicted.filterMap Ticket.dropped? = evicted.map Ticket.work
  := by
  induction evicted with
  | nil => rfl
  | cons t evicted ih =>
      rw [List.forall_mem_cons] at h
      rw [List.filterMap_cons, Ticket.dropped?, h.1, ih h.2, List.map_cons]

theorem Owned.filterMap_eq_nil (h : Owned run s key current) :
  current.filterMap Ticket.sent? = [] ∧ current.filterMap Ticket.dropped? = []
  := by
  cases h <;> exact ⟨rfl, rfl⟩

/-- What the tickets of a key say, part by part. -/
theorem Keeps.reads (h : Keeps run s key tickets settled current evicted) :
  Reads key actions tickets
    ↔ actions.filterMap (Action.accepted? key) = settled.map Ticket.work
        ++ (current.map Ticket.work ++ (evicted.map Ticket.work ++ s.queue key))
      ∧ actions.filterMap (Action.started? key)
        = settled.filterMap Ticket.started? ++ current.filterMap Ticket.started?
      ∧ actions.filterMap (Action.sent? key) = settled.filterMap Ticket.sent?
      ∧ actions.filterMap (Action.dropped? key)
        = settled.filterMap Ticket.dropped? ++ evicted.map Ticket.work
  := by
  obtain ⟨hsent, hdropped⟩ := h.owned.filterMap_eq_nil
  have hwork : tickets.map Ticket.work = settled.map Ticket.work
      ++ (current.map Ticket.work ++ (evicted.map Ticket.work ++ s.queue key)) := by
    rw [h.tickets, List.map_append, List.map_append, List.map_append, List.map_map]
    congr
    apply List.map_id
  have hstarted : tickets.filterMap Ticket.started?
      = settled.filterMap Ticket.started? ++ current.filterMap Ticket.started? := by
    rw [h.tickets, List.filterMap_append, List.filterMap_append, List.filterMap_append,
      filterMap_inQueue (fun _ => rfl), filterMap_evicted (fun _ => rfl) h.evicted, List.append_nil,
      List.append_nil]
  have hsents : tickets.filterMap Ticket.sent? = settled.filterMap Ticket.sent? := by
    rw [h.tickets, List.filterMap_append, List.filterMap_append, List.filterMap_append,
      filterMap_inQueue (fun _ => rfl), filterMap_evicted (fun _ => rfl) h.evicted, hsent,
      List.append_nil, List.append_nil, List.append_nil]
  have hdrops : tickets.filterMap Ticket.dropped?
      = settled.filterMap Ticket.dropped? ++ evicted.map Ticket.work := by
    rw [h.tickets, List.filterMap_append, List.filterMap_append, List.filterMap_append,
      filterMap_inQueue (fun _ => rfl), filterMap_dropped h.evicted, hdropped, List.nil_append,
      List.append_nil]
  rw [← hwork, ← hstarted, ← hsents, ← hdrops]
  constructor
  · intro hreads
    exact ⟨hreads.accepted, hreads.started, hreads.sent, hreads.dropped⟩
  · rintro ⟨haccepted, hstarted, hsent, hdropped⟩
    exact ⟨haccepted, hstarted, hsent, hdropped⟩

/-- A step leaves every key but its own as it was. -/
theorem Acts.frame (h : Acts run s action s') (hne : action.key? ≠ some key) :
  s'.active.lookup key = s.active.lookup key ∧ s'.heads key = s.heads key
    ∧ s'.holders key = s.holders key
  := by
  cases h with
  | @addWork key' work isOpen =>
      rcases addWork_cases isOpen key' work with ⟨-, haction, hadd⟩ | ⟨queue, -, haction, hadd⟩
          | ⟨oldest, queue, -, haction, hadd⟩ <;>
        rw [haction] at hne <;>
        have hne' : key' ≠ key := fun heq => hne (by rw [heq]; rfl)
      · rw [hadd]
        constructor
        · rw [List.lookup_cons, beq_false_of_ne (Ne.symm hne')]
        · constructor
          · simp [heads, hne']
          · rfl
      · rw [hadd]
        exact ⟨List.lookup_replaceEntry_of_ne (Ne.symm hne') _ _, rfl, rfl⟩
      · rw [hadd]
        exact ⟨List.lookup_replaceEntry_of_ne (Ne.symm hne') _ _, rfl, rfl⟩
  | @take before after key' work rest workers feeder =>
      have hne' : key' ≠ key := fun heq => hne (by rw [heq]; rfl)
      refine ⟨rfl, ?_, holders_setWorker_of_ne workers (by simp [Worker.key?]) hne⟩
      rw [setWorker_heads, heads, heads, feeder, List.filter_cons, if_neg (by simpa using hne')]
  | finish workers ran => exact ⟨rfl, rfl, holders_setWorker_of_ne workers hne hne⟩
  | send workers room => exact ⟨rfl, rfl, holders_setWorker_of_ne workers hne hne⟩
  | @drain before after key' work queue workers active =>
      have hne' : key ≠ key' := fun heq => hne (by rw [heq]; rfl)
      exact ⟨List.lookup_replaceEntry_of_ne hne' _ _, rfl, holders_setWorker_of_ne workers hne hne⟩
  | @release before after key' workers active =>
      have hne' : key ≠ key' := fun heq => hne (by rw [heq]; rfl)
      exact ⟨List.lookup_eraseKey_of_ne hne' _, rfl,
        holders_setWorker_of_ne workers hne (by simp [Worker.key?])⟩
  | receive results => exact ⟨rfl, rfl, rfl⟩

omit [DecidableEq K] in
theorem filterMap_snoc {α β : Type} (f : α → Option β) (l : List α) (a : α) :
  (l ++ [a]).filterMap f = l.filterMap f ++ (f a).toList
  := by
  rw [List.filterMap_append]
  cases hf : f a with
  | none => rw [List.filterMap_cons_none hf]; rfl
  | some b => rw [List.filterMap_cons_some hf]; rfl

theorem queue_replaceEntry {queue : List W} (hactive : s.active.lookup key = some queue)
    (queue' : List W) :
  { s with active := s.active.replaceEntry key queue' }.queue key = queue'
  := by
  rw [Scheduler.queue, List.lookup_replaceEntry_self hactive, Option.getD_some]

theorem queue_eraseKey (hnodup : (s.active.map Prod.fst).Nodup) :
  { s with active := s.active.eraseP fun entry => entry.1 = key }.queue key = []
  := by
  rw [Scheduler.queue, List.lookup_eraseKey_self hnodup, Option.getD_none]

/-- What holds of the tickets of the key that a step is about holds after it. -/
theorem Acts.keeps (h : Acts run s action s') (hkey : action.key? = some key)
    (hnodup : (s.active.map Prod.fst).Nodup) {tickets : K → List (Ticket W R)}
    (hkeeps : Keeps run s key (tickets key) settled current evicted)
    (hreads : Reads key actions (tickets key)) :
  ∃ settled' current' evicted',
    Keeps run s' key (action.record tickets key) settled' current' evicted'
    ∧ Reads key (actions ++ [action]) (action.record tickets key)
  := by
  obtain ⟨haccepted, hstarted, hsent, hdropped⟩ := hkeeps.reads.mp hreads
  have hnone : evicted.filterMap Ticket.started? = [] :=
    filterMap_evicted (fun _ => rfl) hkeeps.evicted
  have hnone' : evicted.filterMap Ticket.sent? = [] :=
    filterMap_evicted (fun _ => rfl) hkeeps.evicted
  have hdrops := filterMap_dropped hkeeps.evicted
  cases h with
  | @addWork key' work isOpen =>
      rcases addWork_cases isOpen key' work with ⟨hactive, haction, hadd⟩
          | ⟨queue, hactive, haction, hadd⟩ | ⟨oldest, queue, hactive, haction, hadd⟩ <;>
        rw [haction] at hkey ⊢ <;> cases hkey <;>
        rw [hadd, Action.record, Function.update_self]
      · obtain ⟨hnext, rfl⟩ := hkeeps.dispatch hactive work
        refine ⟨_, _, _, hnext, hnext.reads.mpr ?_⟩
        have hqueue : s.queue key = [] := by rw [Scheduler.queue, hactive, Option.getD_none]
        simp only [filterMap_snoc, haccepted, hstarted, hsent, hdropped, hqueue]
        simp [Action.accepted?, Action.started?, Action.sent?, Action.dropped?, Ticket.started?,
          Scheduler.queue, hnone, hnone', hdrops]
      · have hnext := hkeeps.enqueue hactive work
        refine ⟨_, _, _, hnext, hnext.reads.mpr ?_⟩
        have hqueue : s.queue key = queue := by rw [Scheduler.queue, hactive, Option.getD_some]
        simp only [filterMap_snoc, haccepted, hstarted, hsent, hdropped, hqueue,
          queue_replaceEntry hactive]
        simp [Action.accepted?, Action.started?, Action.sent?, Action.dropped?]
      · have hnext := hkeeps.evict hactive work
        refine ⟨_, _, _, hnext, hnext.reads.mpr ?_⟩
        have hqueue : s.queue key = oldest :: queue := by
          rw [Scheduler.queue, hactive, Option.getD_some]
        simp only [filterMap_snoc, haccepted, hstarted, hsent, hdropped, hqueue,
          queue_replaceEntry hactive]
        simp [Action.accepted?, Action.started?, Action.sent?, Action.dropped?]
  | @take before after key' work rest workers feeder =>
      cases hkey
      rw [Action.record, Function.update_self]
      obtain ⟨hnext, rfl⟩ := hkeeps.take workers feeder
      refine ⟨_, _, _, hnext, hnext.reads.mpr ?_⟩
      simp only [filterMap_snoc, haccepted, hstarted, hsent, hdropped]
      simp [Action.accepted?, Action.started?, Action.sent?, Action.dropped?, Ticket.started?,
        Scheduler.queue]
  | @finish before after key' work result workers ran =>
      cases hkey
      rw [Action.record, Function.update_self]
      obtain ⟨hnext, rfl⟩ := hkeeps.finish workers ran
      refine ⟨_, _, _, hnext, hnext.reads.mpr ?_⟩
      simp only [filterMap_snoc, haccepted, hstarted, hsent, hdropped]
      simp [Action.accepted?, Action.started?, Action.sent?, Action.dropped?, Ticket.started?,
        Scheduler.queue]
  | @send before after key' result workers room =>
      cases hkey
      rw [Action.record, Function.update_self]
      obtain ⟨work, hnext, rfl⟩ := hkeeps.send workers (s.results ++ [result])
      refine ⟨_, _, _, hnext, hnext.reads.mpr ?_⟩
      simp only [filterMap_snoc, haccepted, hstarted, hsent, hdropped]
      simp [Action.accepted?, Action.started?, Action.sent?, Action.dropped?, Ticket.started?,
        Ticket.sent?, Ticket.dropped?, Scheduler.queue]
  | @drain before after key' work queue workers active =>
      cases hkey
      rw [Action.record, Function.update_self]
      obtain ⟨hnext, rfl⟩ := hkeeps.drain workers active
      refine ⟨_, _, _, hnext, hnext.reads.mpr ?_⟩
      have hqueue : s.queue key = work :: queue := by
        rw [Scheduler.queue, active, Option.getD_some]
      simp only [filterMap_snoc, haccepted, hstarted, hsent, hdropped, hqueue, setWorker_queue,
        queue_replaceEntry active]
      simp [Action.accepted?, Action.started?, Action.sent?, Action.dropped?, Ticket.started?,
        hnone, hnone', hdrops]
  | @release before after key' workers active =>
      cases hkey
      rw [Action.record]
      have hnext := hkeeps.release hnodup workers active
      refine ⟨_, _, _, hnext, hnext.reads.mpr ?_⟩
      have hqueue : s.queue key = [] := active
      obtain ⟨rfl, -, -⟩ := hkeeps.owned.of_draining workers
      simp only [filterMap_snoc, haccepted, hstarted, hsent, hdropped, hqueue, setWorker_queue,
        queue_eraseKey hnodup]
      simp [Action.accepted?, Action.started?, Action.sent?, Action.dropped?, hnone, hnone', hdrops]
  | receive results => cases hkey

end

/-! ### Every run -/

/-- What holds after every run: the scheduler is open and has a worker, no key is active twice, and
the tickets of each key are kept. -/
structure Invariant (run : W → R → Prop) (actions : List (Action K W R)) (s : Scheduler K W R) :
    Prop where
  isOpen : s.closed = false
  room : 0 < s.resultCapacity
  workers : s.workers ≠ []
  nodup : (s.active.map Prod.fst).Nodup
  keys : ∀ key, ∃ settled current evicted,
    Keeps run s key (ledger actions key) settled current evicted
    ∧ Reads key actions (ledger actions key)

section

variable {run : W → R → Prop} {s s' : Scheduler K W R} {action : Action K W R}
  {actions : List (Action K W R)}

theorem new_invariant (run : W → R → Prop) (workers keyQueueCap resultCapacity : ℕ) :
  Invariant run [] (new workers keyQueueCap resultCapacity : Scheduler K W R)
  := by
  constructor
  case isOpen => rfl
  case room => exact Nat.le_max_right _ _
  case workers =>
    rw [new, List.ne_nil_iff_length_pos, List.length_replicate]
    exact Nat.le_max_right _ _
  case nodup => exact List.nodup_nil
  case keys =>
    intro key
    refine ⟨[], [], [], ⟨rfl, by simp, by simp, ?_⟩, ⟨rfl, rfl, rfl, rfl⟩⟩
    apply Owned.free
    · rfl
    · rfl
    · rw [holders, List.filter_eq_nil_iff]
      intro worker hworker
      obtain rfl := List.eq_of_mem_replicate hworker
      simp [Worker.key?]

theorem Acts.nodup (h : Acts run s action s') (hnodup : (s.active.map Prod.fst).Nodup) :
  (s'.active.map Prod.fst).Nodup
  := by
  cases h with
  | @addWork key work isOpen =>
      rcases addWork_cases isOpen key work with ⟨hactive, -, hadd⟩ | ⟨queue, -, -, hadd⟩
          | ⟨oldest, queue, -, -, hadd⟩
      · rw [hadd, List.map_cons, List.nodup_cons]
        constructor
        · intro hmem
          obtain ⟨entry, hentry, hkey⟩ := List.mem_map.mp hmem
          have hfound := List.lookup_eq_none_iff.mp hactive entry hentry
          rw [hkey] at hfound
          simp at hfound
        · exact hnodup
      · rw [hadd, List.map_fst_replaceEntry]
        exact hnodup
      · rw [hadd, List.map_fst_replaceEntry]
        exact hnodup
  | drain workers active =>
      rw [setWorker_active, List.map_fst_replaceEntry]
      exact hnodup
  | release workers active =>
      rw [setWorker_active]
      apply List.Nodup.sublist (List.Sublist.map _ List.eraseP_sublist) hnodup
  | take workers feeder => exact hnodup
  | finish workers ran => exact hnodup
  | send workers room => exact hnodup
  | receive results => exact hnodup

theorem Acts.setup (h : Acts run s action s') :
  s'.closed = s.closed ∧ s'.resultCapacity = s.resultCapacity
    ∧ s'.workers.length = s.workers.length
  := by
  cases h with
  | @addWork key work isOpen =>
      rcases addWork_cases isOpen key work with ⟨-, -, hadd⟩ | ⟨queue, -, -, hadd⟩
          | ⟨oldest, queue, -, -, hadd⟩ <;>
        rw [hadd] <;> exact ⟨rfl, rfl, rfl⟩
  | take workers feeder => exact ⟨rfl, rfl, by simp [setWorker, workers]⟩
  | finish workers ran => exact ⟨rfl, rfl, by simp [setWorker, workers]⟩
  | send workers room => exact ⟨rfl, rfl, by simp [setWorker, workers]⟩
  | drain workers active => exact ⟨rfl, rfl, by simp [setWorker, workers]⟩
  | release workers active => exact ⟨rfl, rfl, by simp [setWorker, workers]⟩
  | receive results => exact ⟨rfl, rfl, rfl⟩

/-- What happens to other keys is not read off the tickets of a key. -/
theorem Reads.snoc {key : K} {tickets : List (Ticket W R)} (h : Reads key actions tickets)
    (hne : action.key? ≠ some key) :
  Reads key (actions ++ [action]) tickets
  := by
  have hnone : action.accepted? key = none ∧ action.started? key = none ∧ action.sent? key = none
      ∧ action.dropped? key = none := by
    cases action <;>
      simp_all [Action.key?, Action.accepted?, Action.started?, Action.sent?, Action.dropped?]
  obtain ⟨haccepted, hstarted, hsent, hdropped⟩ := hnone
  constructor
  case accepted => rw [filterMap_snoc, haccepted, Option.toList_none, List.append_nil, h.accepted]
  case started => rw [filterMap_snoc, hstarted, Option.toList_none, List.append_nil, h.started]
  case sent => rw [filterMap_snoc, hsent, Option.toList_none, List.append_nil, h.sent]
  case dropped => rw [filterMap_snoc, hdropped, Option.toList_none, List.append_nil, h.dropped]

theorem record_of_ne (tickets : K → List (Ticket W R)) {key : K}
    (hne : action.key? ≠ some key) :
  action.record tickets key = tickets key
  := by
  cases action with
  | receive => rfl
  | release => rfl
  | _ => exact Function.update_of_ne (fun heq => hne (congrArg some heq.symm)) _ _

theorem Invariant.step (h : Invariant run actions s) (hacts : Acts run s action s') :
  Invariant run (actions ++ [action]) s'
  := by
  obtain ⟨hclosed, hcapacity, hlength⟩ := hacts.setup
  constructor
  case isOpen => rw [hclosed, h.isOpen]
  case room =>
    rw [hcapacity]
    exact h.room
  case workers =>
    rw [List.ne_nil_iff_length_pos, hlength, ← List.ne_nil_iff_length_pos]
    exact h.workers
  case nodup => exact hacts.nodup h.nodup
  case keys =>
    intro key
    obtain ⟨settled, current, evicted, hkeeps, hreads⟩ := h.keys key
    rw [ledger_snoc]
    by_cases hkey : action.key? = some key
    · exact hacts.keeps hkey h.nodup hkeeps hreads
    · obtain ⟨hactive, hheads, hholders⟩ := hacts.frame hkey
      rw [record_of_ne _ hkey]
      exact ⟨settled, current, evicted, hkeeps.congr hactive hheads hholders, hreads.snoc hkey⟩

theorem Run.invariant {start : Scheduler K W R} (h : Run run start actions s)
    (hstart : Invariant run [] start) :
  Invariant run actions s
  := by
  induction h with
  | nil => exact hstart
  | snoc _ hacts ih => exact ih.step hacts

end

end Scheduler

end Shrike.Streaming
