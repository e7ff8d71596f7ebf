import Shrike.Streaming.Scheduler

/-!
# Tickets of the keyed scheduler

Each unit that the scheduler accepts gets a ticket in the order of submission, which says what has
become of it. What a run of the scheduler does to the units of a key is read off its tickets.
-/

namespace Shrike.Streaming

variable {K W R : Type}

/-! ### Tickets -/

/-- What has become of a unit: it waits for a worker, or in the queue of its key, a worker runs it
or is about to send its result, its result was sent, or it was evicted. -/
inductive Fate (R : Type) where
  | dispatched
  | queued
  | running
  | finished (result : R)
  | sent (result : R)
  | dropped

namespace Fate

/-- Whether a unit waits for a worker. -/
def isDispatched : Fate R → Bool
  | dispatched => true
  | _ => false

/-- Whether a unit waits in the queue of its key. -/
def isQueued : Fate R → Bool
  | queued => true
  | _ => false

/-- Whether a worker runs a unit. -/
def isRunning : Fate R → Bool
  | running => true
  | _ => false

/-- Whether the result of a unit is about to be sent. -/
def isFinished : Fate R → Bool
  | finished _ => true
  | _ => false

/-- The fate of a unit whose result is sent. -/
def send : Fate R → Fate R
  | finished result => sent result
  | fate => fate

/-- What can become of a unit next. -/
inductive Next : Fate R → Fate R → Prop where
  | take : Next dispatched running
  | drain : Next queued running
  | finish (result : R) : Next running (finished result)
  | send (result : R) : Next (finished result) (sent result)
  | drop : Next queued dropped

end Fate

/-- A unit and what has become of it. -/
structure Ticket (W R : Type) where
  work : W
  fate : Fate R

namespace Ticket

/-- The unit, if it was started. -/
def started? (t : Ticket W R) : Option W :=
  match t.fate with
  | .running | .finished _ | .sent _ => some t.work
  | .dispatched | .queued | .dropped => none

/-- The result of the unit, if it was sent. -/
def sent? (t : Ticket W R) : Option R :=
  match t.fate with
  | .sent result => some result
  | _ => none

/-- The unit, if it was evicted. -/
def dropped? (t : Ticket W R) : Option W :=
  match t.fate with
  | .dropped => some t.work
  | _ => none

/-- The ticket of a unit in the queue of its key. -/
def inQueue (work : W) : Ticket W R := ⟨work, .queued⟩

/-- A unit that is done with: its result was sent, or it was evicted. -/
def Settled (run : W → R → Prop) (t : Ticket W R) : Prop :=
  (∃ result, t.fate = .sent result ∧ run t.work result) ∨ t.fate = .dropped

end Ticket

/-- A later ticket of the same unit. -/
def Ticket.Evolves (t t' : Ticket W R) : Prop :=
  t'.work = t.work ∧ Relation.ReflTransGen Fate.Next t.fate t'.fate

/-- Later tickets of a key: those of the same units in the same order, and those of new units after
them. -/
def Follows (ts ts' : List (Ticket W R)) : Prop :=
  ∃ now more, ts' = now ++ more ∧ List.Forall₂ Ticket.Evolves ts now

theorem Ticket.evolves_refl (t : Ticket W R) :
  t.Evolves t
  := ⟨rfl, .refl⟩

theorem Ticket.Evolves.trans {t t' t'' : Ticket W R} (h : t.Evolves t') (h' : t'.Evolves t'') :
  t.Evolves t''
  := ⟨h'.1.trans h.1, h.2.trans h'.2⟩

theorem forall₂_evolves_refl (ts : List (Ticket W R)) :
  List.Forall₂ Ticket.Evolves ts ts
  := by
  apply List.forall₂_same.mpr
  intro t _
  apply t.evolves_refl

variable {next : Fate R → Fate R} {p : Fate R → Bool} {ts ts' ts'' before : List (Ticket W R)}

theorem forall₂_evolves_trans
    (h : List.Forall₂ Ticket.Evolves ts ts') (h' : List.Forall₂ Ticket.Evolves ts' ts'') :
  List.Forall₂ Ticket.Evolves ts ts''
  := by
  induction h generalizing ts'' with
  | nil => exact h'
  | cons hhead _ ih =>
      cases h' with
      | cons hhead' htail' => exact .cons (hhead.trans hhead') (ih htail')

theorem follows_append (ts more : List (Ticket W R)) :
  Follows ts (ts ++ more)
  := ⟨ts, more, rfl, forall₂_evolves_refl ts⟩

theorem follows_refl (ts : List (Ticket W R)) :
  Follows ts ts
  := ⟨ts, [], (List.append_nil ts).symm, forall₂_evolves_refl ts⟩

theorem Follows.trans (h : Follows ts ts') (h' : Follows ts' ts'') :
  Follows ts ts''
  := by
  obtain ⟨now, more, rfl, hnow⟩ := h
  obtain ⟨now', more', rfl, hnow'⟩ := h'
  have htake := List.forall₂_take now.length hnow'
  rw [List.take_left] at htake
  use now'.take now.length, now'.drop now.length ++ more'
  constructor
  · rw [← List.append_assoc, List.take_append_drop]
  · apply forall₂_evolves_trans hnow htake

/-- The first ticket of a kind gets its next fate. -/
def setFirst (p : Fate R → Bool) (next : Fate R → Fate R) : List (Ticket W R) → List (Ticket W R)
  | [] => []
  | t :: ts => if p t.fate then { t with fate := next t.fate } :: ts else t :: setFirst p next ts

theorem setFirst_append
    {t : Ticket W R} (after : List (Ticket W R)) (hbefore : ∀ b ∈ before, p b.fate = false)
    (ht : p t.fate = true) :
  setFirst p next (before ++ t :: after) = before ++ { t with fate := next t.fate } :: after
  := by
  induction before with
  | nil => rw [List.nil_append, setFirst, if_pos ht, List.nil_append]
  | cons b before ih =>
      rw [List.forall_mem_cons] at hbefore
      rw [List.cons_append, setFirst, hbefore.1, if_neg Bool.false_ne_true, ih hbefore.2,
        List.cons_append]

theorem forall₂_setFirst
    (h : ∀ fate, p fate = true → Fate.Next fate (next fate)) (ts : List (Ticket W R)) :
  List.Forall₂ Ticket.Evolves ts (setFirst p next ts)
  := by
  induction ts with
  | nil => apply List.Forall₂.nil
  | cons t ts ih =>
      rw [setFirst]
      split_ifs with hp
      · apply List.Forall₂.cons
        · exact ⟨rfl, .single (h t.fate hp)⟩
        · apply forall₂_evolves_refl
      · apply List.Forall₂.cons t.evolves_refl ih

/-! ### Actions -/

/-- What happens to a key: a unit is submitted and goes to the workers or into the queue of the
key, which may evict the oldest unit there, a worker goes on, or a result is received. -/
inductive Action (K W R : Type) where
  | dispatch (key : K) (work : W)
  | enqueue (key : K) (work : W)
  | evict (key : K) (work oldest : W)
  | take (key : K) (work : W)
  | finish (key : K) (work : W) (result : R)
  | send (key : K) (result : R)
  | drain (key : K) (work : W)
  | release (key : K)
  | receive (result : R)

namespace Action

variable [DecidableEq K]

/-- The unit that is accepted under a key. -/
def accepted? (key : K) : Action K W R → Option W
  | dispatch key' work | enqueue key' work | evict key' work _ => if key' = key then some work else none
  | _ => none

/-- The unit of a key that starts to run. -/
def started? (key : K) : Action K W R → Option W
  | take key' work | drain key' work => if key' = key then some work else none
  | _ => none

/-- The result of a unit of a key that is sent. -/
def sent? (key : K) : Action K W R → Option R
  | send key' result => if key' = key then some result else none
  | _ => none

/-- The unit of a key that is evicted. -/
def dropped? (key : K) : Action K W R → Option W
  | evict key' _ oldest => if key' = key then some oldest else none
  | _ => none

/-- Whether a unit is submitted. -/
def isSubmission : Action K W R → Bool
  | dispatch _ _ | enqueue _ _ | evict _ _ _ => true
  | _ => false

/-- The key that something happens to. -/
def key? : Action K W R → Option K
  | dispatch key _ | enqueue key _ | evict key _ _ | take key _ | finish key _ _ | send key _
  | drain key _ | release key => some key
  | receive _ => none

/-- The tickets of each key after an action. -/
def record (tickets : K → List (Ticket W R)) : Action K W R → K → List (Ticket W R)
  | dispatch key work => Function.update tickets key (tickets key ++ [⟨work, .dispatched⟩])
  | enqueue key work => Function.update tickets key (tickets key ++ [.inQueue work])
  | evict key work _ => Function.update tickets key
      (setFirst Fate.isQueued (fun _ => .dropped) (tickets key) ++ [.inQueue work])
  | take key _ => Function.update tickets key
      (setFirst Fate.isDispatched (fun _ => .running) (tickets key))
  | finish key _ result => Function.update tickets key
      (setFirst Fate.isRunning (fun _ => .finished result) (tickets key))
  | send key _ => Function.update tickets key (setFirst Fate.isFinished Fate.send (tickets key))
  | drain key _ => Function.update tickets key
      (setFirst Fate.isQueued (fun _ => .running) (tickets key))
  | release _ | receive _ => tickets

end Action

/-- The tickets of each key after some actions. -/
def ledger [DecidableEq K] (actions : List (Action K W R)) : K → List (Ticket W R) :=
  actions.foldl Action.record fun _ => []

/-- Tickets of which those of one key are later ones are later ones for every key. -/
theorem follows_update [DecidableEq K] (tickets : K → List (Ticket W R)) {key : K}
    (h : Follows (tickets key) ts) (key' : K) :
  Follows (tickets key') (Function.update tickets key ts key')
  := by
  by_cases heq : key' = key
  · rw [heq, Function.update_self]
    exact h
  · rw [Function.update_of_ne heq]
    apply follows_refl

theorem follows_setFirst
    (h : ∀ fate, p fate = true → Fate.Next fate (next fate)) (ts : List (Ticket W R)) :
  Follows ts (setFirst p next ts)
  := ⟨_, [], (List.append_nil _).symm, forall₂_setFirst h ts⟩

/-- The tickets of a key only move on, and there come new ones after them. -/
theorem Action.follows_record [DecidableEq K] (tickets : K → List (Ticket W R))
    (action : Action K W R) (key : K) :
  Follows (tickets key) (action.record tickets key)
  := by
  cases action with
  | dispatch key' work => apply follows_update tickets (follows_append _ _)
  | enqueue key' work => apply follows_update tickets (follows_append _ _)
  | evict key' work oldest =>
      apply follows_update
      apply Follows.trans _ (follows_append _ _)
      apply follows_setFirst
      intro fate hfate
      cases fate <;> first | exact .drop | cases hfate
  | take key' work =>
      apply follows_update
      apply follows_setFirst
      intro fate hfate
      cases fate <;> first | exact .take | cases hfate
  | finish key' work result =>
      apply follows_update
      apply follows_setFirst
      intro fate hfate
      cases fate <;> first | exact .finish result | cases hfate
  | send key' result =>
      apply follows_update
      apply follows_setFirst
      intro fate hfate
      cases fate <;> first | exact .send _ | cases hfate
  | drain key' work =>
      apply follows_update
      apply follows_setFirst
      intro fate hfate
      cases fate <;> first | exact .drain | cases hfate
  | release key' => apply follows_refl
  | receive result => apply follows_refl

theorem ledger_snoc [DecidableEq K] (actions : List (Action K W R)) (action : Action K W R) :
  ledger (actions ++ [action]) = action.record (ledger actions)
  := by
  rw [ledger, List.foldl_append]
  rfl

/-- The tickets after some actions are later ones of those after fewer. -/
theorem ledger_follows [DecidableEq K] (actions more : List (Action K W R)) (key : K) :
  Follows (ledger actions key) (ledger (actions ++ more) key)
  := by
  induction more using List.reverseRecOn with
  | nil =>
      rw [List.append_nil]
      apply follows_refl
  | append_singleton more action ih =>
      rw [← List.append_assoc, ledger_snoc]
      apply ih.trans
      apply Action.follows_record

/-! ### Runs -/

namespace Scheduler

variable [DecidableEq K]

/-- What submitting a unit does to its key. -/
def submission (s : Scheduler K W R) (key : K) (work : W) : Action K W R :=
  match (s.addWork key work).1 with
  | .dropped oldest => .evict key work oldest
  | _ => if (s.active.lookup key).isSome then .enqueue key work else .dispatch key work

/-- One step of the scheduler, and what it does: a unit is submitted, a worker goes on, or the
receiver of the results takes one. -/
inductive Acts (run : W → R → Prop) : Scheduler K W R → Action K W R → Scheduler K W R → Prop where
  | addWork {s : Scheduler K W R} {key work} (isOpen : s.closed = false) :
      Acts run s (s.submission key work) (s.addWork key work).2
  | take {s : Scheduler K W R} {before after key work rest}
      (workers : s.workers = before ++ .idle :: after)
      (feeder : s.feeder = (key, work) :: rest) :
      Acts run s (.take key work)
        ({ s with feeder := rest }.setWorker before after (.running key work))
  | finish {s : Scheduler K W R} {before after key work result}
      (workers : s.workers = before ++ .running key work :: after)
      (ran : run work result) :
      Acts run s (.finish key work result) (s.setWorker before after (.sending key result))
  | send {s : Scheduler K W R} {before after key result}
      (workers : s.workers = before ++ .sending key result :: after)
      (room : s.results.length < s.resultCapacity) :
      Acts run s (.send key result)
        ({ s with results := s.results ++ [result] }.setWorker before after (.draining key))
  | drain {s : Scheduler K W R} {before after key work queue}
      (workers : s.workers = before ++ .draining key :: after)
      (active : s.active.lookup key = some (work :: queue)) :
      Acts run s (.drain key work)
        ({ s with active := s.active.replaceEntry key queue }.setWorker before after
          (.running key work))
  | release {s : Scheduler K W R} {before after key}
      (workers : s.workers = before ++ .draining key :: after)
      (active : (s.active.lookup key).getD [] = []) :
      Acts run s (.release key)
        ({ s with active := s.active.eraseP fun entry => entry.1 = key }.setWorker before after
          .idle)
  | receive {s : Scheduler K W R} {result rest} (results : s.results = result :: rest) :
      Acts run s (.receive result) { s with results := rest }

/-- The runs from a state, and what they do. -/
inductive Run (run : W → R → Prop) (start : Scheduler K W R) :
    List (Action K W R) → Scheduler K W R → Prop where
  | nil : Run run start [] start
  | snoc {actions action s s'} (before : Run run start actions s) (acts : Acts run s action s') :
      Run run start (actions ++ [action]) s'

/-- What submitting a unit to an open scheduler does: its key is dispatched if nobody has it, and
otherwise the unit joins the queue of the key, from which the first one may be evicted. -/
theorem addWork_cases {s : Scheduler K W R} (isOpen : s.closed = false) (key : K) (work : W) :
  (s.active.lookup key = none ∧ s.submission key work = .dispatch key work
    ∧ s.addWork key work = (.queued,
      { s with active := (key, []) :: s.active, feeder := s.feeder ++ [(key, work)] }))
  ∨ (∃ queue, s.active.lookup key = some queue ∧ s.submission key work = .enqueue key work
    ∧ s.addWork key work = (.queued,
      { s with active := s.active.replaceEntry key (queue ++ [work]) }))
  ∨ ∃ oldest queue, s.active.lookup key = some (oldest :: queue)
    ∧ s.submission key work = .evict key work oldest
    ∧ s.addWork key work = (.dropped oldest,
      { s with active := s.active.replaceEntry key (queue ++ [work]) })
  := by
  rw [submission, addWork, isOpen, if_neg Bool.false_ne_true]
  rcases hlookup : s.active.lookup key with _ | _ | ⟨oldest, queue⟩
  · left
    exact ⟨rfl, rfl, rfl⟩
  · right
    left
    exact ⟨[], rfl, rfl, rfl⟩
  · right
    by_cases hcap : 0 < s.keyQueueCap ∧ s.keyQueueCap ≤ queue.length + 1
    · right
      dsimp only
      rw [if_pos hcap]
      exact ⟨oldest, queue, rfl, rfl, rfl⟩
    · left
      dsimp only
      rw [if_neg hcap]
      exact ⟨oldest :: queue, rfl, rfl, rfl⟩

end Scheduler

end Shrike.Streaming
