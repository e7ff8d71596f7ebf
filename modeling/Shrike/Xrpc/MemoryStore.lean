import Shrike.Xrpc.RateLimits

/-!
# The rate limit store in memory

The store keeps the windows of all keys, replaces those that ended when their key is charged again,
and sweeps them when there are many. Its results are those of one counter for each key.
-/

namespace Shrike.Xrpc

open Bytes

/-- The result of charging a key. -/
structure RateLimitStatus where
  limit : ℕ
  duration : ℕ
  remainingPoints : ℕ
  msBeforeNext : ℕ
  consumedPoints : ℕ
  isFirstInDuration : Bool
  exceeded : Bool
  deriving DecidableEq

/-- A window, which ends at an instant in nanoseconds. -/
structure Window where
  ends : ℕ
  consumed : ℕ
  deriving DecidableEq

/-- The number of keys at which windows that ended are swept. -/
def sweepThreshold : ℕ := 10000

/-- The result of charging points to a window. -/
def Window.status (window : Window) (now points limit duration : ℕ) : RateLimitStatus :=
  let consumed := min (window.consumed + points) (2 ^ 64 - 1)
  { limit, duration
    remainingPoints := limit - consumed
    msBeforeNext := min ((window.ends - now) / 10 ^ 6) (2 ^ 64 - 1)
    consumedPoints := consumed
    isFirstInDuration := window.consumed = 0
    exceeded := limit < consumed }

/-- The window to charge: a new one if there is none, or if it ended. -/
def currentWindow (now duration : ℕ) : Option Window → Window
  | some w => if w.ends ≤ now then ⟨now + duration, 0⟩ else w
  | none => ⟨now + duration, 0⟩

/-- The store, with one window for each key. -/
structure MemoryStore where
  windows : List (Bytes × Window)
  distinct : (windows.map Prod.fst).Nodup

namespace MemoryStore

/-- An empty store. -/
def new : MemoryStore := ⟨[], List.nodup_nil⟩

variable (store : MemoryStore)

/-- Keep the windows that did not end. -/
def sweep (now : ℕ) : MemoryStore where
  windows := store.windows.filter fun e => now < e.2.ends
  distinct := store.distinct.sublist (List.filter_sublist.map Prod.fst)

/-- Forget the counter of a key. -/
def reset (key : Bytes) : MemoryStore where
  windows := store.windows.eraseP fun e => e.1 = key
  distinct := store.distinct.sublist (List.eraseP_sublist.map Prod.fst)

theorem lookup_reset_self (key : Bytes) :
  (store.reset key).windows.lookup key = none
  := List.lookup_eraseKey_self store.distinct key

theorem lookup_reset_of_ne {key key' : Bytes} (hne : key' ≠ key) :
  (store.reset key).windows.lookup key' = store.windows.lookup key'
  := List.lookup_eraseKey_of_ne hne store.windows

/-- Put a window under a key. -/
def put (key : Bytes) (window : Window) : MemoryStore where
  windows := (key, window) :: (store.reset key).windows
  distinct := by
    rw [List.map_cons, List.nodup_cons]
    refine ⟨?_, (store.reset key).distinct⟩
    intro hmem
    obtain ⟨e, he, hkey⟩ := List.mem_map.mp hmem
    exact absurd hkey.symm
      (bne_iff_ne.mp (List.lookup_eq_none_iff.mp (store.lookup_reset_self key) e he))

/-- Charge points to a key. -/
def consume (now : ℕ) (key : Bytes) (points limit duration : ℕ) : RateLimitStatus × MemoryStore :=
  let store := if sweepThreshold ≤ store.windows.length then store.sweep now else store
  let window := currentWindow now duration (store.windows.lookup key)
  let status := window.status now points limit duration
  (status, store.put key ⟨window.ends, status.consumedPoints⟩)

end MemoryStore

/-! ### Calls -/

inductive StoreOp where
  | consume (points : ℕ)
  | reset
  deriving DecidableEq

/-- A call of the store at an instant. -/
structure StoreCall where
  now : ℕ
  key : Bytes
  op : StoreOp
  deriving DecidableEq

section

variable (limit duration : Bytes → ℕ)

/-- A call, with the limit and the duration of its key. -/
def MemoryStore.call (store : MemoryStore) (call : StoreCall) :
    Option RateLimitStatus × MemoryStore :=
  match call.op with
  | .consume points =>
      let result := store.consume call.now call.key points (limit call.key) (duration call.key)
      (some result.1, result.2)
  | .reset => (none, store.reset call.key)

/-- Calls with their results. -/
def MemoryStore.run : MemoryStore → List StoreCall → List (StoreCall × Option RateLimitStatus)
  | _, [] => []
  | store, call :: calls =>
      (call, (store.call limit duration call).1)
        :: run (store.call limit duration call).2 calls

end

/-! ### One counter -/

/-- A window of a counter, with all points that were charged in it. -/
structure Counter where
  opened : ℕ
  total : ℕ

/-- What a counter answers to a call, and whether the call opened a window. -/
structure Answer where
  call : StoreCall
  status : Option RateLimitStatus
  opens : Bool

section

variable (limit duration : ℕ)

/-- The window that is open at an instant. -/
def openAt (now : ℕ) (counter : Option Counter) : Option Counter :=
  counter.filter fun c => now < c.opened + duration

/-- The result of charging points to an open window, in which `total` points are charged then. -/
def Counter.status (opened total now : ℕ) (opens : Bool) : RateLimitStatus :=
  let consumed := min total (2 ^ 64 - 1)
  { limit, duration
    remainingPoints := limit - consumed
    msBeforeNext := min ((opened + duration - now) / 10 ^ 6) (2 ^ 64 - 1)
    consumedPoints := consumed
    isFirstInDuration := opens
    exceeded := limit < consumed }

/-- A window opens at the first charge after the window before ended or was reset. -/
def Counter.step (counter : Option Counter) (call : StoreCall) : Answer × Option Counter :=
  match call.op with
  | .consume points =>
      let window := (openAt duration call.now counter).getD ⟨call.now, 0⟩
      let total := window.total + points
      let opens := (openAt duration call.now counter).isNone
      (⟨call, some (Counter.status limit duration window.opened total call.now opens), opens⟩,
        some ⟨window.opened, total⟩)
  | .reset => (⟨call, none, false⟩, none)

def Counter.run : Option Counter → List StoreCall → List Answer
  | _, [] => []
  | counter, call :: calls =>
      (Counter.step limit duration counter call).1
        :: run (Counter.step limit duration counter call).2 calls

end

/-! ### The store and the counters -/

/-- The window that did not end at an instant. -/
def liveAt (now : ℕ) (window : Option Window) : Option Window :=
  window.filter fun w => now < w.ends

/-- What the store keeps of a window of a counter. -/
def Counter.window (duration : ℕ) (c : Counter) : Window :=
  ⟨c.opened + duration, min c.total (2 ^ 64 - 1)⟩

/-- From an instant on, the window of a key is that of a counter, while it did not end. -/
def Agrees (duration now : ℕ) (window : Option Window) (counter : Option Counter) : Prop :=
  ∀ t, now ≤ t → liveAt t window = (openAt duration t counter).map (Counter.window duration)

theorem map_openAt (duration t : ℕ) (counter : Option Counter) :
  (openAt duration t counter).map (Counter.window duration)
    = liveAt t (counter.map (Counter.window duration))
  := by
  rw [openAt, liveAt, Option.filter_map]
  rfl

theorem Agrees.refl (duration now : ℕ) (counter : Option Counter) :
  Agrees duration now (counter.map (Counter.window duration)) counter
  := by
  intro t _
  rw [map_openAt]

variable {counter : Option Counter}

variable {window : Option Window}

theorem Agrees.later {duration now now' : ℕ}
    (h : Agrees duration now window counter) (hnow : now ≤ now') :
  Agrees duration now' window counter
  := fun t ht => h t (hnow.trans ht)

/-- A sweep leaves what did not end. -/
theorem MemoryStore.liveAt_sweep (store : MemoryStore) {now t : ℕ} (h : now ≤ t) (key : Bytes) :
  liveAt t ((store.sweep now).windows.lookup key) = liveAt t (store.windows.lookup key)
  := by
  rw [sweep, List.lookup_filter store.distinct (fun w => now < w.ends), liveAt, liveAt,
    Option.filter_filter]
  congr 1
  funext w
  rw [← Bool.decide_and, decide_eq_decide]
  omega

theorem currentWindow_eq (now duration : ℕ) (window : Option Window) :
  currentWindow now duration window = (liveAt now window).getD ⟨now + duration, 0⟩
  := by
  cases window with
  | none => rfl
  | some w =>
      rw [currentWindow, liveAt, Option.filter_some]
      split_ifs with hended hlive hlive
      · rw [decide_eq_true_eq] at hlive
        omega
      · rfl
      · rfl
      · rw [decide_eq_true_eq] at hlive
        omega

/-- A counter charges the window that it would have in the store. -/
theorem currentWindow_of_agrees {duration now : ℕ} (h : Agrees duration now window counter) :
  currentWindow now duration window
    = ((openAt duration now counter).getD ⟨now, 0⟩).window duration
  := by
  rw [currentWindow_eq, h now le_rfl]
  cases openAt duration now counter with
  | none => rfl
  | some c => rfl

namespace MemoryStore

variable (store : MemoryStore) (now : ℕ) (key : Bytes) (points limit duration : ℕ)

theorem lookup_put_self (window : Window) :
  (store.put key window).windows.lookup key = some window
  := List.lookup_cons_self

theorem lookup_put_of_ne {key key' : Bytes} (hne : key' ≠ key) (window : Window) :
  (store.put key window).windows.lookup key' = store.windows.lookup key'
  := by
  rw [put, List.lookup_cons, beq_false_of_ne hne]
  exact store.lookup_reset_of_ne hne

/-- What is charged to a key does not depend on a sweep. -/
theorem consume_self :
  (store.consume now key points limit duration).1
      = (currentWindow now duration (store.windows.lookup key)).status now points limit duration
    ∧ (store.consume now key points limit duration).2.windows.lookup key
      = some ⟨(currentWindow now duration (store.windows.lookup key)).ends,
        (store.consume now key points limit duration).1.consumedPoints⟩
  := by
  have hswept : currentWindow now duration
      ((if sweepThreshold ≤ store.windows.length then store.sweep now else store).windows.lookup key)
        = currentWindow now duration (store.windows.lookup key) := by
    rw [currentWindow_eq, currentWindow_eq]
    split_ifs
    · rw [store.liveAt_sweep le_rfl]
    · rfl
  constructor
  · rw [consume, hswept]
  · rw [consume, hswept, lookup_put_self]

/-- What is charged to a key changes no window of another key that did not end. -/
theorem consume_of_ne {key key' : Bytes} (hne : key' ≠ key) {t : ℕ} (ht : now ≤ t) :
  liveAt t ((store.consume now key points limit duration).2.windows.lookup key')
    = liveAt t (store.windows.lookup key')
  := by
  rw [consume, lookup_put_of_ne _ hne]
  split_ifs
  · exact store.liveAt_sweep ht key'
  · rfl

end MemoryStore

def RateLimitStatus.withFirst (s : RateLimitStatus) (first : Bool) : RateLimitStatus :=
  { s with isFirstInDuration := first }

/-- A charge of a window counts up to the largest number of 64 bits. -/
theorem Counter.status_window (c : Counter) (limit duration points now : ℕ) (opens : Bool) :
  (c.window duration).status now points limit duration
    = (Counter.status limit duration c.opened (c.total + points) now opens).withFirst
      (c.total = 0)
  := by
  have hconsumed : min (min c.total (2 ^ 64 - 1) + points) (2 ^ 64 - 1)
      = min (c.total + points) (2 ^ 64 - 1) := by omega
  have hfirst : min c.total (2 ^ 64 - 1) = 0 ↔ c.total = 0 := by omega
  simp only [Window.status, Counter.window, Counter.status, RateLimitStatus.withFirst, hconsumed,
    hfirst]

/-- A counter says that a call is the first one if it opens a window. -/
theorem Counter.step_withFirst (limit duration : ℕ) (counter : Option Counter) (call : StoreCall) :
  (Counter.step limit duration counter call).1.status.map
      (·.withFirst (openAt duration call.now counter).isNone)
    = (Counter.step limit duration counter call).1.status
  := by
  rw [Counter.step]
  cases call.op with
  | reset => rfl
  | consume points => rfl

theorem Counter.step_call (limit duration : ℕ) (counter : Option Counter) (call : StoreCall) :
  (Counter.step limit duration counter call).1.call = call
  := by
  rw [Counter.step]
  cases call.op with
  | reset => rfl
  | consume points => rfl

/-- A call of a key answers as its counter, but for what it says of the first call, and goes on as
it. -/
theorem MemoryStore.call_self {limit duration : Bytes → ℕ} {store : MemoryStore} {call : StoreCall}
    (h : Agrees (duration call.key) call.now (store.windows.lookup call.key) counter) :
  (store.call limit duration call).1
      = (Counter.step (limit call.key) (duration call.key) counter call).1.status.map (fun s =>
        s.withFirst (((openAt (duration call.key) call.now counter).getD ⟨call.now, 0⟩).total = 0))
    ∧ Agrees (duration call.key) call.now
      ((store.call limit duration call).2.windows.lookup call.key)
      (Counter.step (limit call.key) (duration call.key) counter call).2
  := by
  rw [MemoryStore.call, Counter.step]
  cases call.op with
  | reset =>
      refine ⟨rfl, ?_⟩
      rw [lookup_reset_self]
      exact Agrees.refl _ _ none
  | consume points =>
      obtain ⟨hstatus, hlookup⟩ := store.consume_self call.now call.key points (limit call.key)
        (duration call.key)
      rw [currentWindow_of_agrees h] at hstatus hlookup
      have hwindow := Counter.status_window
        ((openAt (duration call.key) call.now counter).getD ⟨call.now, 0⟩) (limit call.key)
        (duration call.key) points call.now (openAt (duration call.key) call.now counter).isNone
      rw [hwindow] at hstatus
      dsimp only
      rw [hstatus, hlookup, hstatus]
      generalize (openAt (duration call.key) call.now counter).getD ⟨call.now, 0⟩ = c
      exact ⟨rfl, Agrees.refl _ _ (some ⟨c.opened, c.total + points⟩)⟩

theorem MemoryStore.call_of_ne {limit duration : Bytes → ℕ} {store : MemoryStore} {call : StoreCall}
    {key : Bytes} (hne : key ≠ call.key) {d : ℕ}
    (h : Agrees d call.now (store.windows.lookup key) counter) :
  Agrees d call.now ((store.call limit duration call).2.windows.lookup key) counter
  := by
  intro t ht
  rw [← h t ht, MemoryStore.call]
  cases call.op with
  | reset =>
      dsimp only
      rw [lookup_reset_of_ne _ hne]
  | consume points =>
      dsimp only
      rw [consume_of_ne _ _ _ _ _ hne ht]

/-! ### Runs -/

section

variable {limit duration : Bytes → ℕ} {key : Bytes}

/-- The results of a key are those of its counter, as far as they are viewed. The flag of the first
call may be told apart only in counters that do not come up. -/
theorem MemoryStore.run_eq {γ : Type} {view : RateLimitStatus → γ} {Holds : Option Counter → Prop}
    (hview : ∀ counter, Holds counter → ∀ now (s : RateLimitStatus),
      view (s.withFirst (((openAt (duration key) now counter).getD ⟨now, 0⟩).total = 0))
        = view (s.withFirst (openAt (duration key) now counter).isNone))
    {calls : List StoreCall} (hordered : calls.Pairwise fun c c' => c.now ≤ c'.now)
    (hstep : ∀ call ∈ calls, call.key = key → ∀ counter, Holds counter →
      Holds (Counter.step (limit key) (duration key) counter call).2)
    {store : MemoryStore} {counter : Option Counter} (hholds : Holds counter) {now : ℕ}
    (hnow : ∀ call ∈ calls, now ≤ call.now)
    (hagrees : Agrees (duration key) now (store.windows.lookup key) counter) :
  ((store.run limit duration calls).filter fun r => r.1.key = key).map
      (fun r => (r.1, r.2.map view))
    = (Counter.run (limit key) (duration key) counter (calls.filter fun c => c.key = key)).map
      fun a => (a.call, a.status.map view)
  := by
  induction calls generalizing store counter now with
  | nil => rfl
  | cons call calls ih =>
      obtain ⟨hcall, hordered⟩ := List.pairwise_cons.mp hordered
      have hlater := hagrees.later (hnow call List.mem_cons_self)
      have hstep' : ∀ call ∈ calls, call.key = key → ∀ counter, Holds counter →
          Holds (Counter.step (limit key) (duration key) counter call).2 :=
        fun c hc => hstep c (List.mem_cons_of_mem call hc)
      rw [MemoryStore.run]
      by_cases hkey : call.key = key
      · subst hkey
        obtain ⟨hresult, hagrees'⟩ := @call_self _ limit _ _ _ hlater
        have hsame : (store.call limit duration call).1.map view
            = (Counter.step (limit call.key) (duration call.key) counter call).1.status.map view := by
          rw [hresult, Option.map_map]
          conv_rhs => rw [← Counter.step_withFirst, Option.map_map]
          congr 1
          funext s
          exact hview counter hholds call.now s
        rw [List.filter_cons_of_pos (by simp), List.filter_cons_of_pos (by simp), Counter.run,
          List.map_cons, List.map_cons,
          ih hordered hstep' (hstep call List.mem_cons_self rfl counter hholds) hcall hagrees',
          hsame, Counter.step_call]
      · rw [List.filter_cons_of_neg (by simpa using hkey),
          List.filter_cons_of_neg (by simpa using hkey)]
        exact ih hordered hstep' hholds hcall (call_of_ne (Ne.symm hkey) hlater)

end

/-! ### Windows -/

def StoreOp.points : StoreOp → ℕ
  | .consume points => points
  | .reset => 0

/-- The points of the calls that did not exceed the limit. -/
def admitted : List Answer → ℕ
  | [] => 0
  | a :: answers =>
      (if a.status.any fun s => !s.exceeded then a.call.op.points else 0) + admitted answers

/-- The points that are admitted within one window are within a limit. -/
def WithinLimit (limit : ℕ) (answers : List Answer) : Prop :=
  ∀ before first window after, answers = before ++ first :: (window ++ after) →
    (∀ a ∈ window, a.opens = false) → admitted (first :: window) ≤ limit

section

variable {limit duration : ℕ}

variable {counter : Option Counter}

theorem Counter.run_cons {calls : List StoreCall} {a : Answer}
    {answers : List Answer} (h : Counter.run limit duration counter calls = a :: answers) :
  ∃ call calls', a = (Counter.step limit duration counter call).1
    ∧ Counter.run limit duration (Counter.step limit duration counter call).2 calls' = answers
  := by
  cases calls with
  | nil => cases h
  | cons call calls' =>
      obtain ⟨ha, hanswers⟩ := List.cons.inj h
      exact ⟨call, calls', ha.symm, hanswers⟩

theorem Counter.step_reset {call : StoreCall} (h : call.op = .reset) :
  Counter.step limit duration counter call = (⟨call, none, false⟩, none)
  := by
  rw [Counter.step, h]

theorem Counter.step_consume {call : StoreCall} {points : ℕ}
    (h : call.op = .consume points) {c : Counter}
    (hc : (openAt duration call.now counter).getD ⟨call.now, 0⟩ = c) :
  Counter.step limit duration counter call
    = (⟨call, some (Counter.status limit duration c.opened (c.total + points) call.now
        (openAt duration call.now counter).isNone),
        (openAt duration call.now counter).isNone⟩,
      some ⟨c.opened, c.total + points⟩)
  := by
  rw [Counter.step, h, ← hc]

/-- Nothing is admitted, or what is admitted in a window is within the limit. -/
def Bounded (limit : ℕ) (counter : Option Counter) (admitted : ℕ) : Prop :=
  admitted = 0 ∨ ∃ c, counter = some c ∧ c.total + admitted ≤ limit

/-- A charge is admitted if the window is within the limit with it. -/
theorem admitted_charge (hlimit : limit < 2 ^ 64 - 1) {call : StoreCall} {points : ℕ}
    (h : call.op = .consume points) {opened total now : ℕ} {first opens : Bool}
    {window : List Answer} (hwindow : Bounded limit (some ⟨opened, total + points⟩) (admitted window)) :
  admitted (⟨call, some (Counter.status limit duration opened (total + points) now first), opens⟩
      :: window) = 0
    ∨ total + admitted (⟨call, some (Counter.status limit duration opened (total + points) now
      first), opens⟩ :: window) ≤ limit
  := by
  have hrest : admitted window = 0 ∨ total + points + admitted window ≤ limit := by
    rcases hwindow with hzero | ⟨c, hc, hle⟩
    · exact .inl hzero
    · cases hc
      exact .inr hle
  have hadmitted : admitted (⟨call, some (Counter.status limit duration opened (total + points) now
      first), opens⟩ :: window)
        = (if !decide (limit < min (total + points) (2 ^ 64 - 1)) then call.op.points else 0)
          + admitted window := rfl
  rw [hadmitted, h, StoreOp.points]
  by_cases hexceeded : limit < min (total + points) (2 ^ 64 - 1)
  · rw [decide_eq_true hexceeded, Bool.not_true, if_neg Bool.false_ne_true]
    omega
  · rw [decide_eq_false hexceeded, Bool.not_false, if_pos rfl]
    omega

/-- Calls that open no window admit nothing, or keep within the limit what is charged in the window
that is open. -/
theorem bounded_of_no_opening (hlimit : limit < 2 ^ 64 - 1) {window after : List Answer}
    {calls : List StoreCall}
    (hrun : Counter.run limit duration counter calls = window ++ after)
    (hopens : ∀ a ∈ window, a.opens = false) :
  Bounded limit counter (admitted window)
  := by
  induction window generalizing counter calls with
  | nil => exact .inl rfl
  | cons a window ih =>
      obtain ⟨hopen, hlater⟩ := List.forall_mem_cons.mp hopens
      obtain ⟨call, calls', rfl, hrest⟩ := Counter.run_cons hrun
      have hwindow := ih hrest hlater
      cases hop : call.op with
      | reset =>
          rw [Counter.step_reset hop] at hwindow ⊢
          rcases hwindow with hzero | ⟨c, hc, -⟩
          · exact .inl ((Nat.zero_add _).trans hzero)
          · cases hc
      | consume points =>
          cases hlive : openAt duration call.now counter with
          | none =>
              rw [Counter.step_consume hop rfl, hlive] at hopen
              cases hopen
          | some c =>
              rw [Counter.step_consume (c := c) hop (by rw [hlive, Option.getD_some])] at hwindow ⊢
              exact (admitted_charge hlimit hop hwindow).imp_right fun hle =>
                ⟨c, (Option.filter_eq_some_iff.mp hlive).1, hle⟩

/-- The points that are admitted within one window of a counter are within its limit. -/
theorem withinLimit_run (hlimit : limit < 2 ^ 64 - 1) (counter : Option Counter)
    (calls : List StoreCall) :
  WithinLimit limit (Counter.run limit duration counter calls)
  := by
  intro before first window after hrun hopens
  induction before generalizing counter calls with
  | cons a before ih =>
      obtain ⟨call, calls', -, hrest⟩ := Counter.run_cons hrun
      exact ih _ calls' hrest
  | nil =>
      obtain ⟨call, calls', rfl, hrest⟩ := Counter.run_cons hrun
      have hwindow := bounded_of_no_opening hlimit hrest hopens
      cases hop : call.op with
      | reset =>
          rw [Counter.step_reset hop] at hwindow ⊢
          rcases hwindow with hzero | ⟨c, hc, -⟩
          · exact ((Nat.zero_add _).trans hzero).trans_le (Nat.zero_le limit)
          · cases hc
      | consume points =>
          rw [Counter.step_consume hop rfl] at hwindow ⊢
          apply (admitted_charge hlimit hop hwindow).elim
          · intro hzero
            exact hzero.trans_le (Nat.zero_le limit)
          · intro hle
            exact (Nat.le_add_left _ _).trans hle

end

/-! ### Refinement -/

section

variable (limit duration : Bytes → ℕ) (calls : List StoreCall) (key : Bytes)

/-- What the store answers to the calls of a key, among calls of all keys. -/
def results : List (StoreCall × Option RateLimitStatus) :=
  (MemoryStore.new.run limit duration calls).filter fun r => r.1.key = key

/-- What the counter of a key answers to its calls. -/
def answers : List Answer :=
  Counter.run (limit key) (duration key) none (calls.filter fun c => c.key = key)

/-- The store answers as one counter for each key, each of which keeps within its limit. -/
def Refines : Prop :=
  ∀ key, results limit duration calls key
      = (answers limit duration calls key).map (fun a => (a.call, a.status))
    ∧ WithinLimit (limit key) (answers limit duration calls key)

end

/-- A counter in which something was charged says that a call is the first one if it opens a
window. -/
theorem total_eq_zero_iff {duration now : ℕ} (h : ∀ c ∈ counter, 0 < c.total) :
  decide (((openAt duration now counter).getD ⟨now, 0⟩).total = 0)
    = (openAt duration now counter).isNone
  := by
  cases hlive : openAt duration now counter with
  | none => rfl
  | some c =>
      have hpos := h c (Option.filter_eq_some_iff.mp hlive).1
      exact decide_eq_false (Nat.pos_iff_ne_zero.mp hpos)

theorem Counter.step_pos {limit duration : ℕ} {call : StoreCall} (hop : call.op ≠ .consume 0) :
  ∀ c ∈ (Counter.step limit duration counter call).2, 0 < c.total
  := by
  cases h : call.op with
  | reset =>
      rw [Counter.step_reset h]
      nofun
  | consume points =>
      rw [Counter.step_consume h rfl]
      rintro c ⟨⟩
      have hpos : points ≠ 0 := by
        rintro rfl
        exact hop h
      dsimp only
      omega

/-- The store answers as one counter for each key, whatever it sweeps, but for what it says of the
first call of a window; that agrees too if each call charges something. The points that a counter
admits in a window are within its limit, unless that is the largest number of 64 bits. -/
theorem MemoryStore.run_refines {limit duration : Bytes → ℕ} {calls : List StoreCall}
    (hordered : calls.Pairwise fun c c' => c.now ≤ c'.now) (key : Bytes) :
  (results limit duration calls key).map (fun r => (r.1, r.2.map (·.withFirst false)))
      = (answers limit duration calls key).map (fun a => (a.call, a.status.map (·.withFirst false)))
    ∧ ((∀ call ∈ calls, call.key = key → call.op ≠ .consume 0) →
      results limit duration calls key
        = (answers limit duration calls key).map fun a => (a.call, a.status))
    ∧ (limit key < 2 ^ 64 - 1 → WithinLimit (limit key) (answers limit duration calls key))
  := by
  have hagrees : Agrees (duration key) 0 (MemoryStore.new.windows.lookup key) none :=
    Agrees.refl _ _ none
  refine ⟨?_, ?_, fun hlimit => withinLimit_run hlimit _ _⟩
  · apply @run_eq limit duration key _ (·.withFirst false) (fun _ => True) _ calls hordered
      (fun _ _ _ _ _ => trivial) MemoryStore.new none trivial 0 (fun _ _ => Nat.zero_le _) hagrees
    intro counter _ now s
    rfl
  · intro hcharges
    have hnone : ∀ c ∈ (none : Option Counter), 0 < c.total := nofun
    have hsame := @run_eq limit duration key _ id (fun counter => ∀ c ∈ counter, 0 < c.total)
      (fun counter hholds now s => by rw [total_eq_zero_iff hholds]) calls hordered
      (fun call hcall hkey counter _ => Counter.step_pos (hcharges call hcall hkey))
      MemoryStore.new none hnone 0 (fun _ _ => Nat.zero_le _) hagrees
    rw [results, answers]
    simpa using hsame

/-- Calls of two keys: the window of the first one is reset and begins again, and ends before its
last call. -/
def burst : List StoreCall :=
  [⟨0, [], .consume 2⟩, ⟨1, [1], .consume 4⟩, ⟨5, [], .consume 2⟩, ⟨6, [], .reset⟩,
    ⟨7, [], .consume 3⟩, ⟨8, [1], .consume 1⟩, ⟨30, [], .consume 1⟩]

/-- The calls of the first key are answered as by its counter. -/
theorem MemoryStore.burst_refines :
  burst.Pairwise (fun c c' => c.now ≤ c'.now)
    ∧ results (fun _ => 3) (fun _ => 10) burst []
      = (answers (fun _ => 3) (fun _ => 10) burst []).map (fun a => (a.call, a.status))
    ∧ WithinLimit 3 (answers (fun _ => 3) (fun _ => 10) burst [])
  := by
  have hordered : burst.Pairwise (fun c c' => c.now ≤ c'.now) := by decide
  obtain ⟨-, hsame, hwithin⟩ :=
    @MemoryStore.run_refines (fun _ => 3) (fun _ => 10) burst hordered []
  exact ⟨hordered, hsame (by decide), hwithin (by decide)⟩

/-- With the largest limit the count stops at it, and two charges of all points are both admitted. A
charge of no points opens a window, and the next one is still said to be the first. -/
theorem not_refines :
  ¬Refines (fun _ => 2 ^ 64 - 1) (fun _ => 10)
      [⟨0, [], .consume (2 ^ 64 - 1)⟩, ⟨0, [], .consume (2 ^ 64 - 1)⟩]
    ∧ ¬Refines (fun _ => 3) (fun _ => 10) [⟨0, [], .consume 0⟩, ⟨0, [], .consume 1⟩]
  := by
  constructor
  · intro h
    have hwithin := (h []).2 [] _ [_] [] rfl (by decide)
    exact absurd hwithin (by decide)
  · intro h
    exact absurd (h []).1 (by decide)

end Shrike.Xrpc
