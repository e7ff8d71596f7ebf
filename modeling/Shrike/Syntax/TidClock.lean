import Mathlib.Data.List.Pairwise
import Shrike.Syntax.Identifier

/-!
# The clock of TIDs

A clock issues TIDs, each after all before it, to threads that compete for the last timestamp by
compare and exchange. The timestamps that it issues end at a ceiling, where the clock stays.
-/

namespace Shrike.Syntax

/-! ### The parts of a TID -/

namespace Tid

/-- The largest timestamp of a TID that a clock issues. -/
def maxMicros : UInt64 := ((1 : UInt64) <<< 53) - 1

/-- The TID of a 64-bit value, without its high bit. -/
def fromInteger (v : UInt64) : Tid := ⟨v &&& ~~~((1 : UInt64) <<< 63)⟩

/-- The timestamp in microseconds. -/
def timestampMicros (tid : Tid) : UInt64 := tid.value >>> 10

/-- The clock ID. -/
def clockId (tid : Tid) : UInt16 := (tid.value &&& 0x3ff).toUInt16

/-- TIDs are in the order of their values. -/
instance instLT : LT Tid := ⟨fun a b => a.value < b.value⟩

instance decidableLT (a b : Tid) : Decidable (a < b) := inferInstanceAs (Decidable (a.value < b.value))

theorem lt_iff {a b : Tid} :
  a < b ↔ a.value.toNat < b.value.toNat
  := UInt64.lt_iff_toNat_lt

theorem lt_trans {a b c : Tid} (hab : a < b) (hbc : b < c) :
  a < c
  := lt_iff.mpr ((lt_iff.mp hab).trans (lt_iff.mp hbc))

theorem toNat_fromInteger (v : UInt64) :
  (fromInteger v).value.toNat = v.toNat % 2 ^ 63
  := by
  have hmask : (~~~((1 : UInt64) <<< 63)).toNat = 2 ^ 63 - 1 := by decide
  rw [fromInteger, UInt64.toNat_and, hmask, Nat.and_two_pow_sub_one_eq_mod]

theorem toNat_timestampMicros (tid : Tid) :
  tid.timestampMicros.toNat = tid.value.toNat / 2 ^ 10
  := by
  rw [timestampMicros, UInt64.toNat_shiftRight]
  exact Nat.shiftRight_eq_div_pow _ _

theorem toNat_maxMicros :
  maxMicros.toNat = 2 ^ 53 - 1
  := by decide

/-- A TID that is read may have a timestamp above the ceiling, in 54 bits. -/
theorem timestampMicros_lt (tid : Tid) :
  tid.timestampMicros.toNat < 2 ^ 54
  := by
  have hlt := tid.value.toNat_lt
  rw [toNat_timestampMicros]
  omega

end Tid

/-! ### The clock -/

/-- The clock: the last timestamp that it issued or observed, and its ID. -/
structure TidClock where
  last : UInt64
  clockId : UInt16

namespace TidClock

/-- A new clock with an ID of 10 bits. -/
def new (clockId : UInt16) : Except String TidClock :=
  if 1024 ≤ clockId then .error "clock_id must fit in 10 bits" else .ok ⟨0, clockId⟩

/-- Advance the clock past a TID. -/
def observe (clock : TidClock) (tid : Tid) : TidClock :=
  { clock with last := max clock.last tid.timestampMicros }

/-- The timestamp that is issued after another one at a time of the system clock. -/
def timestampAfter (prev now : UInt64) : UInt64 :=
  let ts := if now > prev then now else prev + 1
  min ts Tid.maxMicros

/-- The TID of a timestamp. -/
def tidAt (clock : TidClock) (ts : UInt64) : Tid :=
  .fromInteger (ts <<< 10 ||| clock.clockId.toUInt64)

/-- The next TID, when no other thread comes between and the system clock shows a time. -/
def next (clock : TidClock) (now : UInt64) : Tid × TidClock :=
  let ts := timestampAfter clock.last now
  (clock.tidAt ts, { clock with last := ts })

variable {events : List Event} {clock : TidClock} {ts prev : UInt64} {s s' : Threads}

/-- The timestamp after another one is later, until the ceiling. -/
theorem toNat_timestampAfter (h : prev.toNat < 2 ^ 54) (now : UInt64) :
  (timestampAfter prev now).toNat ≤ Tid.maxMicros.toNat
    ∧ (prev.toNat < (timestampAfter prev now).toNat
      ∨ Tid.maxMicros.toNat ≤ prev.toNat
        ∧ (timestampAfter prev now).toNat = Tid.maxMicros.toNat)
  := by
  have hadd : (prev + 1).toNat = prev.toNat + 1 := by
    rw [UInt64.toNat_add]
    exact Nat.mod_eq_of_lt (by simp only [UInt64.reduceToNat]; omega)
  have hcandidate : prev.toNat < (if now > prev then now else prev + 1).toNat := by
    split_ifs with hnow
    · exact UInt64.lt_iff_toNat_lt.mp hnow
    · omega
  rw [timestampAfter]
  generalize (if now > prev then now else prev + 1) = ts at hcandidate ⊢
  have hmin : min ts Tid.maxMicros = if ts ≤ Tid.maxMicros then ts else Tid.maxMicros := rfl
  rw [hmin]
  split_ifs with hle
  · rw [UInt64.le_iff_toNat_le] at hle
    omega
  · omega

/-- The value of a TID is made up of its timestamp and the ID of the clock. -/
theorem toNat_tidAt (hid : clock.clockId.toNat < 1024) (hts : ts.toNat ≤ Tid.maxMicros.toNat) :
  (clock.tidAt ts).value.toNat = ts.toNat * 2 ^ 10 + clock.clockId.toNat
  := by
  rw [Tid.toNat_maxMicros] at hts
  have hshift : (ts <<< 10).toNat = ts.toNat <<< 10 := by
    rw [UInt64.toNat_shiftLeft]
    apply Nat.mod_eq_of_lt
    rw [Nat.shiftLeft_eq]
    show ts.toNat * 2 ^ 10 < 2 ^ 64
    omega
  have hor : (ts <<< 10 ||| clock.clockId.toUInt64).toNat
      = ts.toNat * 2 ^ 10 + clock.clockId.toNat := by
    rw [UInt64.toNat_or, hshift, UInt16.toNat_toUInt64,
      ← Nat.shiftLeft_add_eq_or_of_lt (by omega), Nat.shiftLeft_eq]
  rw [tidAt, Tid.toNat_fromInteger, hor]
  apply Nat.mod_eq_of_lt
  omega

theorem timestampMicros_tidAt (hid : clock.clockId.toNat < 1024)
    (hts : ts.toNat ≤ Tid.maxMicros.toNat) :
  (clock.tidAt ts).timestampMicros.toNat = ts.toNat
  := by
  rw [Tid.toNat_timestampMicros, toNat_tidAt hid hts]
  omega

/-! ### Threads -/

/-- Where a thread is in the loop that issues a TID. -/
inductive Phase where
  | idle
  | looping
  | loaded (prev : UInt64)
  | ready (prev ts : UInt64)

/-- A clock and the threads that use it. -/
structure Threads where
  clock : TidClock
  phase : ℕ → Phase

/-- What happens to a clock. -/
inductive Event where
  | issued (thread : ℕ) (tid : Tid)
  | observed (thread : ℕ) (tid : Tid)

/-- The TID of an event. -/
def Event.tid : Event → Tid
  | .issued _ tid => tid
  | .observed _ tid => tid

/-- The threads after one of them has moved on. -/
def Threads.move (s : Threads) (i : ℕ) (phase : Phase) : Threads :=
  { s with phase := Function.update s.phase i phase }

theorem Threads.move_phase_self (s : Threads) (i : ℕ) (phase : Phase) :
  (s.move i phase).phase i = phase
  := Function.update_self ..

theorem Threads.move_phase_of_ne {i j : ℕ} (h : j ≠ i) {phase : Phase} :
  (s.move i phase).phase j = s.phase j
  := Function.update_of_ne h ..

/-- A step of a thread. The exchange may fail for no reason. -/
inductive Step : Threads → Option Event → Threads → Prop
  | call (s : Threads) {i} (h : s.phase i = .idle) : Step s none (s.move i .looping)
  | load (s : Threads) {i} (h : s.phase i = .looping) :
      Step s none (s.move i (.loaded s.clock.last))
  | time (s : Threads) {i prev} (h : s.phase i = .loaded prev) (now : UInt64) :
      Step s none (s.move i (.ready prev (timestampAfter prev now)))
  | fail (s : Threads) {i prev ts} (h : s.phase i = .ready prev ts) :
      Step s none (s.move i .looping)
  | exchange (s : Threads) {i prev ts} (h : s.phase i = .ready prev ts)
      (hlast : s.clock.last = prev) :
      Step s (some (.issued i (s.clock.tidAt ts)))
        { s.move i .idle with clock := { s.clock with last := ts } }
  | observe (s : Threads) {i} (h : s.phase i = .idle) (tid : Tid) :
      Step s (some (.observed i tid)) { s with clock := s.clock.observe tid }

/-- The steps of any number of threads since a clock was made, and what happened in them. -/
inductive Run (clockId : UInt16) : List Event → Threads → Prop
  | new {clock : TidClock} (h : TidClock.new clockId = .ok clock) :
      Run clockId [] ⟨clock, fun _ => .idle⟩
  | step {events : List Event} {s s' : Threads} {e : Option Event} (run : Run clockId events s)
      (h : Step s e s') : Run clockId (events ++ e.toList) s'

/-- The TID that the later event issued, if it did, is after that of the earlier event, unless that
one has reached the ceiling. -/
def Precedes (e e' : Event) : Prop :=
  ∀ i tid, e' = .issued i tid → e.tid < tid ∨ Tid.maxMicros ≤ e.tid.timestampMicros

/-- What holds of a clock after some events. -/
structure Invariant (events : List Event) (s : Threads) : Prop where
  clockId : s.clock.clockId.toNat < 1024
  bounded : s.clock.last.toNat < 2 ^ 54
  ready : ∀ i prev ts, s.phase i = .ready prev ts → ∃ now, ts = timestampAfter prev now
  passed : ∀ e ∈ events, min e.tid.timestampMicros.toNat Tid.maxMicros.toNat ≤ s.clock.last.toNat
  ordered : events.Pairwise Precedes

theorem invariant_new {clockId : UInt16} (h : TidClock.new clockId = .ok clock) :
  Invariant [] ⟨clock, fun _ => .idle⟩
  := by
  rw [TidClock.new] at h
  split_ifs at h with hid
  cases h
  refine ⟨?_, ?_, nofun, nofun, List.Pairwise.nil⟩
  · rw [UInt16.le_iff_toNat_le] at hid
    exact Nat.lt_of_not_le hid
  · show (0 : UInt64).toNat < 2 ^ 54
    decide

theorem toNat_observe (clock : TidClock) (tid : Tid) :
  (clock.observe tid).last.toNat = max clock.last.toNat tid.timestampMicros.toNat
  := by
  have hmax : (clock.observe tid).last
      = if clock.last ≤ tid.timestampMicros then tid.timestampMicros else clock.last := rfl
  rw [hmax, Nat.max_def]
  simp only [UInt64.le_iff_toNat_le]
  split_ifs <;> rfl

/-- Moving on without an exchange keeps the clock as it is. -/
theorem Invariant.move (h : Invariant events s) (i : ℕ)
    {phase : Phase} (hphase : ∀ prev ts, phase = .ready prev ts → ∃ now, ts = timestampAfter prev now) :
  Invariant events (s.move i phase)
  := by
  refine ⟨h.clockId, h.bounded, ?_, h.passed, h.ordered⟩
  intro j prev ts hj
  by_cases hij : j = i
  · subst hij
    rw [Threads.move_phase_self] at hj
    exact hphase prev ts hj
  · rw [Threads.move_phase_of_ne hij] at hj
    exact h.ready j prev ts hj

/-- An exchange issues a TID after those of all events. -/
theorem Invariant.exchange (h : Invariant events s) {i : ℕ}
    (hready : s.phase i = .ready s.clock.last ts) :
  Invariant (events ++ [.issued i (s.clock.tidAt ts)])
    { s.move i .idle with clock := { s.clock with last := ts } }
  := by
  obtain ⟨now, rfl⟩ := h.ready i _ _ hready
  obtain ⟨hle, hlt⟩ := toNat_timestampAfter h.bounded now
  generalize timestampAfter s.clock.last now = ts at hle hlt hready ⊢
  have hidle : Invariant events (s.move i .idle) := h.move i nofun
  have hbounded : ts.toNat < 2 ^ 54 := by
    rw [Tid.toNat_maxMicros] at hle
    omega
  refine ⟨h.clockId, hbounded, hidle.ready, ?_, ?_⟩
  · intro e he
    show min e.tid.timestampMicros.toNat Tid.maxMicros.toNat ≤ ts.toNat
    rcases List.mem_append.mp he with he | he
    · have hpassed := h.passed e he
      omega
    · rw [List.mem_singleton.mp he]
      exact (min_le_left _ _).trans (timestampMicros_tidAt h.clockId hle).le
  · rw [List.pairwise_append]
    refine ⟨h.ordered, List.pairwise_singleton _ _, ?_⟩
    intro e he e' he' j tid heq
    rw [List.mem_singleton.mp he'] at heq
    cases heq
    by_cases hceiling : Tid.maxMicros.toNat ≤ e.tid.timestampMicros.toNat
    · exact .inr (UInt64.le_iff_toNat_le.mpr hceiling)
    · left
      have hpassed := h.passed e he
      have hbefore : e.tid.timestampMicros.toNat < ts.toNat := by omega
      rw [Tid.lt_iff, toNat_tidAt h.clockId hle]
      rw [Tid.toNat_timestampMicros] at hbefore
      omega

/-- A step keeps the invariant, with the event that happened in it. -/
theorem Invariant.step {e : Option Event} (h : Invariant events s) (hstep : Step s e s') :
  Invariant (events ++ e.toList) s'
  := by
  cases hstep with
  | call hi =>
      rw [Option.toList_none, List.append_nil]
      exact h.move _ nofun
  | load hi =>
      rw [Option.toList_none, List.append_nil]
      exact h.move _ nofun
  | time hi now =>
      rw [Option.toList_none, List.append_nil]
      apply h.move
      intro prev ts heq
      cases heq
      exact ⟨now, rfl⟩
  | fail hi =>
      rw [Option.toList_none, List.append_nil]
      exact h.move _ nofun
  | exchange hi hlast =>
      subst hlast
      exact h.exchange hi
  | observe hi tid =>
      have hlast := toNat_observe s.clock tid
      refine ⟨h.clockId, ?_, h.ready, ?_, ?_⟩
      · rw [hlast]
        exact max_lt h.bounded tid.timestampMicros_lt
      · intro e he
        rw [hlast]
        rcases List.mem_append.mp he with he | he
        · exact (h.passed e he).trans (le_max_left _ _)
        · rw [List.mem_singleton.mp he]
          exact (min_le_left _ _).trans (le_max_right _ _)
      · rw [Option.toList_some, List.pairwise_append]
        refine ⟨h.ordered, List.pairwise_singleton _ _, ?_⟩
        intro e he e' he' j tid' heq
        rw [List.mem_singleton.mp he'] at heq
        cases heq

/-- The invariant holds in every run. -/
theorem Run.invariant {clockId : UInt16} (run : Run clockId events s) :
  Invariant events s
  := by
  induction run with
  | new h => exact invariant_new h
  | step run h ih => exact ih.step h

end TidClock

end Shrike.Syntax
