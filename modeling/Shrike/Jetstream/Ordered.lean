import Mathlib.Order.Basic
import Shrike.Jetstream.Planner

/-!
# Downloads in order

The queue of downloads that run while the results before them are delivered. Whatever the order in
which downloads complete, their results are taken in the order in which they were given, and no
more of them are started than the queue has slots.
-/

namespace Shrike.Jetstream

variable {α : Type}

/-- A queue of downloads: the ones not started, the ones that run and the ones that wait to be
taken, each with its result, and whether a result is being delivered. -/
structure OrderedDownloads (α : Type) where
  input : List α
  jobs : List α
  ready : List α
  limit : ℕ
  exhausted : Bool
  current : Bool

namespace OrderedDownloads

/-- A queue that has started nothing. -/
def new (input : List α) (limit : ℕ) : OrderedDownloads α where
  input := input
  jobs := []
  ready := []
  limit := max limit 1
  exhausted := false
  current := false

/-- The slots that are taken. -/
def held (d : OrderedDownloads α) : ℕ := d.jobs.length + d.ready.length + d.current.toNat

/-- Start downloads while there are slots for them. -/
def fill (d : OrderedDownloads α) : OrderedDownloads α :=
  if d.exhausted = false ∧ d.held < d.limit then
    match _hinput : d.input with
    | [] => { d with exhausted := true }
    | job :: input => fill { d with jobs := d.jobs ++ [job], input }
  else d
termination_by d.input.length
decreasing_by
  rw [_hinput]
  exact Nat.lt_succ_self _

/-- One poll, in which `n` more downloads turn out to be complete from the front on. -/
def pollProgress (n : ℕ) (d : OrderedDownloads α) : OrderedDownloads α :=
  { d.fill with
    jobs := d.fill.jobs.drop n
    ready := d.fill.ready ++ d.fill.jobs.take n }

/-- Poll until there is a result to take, or nothing is left. There is no outcome while the next
result is waited for. -/
def nextAfter (d : OrderedDownloads α) : List ℕ → Option (Option α) × OrderedDownloads α
  | [] => (none, d)
  | n :: polls =>
      let d := d.pollProgress n
      match d.ready with
      | result :: ready => (some (some result), { d with ready, current := true })
      | [] =>
          if d.exhausted && d.jobs.isEmpty then (some none, d) else nextAfter d polls

/-- Take the next result. -/
def next (d : OrderedDownloads α) (polls : List ℕ) : Option (Option α) × OrderedDownloads α :=
  if polls.isEmpty then (none, d) else nextAfter { d with current := false } polls

/-- Poll while a result is delivered. -/
def during (d : OrderedDownloads α) (polls : List ℕ) : OrderedDownloads α :=
  polls.foldl (fun d n => d.pollProgress n) d

/-- The calls of the consumer, with the polls that each of them makes. -/
inductive Call where
  | next (polls : List ℕ)
  | during (polls : List ℕ)

/-- The outcomes of the calls for a next result that end, and the queue after the calls. -/
def run (d : OrderedDownloads α) : List Call → List (Option α) × OrderedDownloads α
  | [] => ([], d)
  | .next polls :: calls =>
      let (outcome, d) := d.next polls
      let (outcomes, d) := d.run calls
      (outcome.toList ++ outcomes, d)
  | .during polls :: calls => (d.during polls).run calls

/-! ### The order and the bound -/

/-- The invariant of a queue with a number of slots, for the results that are still to be
taken. -/
structure Holds (d : OrderedDownloads α) (limit : ℕ) (results : List α) : Prop where
  results : d.ready ++ d.jobs ++ d.input = results
  exhausted : d.exhausted = true → d.input = []
  slots : d.limit = limit
  bound : d.held ≤ limit

variable {d : OrderedDownloads α} {limit : ℕ} {results : List α}

/-- Filling keeps the invariant, and after it either every download was started or every slot is
taken. -/
theorem Holds.fill (h : d.Holds limit results) :
  d.fill.Holds limit results ∧ d.fill.ready = d.ready ∧ d.fill.current = d.current ∧
    (d.fill.exhausted = true ∨ limit ≤ d.fill.held)
  := by
  fun_induction OrderedDownloads.fill d with
  | case1 d _ hinput => exact ⟨⟨h.results, fun _ => hinput, h.slots, h.bound⟩, rfl, rfl, .inl rfl⟩
  | case2 d hroom job input hinput ih =>
      obtain ⟨hresults, -, rfl, -⟩ := h
      apply ih
      refine ⟨?_, fun hall => absurd (hroom.1.symm.trans hall) Bool.false_ne_true, rfl, ?_⟩
      · rw [← hresults, hinput]
        simp
      · have hlt := hroom.2
        rw [held] at hlt ⊢
        dsimp only
        rw [List.length_append, List.length_singleton]
        omega
  | case3 d hroom =>
      refine ⟨h, rfl, rfl, ?_⟩
      obtain ⟨-, -, rfl, -⟩ := h
      rw [not_and] at hroom
      cases hexhausted : d.exhausted with
      | true => exact .inl rfl
      | false => exact .inr (Nat.le_of_not_lt (hroom hexhausted))

theorem Holds.pollProgress (h : d.Holds limit results) (n : ℕ) :
  (d.pollProgress n).Holds limit results
  := by
  obtain ⟨⟨hresults, hexhausted, hlimit, hheld⟩, -⟩ := h.fill
  refine ⟨?_, hexhausted, hlimit, ?_⟩
  · rw [← hresults]
    simp [OrderedDownloads.pollProgress]
  · rw [OrderedDownloads.held] at hheld ⊢
    simp only [OrderedDownloads.pollProgress, List.length_append, List.length_take,
      List.length_drop]
    omega

/-- A poll in which the download at the front completes has a result, unless none is left. -/
theorem Holds.progresses (h : d.Holds limit results) (hlimit : 0 < limit)
    (hcurrent : d.current = false) {n : ℕ} (hn : 0 < n) (hready : (d.pollProgress n).ready = []) :
  (d.pollProgress n).exhausted = true ∧ (d.pollProgress n).jobs = []
  := by
  obtain ⟨-, -, hkept, hfull⟩ := h.fill
  simp only [OrderedDownloads.pollProgress, List.append_eq_nil_iff, List.take_eq_nil_iff] at hready ⊢
  have hjobs : d.fill.jobs = [] := hready.2.resolve_left (by omega)
  rw [hjobs, List.drop_nil]
  refine ⟨?_, rfl⟩
  rcases hfull with hfull | hfull
  · exact hfull
  · rw [OrderedDownloads.held, hjobs, hready.1, hkept, hcurrent] at hfull
    simp at hfull
    omega

/-- A call for the next result takes the first one that was not taken, and ends with nothing only
when all were taken. -/
theorem Holds.nextAfter (hlimit : 0 < limit) (polls : List ℕ) :
  ∀ {d : OrderedDownloads α}, d.Holds limit results → d.current = false →
    (∃ result rest, results = result :: rest ∧ (d.nextAfter polls).1 = some (some result) ∧
      (d.nextAfter polls).2.Holds limit rest) ∨
    results = [] ∧ (d.nextAfter polls).1 = some none ∧ (d.nextAfter polls).2.Holds limit results ∨
    polls.any (0 < ·) = false ∧ (d.nextAfter polls).1 = none ∧
      (d.nextAfter polls).2.Holds limit results
  := by
  induction polls with
  | nil =>
      intro d h _
      exact .inr (.inr ⟨rfl, rfl, h⟩)
  | cons n polls ih =>
      intro d h hcurrent
      have hpoll := h.pollProgress n
      have hprogresses := @Holds.progresses _ _ _ _ h hlimit hcurrent n
      have hkept : (d.pollProgress n).current = false := h.fill.2.2.1.trans hcurrent
      rw [OrderedDownloads.nextAfter]
      generalize d.pollProgress n = d at hpoll hprogresses hkept ⊢
      obtain ⟨hresults, hexhausted, hslots, hheld⟩ := id hpoll
      cases hready : d.ready with
      | cons result ready =>
          left
          rw [OrderedDownloads.held, hready, hkept] at hheld
          rw [hready, List.cons_append, List.cons_append] at hresults
          refine ⟨result, _, hresults.symm, rfl, rfl, hexhausted, hslots, ?_⟩
          rw [OrderedDownloads.held]
          simp at hheld ⊢
          omega
      | nil =>
          dsimp only
          split
          · rename_i hdone
            rw [Bool.and_eq_true, List.isEmpty_iff] at hdone
            rw [hready, hdone.2, hexhausted hdone.1] at hresults
            exact .inr (.inl ⟨hresults.symm, rfl, hpoll⟩)
          · rename_i hdone
            rcases ih hpoll hkept with h | h | ⟨hzero, h⟩
            · exact .inl h
            · exact .inr (.inl h)
            · refine .inr (.inr ⟨?_, h⟩)
              rw [List.any_cons, hzero, Bool.or_false, decide_eq_false_iff_not]
              intro hn
              obtain ⟨hall, hjobs⟩ := hprogresses hn hready
              exact hdone (by rw [hall, hjobs]; rfl)

theorem Holds.during (h : d.Holds limit results) (polls : List ℕ) :
  (d.during polls).Holds limit results
  := by
  induction polls generalizing d with
  | nil => exact h
  | cons n polls ih => exact ih (h.pollProgress n)

/-- The number of calls for a next result that see the download at the front complete. -/
def served : List Call → ℕ
  | [] => 0
  | .next polls :: calls => (polls.any (0 < ·)).toNat + served calls
  | .during _ :: calls => served calls

theorem Holds.run (hlimit : 0 < limit) {calls : List Call} :
  ∀ {d : OrderedDownloads α} {results : List α}, d.Holds limit results →
    ∃ count, served calls ≤ count ∧
      (d.run calls).1 = (results.take count).map some ++ List.replicate (count - results.length) none ∧
      (d.run calls).2.held ≤ limit
  := by
  induction calls with
  | nil =>
      intro d results h
      exact ⟨0, Nat.le_refl 0, by rw [List.take_zero, Nat.zero_sub]; rfl, h.bound⟩
  | cons call calls ih =>
      intro d results h
      cases call with
      | during polls => exact ih (h.during polls)
      | next polls =>
          cases polls with
          | nil =>
              obtain ⟨count, hserved, hrun⟩ := ih h
              exact ⟨count, by rw [served, List.any_nil]; simpa using hserved, hrun⟩
          | cons n polls =>
              have hfree : { d with current := false }.Holds limit results := by
                obtain ⟨hresults, hexhausted, hslots, hheld⟩ := h
                refine ⟨hresults, hexhausted, hslots, ?_⟩
                rw [OrderedDownloads.held] at hheld ⊢
                simp only [Bool.toNat_false]
                omega
              have hone := Bool.toNat_le ((n :: polls).any (0 < ·))
              rw [OrderedDownloads.run, OrderedDownloads.next, if_neg (by simp), served]
              rcases hfree.nextAfter hlimit (n :: polls) rfl with
                ⟨result, rest, rfl, houtcome, hnext⟩ | ⟨rfl, houtcome, hnext⟩ | ⟨hnone, houtcome, hnext⟩
              · obtain ⟨count, hserved, hrun, hheld⟩ := ih hnext
                refine ⟨count + 1, by omega, ?_, hheld⟩
                simp [houtcome, hrun]
              · obtain ⟨count, hserved, hrun, hheld⟩ := ih hnext
                refine ⟨count + 1, by omega, ?_, hheld⟩
                simp [houtcome, hrun, List.replicate_succ]
              · obtain ⟨count, hserved, hrun, hheld⟩ := ih hnext
                refine ⟨count, by rw [hnone]; simpa using hserved, ?_, hheld⟩
                simp [houtcome, hrun]

/-- Whatever the order in which downloads complete and however the calls are interleaved: the
results are taken in the order of the input, each of them once, and that nothing is left is reported
only after all of them; a call during which the download at the front completes has an outcome; and
the downloads that were started and are not delivered never take more than the slots. -/
theorem results_in_order (input : List α) (limit : ℕ) (calls : List Call) :
  ∃ count, served calls ≤ count ∧
    ((new input limit).run calls).1
      = (input.take count).map some ++ List.replicate (count - input.length) none ∧
    ((new input limit).run calls).2.held ≤ max limit 1
  := by
  apply Holds.run (by omega)
  exact ⟨rfl, fun h => absurd h Bool.false_ne_true, rfl, Nat.zero_le _⟩

end OrderedDownloads

end Shrike.Jetstream
