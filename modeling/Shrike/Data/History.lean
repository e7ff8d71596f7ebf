import Mathlib.Logic.Relation

/-!
# Runs with a history

The runs of a transition system whose steps have labels, with all steps they consist of.
-/

namespace History

variable {State Label : Type*}

/-- A step that was taken. -/
structure Event (State Label : Type*) where
  before : State
  label : Label
  after : State

/-- The runs from a state, with their steps, the latest first. -/
inductive Run (step : State → Label → State → Prop) (start : State) :
    List (Event State Label) → State → Prop where
  | refl : Run step start [] start
  | tail {events s s' label} (run : Run step start events s) (last : step s label s') :
      Run step start (⟨s, label, s'⟩ :: events) s'

namespace Run

variable {step : State → Label → State → Prop} {start s : State} {events : List (Event State Label)}

/-- What holds at first and is kept by every step holds after every run. -/
theorem invariant {I : List (Event State Label) → State → Prop} (first : I [] start)
    (kept : ∀ events s label s', Run step start events s → I events s → step s label s' →
      I (⟨s, label, s'⟩ :: events) s')
    (run : Run step start events s) :
  I events s
  := by
  induction run with
  | refl => exact first
  | tail run last ih => exact kept _ _ _ _ run ih last

/-- A run up to one of its steps is a run. -/
theorem split {later earlier : List (Event State Label)} {e : Event State Label}
    (run : Run step start (later ++ e :: earlier) s) :
  Run step start earlier e.before ∧ step e.before e.label e.after
  := by
  induction later generalizing s with
  | nil =>
      cases run with
      | tail run last => exact ⟨run, last⟩
  | cons e' later ih =>
      cases run with
      | tail run last => exact ih run

/-- Runs follow each other. -/
theorem append {events' : List (Event State Label)} {s' : State} (run : Run step start events s)
    (run' : Run step s events' s') :
  Run step start (events' ++ events) s'
  := by
  induction run' with
  | refl => exact run
  | tail _ last ih => exact .tail ih last

/-- A run takes the steps of any relation that its steps are steps of. -/
theorem reflTransGen {r : State → State → Prop} (hr : ∀ s label s', step s label s' → r s s')
    (run : Run step start events s) :
  Relation.ReflTransGen r start s
  := by
  induction run with
  | refl => exact .refl
  | tail _ last ih => exact ih.tail (hr _ _ _ last)

end Run

end History
