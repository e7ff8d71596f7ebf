import Mathlib.Data.Nat.Notation
import Mathlib.Order.Defs.Unbundled
import Mathlib.Tactic.SplitIfs

/-!
# Computations on a state that can fail

What such a computation did to the state before it failed stays done.
-/

/-- A computation on a state, with a result or an error. -/
def Stateful (σ ε α : Type) := σ → Except ε α × σ

namespace Stateful

variable {σ ε α β : Type}

/-- A result, with the state as it is. -/
def succeed (a : α) : Stateful σ ε α := fun s => (.ok a, s)

/-- An error, with the state as it is. -/
def fail (e : ε) : Stateful σ ε α := fun s => (.error e, s)

/-- Go on with the result, if there is one. -/
def andThen (m : Stateful σ ε α) (f : α → Stateful σ ε β) : Stateful σ ε β := fun s =>
  match m s with
  | (.ok a, s) => f a s
  | (.error e, s) => (.error e, s)

instance : Monad (Stateful σ ε) where
  pure := succeed
  bind := andThen

/-- The state. -/
def current : Stateful σ ε σ := fun s => (.ok s, s)

/-- Change the state. -/
def update (f : σ → σ) : Stateful σ ε Unit := fun s => (.ok (), f s)

/-- A result or an error, with the state as it is. -/
def ofExcept : Except ε α → Stateful σ ε α
  | .ok a => succeed a
  | .error e => fail e

/-- The results of running a computation a number of times. -/
def times (m : Stateful σ ε α) : ℕ → Stateful σ ε (List α)
  | 0 => pure []
  | n + 1 => do
      let a ← m
      let as ← m.times n
      pure (a :: as)

section

variable {m : Stateful σ ε α} {f : α → Stateful σ ε β} {s s' s'' : σ} {a : α} {b : β} {e : ε}

theorem bind_of_ok (h : m s = (.ok a, s')) :
  (m >>= f) s = f a s'
  := by
  show andThen m f s = _
  rw [andThen, h]

theorem bind_of_error (h : m s = (.error e, s')) :
  (m >>= f) s = (.error e, s')
  := by
  show andThen m f s = _
  rw [andThen, h]

/-- A sequence succeeds when its first computation does and the rest does on its result. -/
theorem bind_eq_ok :
  (m >>= f) s = (.ok b, s'') ↔ ∃ a s', m s = (.ok a, s') ∧ f a s' = (.ok b, s'')
  := by
  rcases h : m s with ⟨e | a, s'⟩
  · rw [bind_of_error h]
    constructor
    · intro heq
      cases heq
    · rintro ⟨a, t, heq, -⟩
      cases heq
  · rw [bind_of_ok h]
    constructor
    · exact fun hf => ⟨a, s', rfl, hf⟩
    · rintro ⟨a', t, heq, hf⟩
      cases heq
      exact hf

/-- A sequence ends where its first computation fails, or where the rest does. -/
theorem bind_cases {r : Except ε β} (h : (m >>= f) s = (r, s'')) :
  (∃ e, m s = (.error e, s'') ∧ r = .error e) ∨ ∃ a s', m s = (.ok a, s') ∧ f a s' = (r, s'')
  := by
  rcases hm : m s with ⟨e | a, s'⟩
  · rw [bind_of_error hm] at h
    cases h
    exact .inl ⟨e, rfl, rfl⟩
  · rw [bind_of_ok hm] at h
    exact .inr ⟨a, s', rfl, h⟩

theorem current_bind (f : σ → Stateful σ ε β) (s : σ) :
  (current >>= f) s = f s s
  := rfl

theorem update_bind (g : σ → σ) (f : Unit → Stateful σ ε β) (s : σ) :
  (update g >>= f) s = f () (g s)
  := rfl

theorem ofExcept_apply (r : Except ε α) (s : σ) :
  (ofExcept r : Stateful σ ε α) s = (r, s)
  := by
  cases r <;> rfl

theorem bind_assoc {γ : Type} {g : β → Stateful σ ε γ} :
  (m >>= f) >>= g = m >>= fun a => f a >>= g
  := by
  funext s
  rcases h : m s with ⟨e | a, s'⟩
  · rw [bind_of_error h, bind_of_error (bind_of_error h)]
  · rw [bind_of_ok h]
    show andThen (m >>= f) g s = andThen (f a) g s'
    rw [andThen, andThen, bind_of_ok h]

end

/-! ### What becomes of the state -/

/-- A computation, whether it fails or not, takes a state to one that it is related to. -/
structure Moves (R : σ → σ → Prop) (m : Stateful σ ε α) : Prop where
  related : ∀ s, R s (m s).2

section

variable {R : σ → σ → Prop}

theorem Moves.of_eq {m : Stateful σ ε α} {s s' : σ} {r : Except ε α} (h : m.Moves R)
    (heq : m s = (r, s')) :
  R s s'
  := by
  have hs := h.related s
  rwa [heq] at hs

theorem Moves.bind [IsTrans σ R] {m : Stateful σ ε α} {f : α → Stateful σ ε β} (hm : m.Moves R)
    (hf : ∀ a, (f a).Moves R) :
  (m >>= f).Moves R
  := by
  constructor
  intro s
  rcases h : m s with ⟨e | a, s'⟩
  · rw [bind_of_error h]
    exact hm.of_eq h
  · rw [bind_of_ok h]
    exact trans_of R (hm.of_eq h) ((hf a).related _)

variable [Std.Refl R]

theorem moves_pure (a : α) :
  (pure a : Stateful σ ε α).Moves R
  := ⟨refl_of R⟩

theorem moves_fail (e : ε) :
  (fail e : Stateful σ ε α).Moves R
  := ⟨refl_of R⟩

theorem moves_current :
  (current : Stateful σ ε σ).Moves R
  := ⟨refl_of R⟩

theorem moves_ofExcept (r : Except ε α) :
  (ofExcept r : Stateful σ ε α).Moves R
  := by
  cases r with
  | ok a => exact moves_pure a
  | error e => exact moves_fail e

theorem moves_forM [IsTrans σ R] {f : α → Stateful σ ε PUnit} (h : ∀ a, (f a).Moves R)
    (as : List α) :
  (as.forM f).Moves R
  := by
  induction as with
  | nil => exact moves_pure _
  | cons a as ih => exact Moves.bind (h a) fun _ => ih

end

/-! ### Results that do not depend on the state -/

/-- From every state a computation comes to the same result or error. -/
def Yields (m : Stateful σ ε α) (r : Except ε α) : Prop := ∀ s, (m s).1 = r

theorem yields_ofExcept (r : Except ε α) :
  Yields (ofExcept r : Stateful σ ε α) r
  := by
  intro s
  cases r <;> rfl

theorem yields_pure (a : α) :
  Yields (pure a : Stateful σ ε α) (.ok a)
  := fun _ => rfl

theorem Yields.bind {m : Stateful σ ε α} {f : α → Stateful σ ε β} {r : Except ε α}
    {g : α → Except ε β} (hm : m.Yields r) (hf : ∀ a, (f a).Yields (g a)) :
  (m >>= f).Yields (r >>= g)
  := by
  intro s
  rcases h : m s with ⟨e | a, s'⟩
  · rw [bind_of_error h, ← hm s, h]
    rfl
  · rw [bind_of_ok h, ← hm s, h]
    exact hf a s'

end Stateful
