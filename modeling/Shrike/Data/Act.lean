import Mathlib.Init

/-!
# Actions on a state

Programs that read and change a state, and what holds of the state after one of them when
something held of it before.
-/

/-- A program that changes a state and returns a result. -/
def Act (σ α : Type) : Type := σ → α × σ

namespace Act

variable {σ α β : Type}

/-- The program that changes nothing. -/
protected def pure (a : α) : Act σ α := fun s => (a, s)

/-- One program, and then another that uses its result. -/
protected def bind (m : Act σ α) (k : α → Act σ β) : Act σ β :=
  fun s => k (m s).1 (m s).2

instance : Monad (Act σ) where
  pure := Act.pure
  bind := Act.bind

/-- The state. -/
def get : Act σ σ := fun s => (s, s)

/-- The program that changes the state by a function. -/
def modify (f : σ → σ) : Act σ Unit := fun s => ((), f s)

@[simp]
theorem pure_apply (a : α) (s : σ) :
  (pure a : Act σ α) s = (a, s)
  := rfl

@[simp]
theorem bind_apply (m : Act σ α) (k : α → Act σ β) (s : σ) :
  (m >>= k) s = k (m s).1 (m s).2
  := rfl

/-- From every state with `P` the program comes to a result and a state with `Q`. -/
def Triple (P : σ → Prop) (m : Act σ α) (Q : α → σ → Prop) : Prop :=
  ∀ s, P s → Q (m s).1 (m s).2

namespace Triple

variable {P P' : σ → Prop} {Q Q' : α → σ → Prop} {R : β → σ → Prop}

protected theorem pure {a : α} (h : ∀ s, P s → Q a s) :
  Triple P (pure a) Q
  := h

protected theorem bind {m : Act σ α} {k : α → Act σ β} (hm : Triple P m Q)
    (hk : ∀ a, Triple (Q a) (k a) R) :
  Triple P (m >>= k) R
  := fun s hs => hk _ _ (hm s hs)

variable {m : Act σ α}

/-- One program whose result has a property, and then another. -/
theorem bind_of {k : α → Act σ β} {p : α → Prop}
    (hm : Triple P m fun a s => p a ∧ Q a s) (hk : ∀ a, p a → Triple (Q a) (k a) R) :
  Triple P (m >>= k) R
  := fun s hs => hk _ (hm s hs).1 _ (hm s hs).2

/-- The rest of a program that reads the state. -/
theorem bind_get {k : σ → Act σ β} (hk : ∀ s, P s → Triple (· = s) (k s) R) :
  Triple P (get >>= k) R
  := fun s hs => hk s hs s rfl

protected theorem modify {f : σ → σ} {S : Unit → σ → Prop} (h : ∀ s, P s → S () (f s)) :
  Triple P (modify f) S
  := h

/-- A weaker postcondition. -/
theorem mono (hm : Triple P m Q) (h : ∀ a s, Q a s → Q' a s) :
  Triple P m Q'
  := fun s hs => h _ _ (hm s hs)

/-- A stronger precondition. -/
theorem strengthen (hm : Triple P m Q) (h : ∀ s, P' s → P s) :
  Triple P' m Q
  := fun s hs => hm s (h s hs)

/-- A branch on a condition that the state does not decide. -/
protected theorem ite {c : Prop} [Decidable c] {m n : Act σ α} (hm : c → Triple P m Q)
    (hn : ¬c → Triple P n Q) :
  Triple P (if c then m else n) Q
  := by
  split
  · exact hm ‹c›
  · exact hn ‹¬c›

/-- Both postconditions hold. -/
theorem and (hm : Triple P m Q) (hm' : Triple P' m Q') :
  Triple (fun s => P s ∧ P' s) m fun a s => Q a s ∧ Q' a s
  := fun s hs => ⟨hm s hs.1, hm' s hs.2⟩

end Triple

/-- The program preserves a property of the state. -/
abbrev Preserves (P : σ → Prop) (m : Act σ α) : Prop := Triple P m fun _ => P

/-- The program leaves a part of the state as it is. -/
def Keeps {τ : Type} (f : σ → τ) (m : Act σ α) : Prop := ∀ s, f (m s).2 = f s

namespace Keeps

variable {τ : Type} {f : σ → τ}

protected theorem pure (a : α) :
  Keeps f (pure a : Act σ α)
  := fun _ => rfl

protected theorem bind {m : Act σ α} {k : α → Act σ β} (hm : Keeps f m) (hk : ∀ a, Keeps f (k a)) :
  Keeps f (m >>= k)
  := fun s => (hk _ _).trans (hm s)

protected theorem ite {c : Prop} [Decidable c] {m n : Act σ α} (hm : Keeps f m) (hn : Keeps f n) :
  Keeps f (if c then m else n)
  := by
  split
  · exact hm
  · exact hn

/-- What holds of that part holds afterwards. -/
theorem triple {m : Act σ α} (hm : Keeps f m) (p : τ → Prop) :
  Triple (fun s => p (f s)) m fun _ s => p (f s)
  := fun s hs => (congrArg p (hm s)).mpr hs

end Keeps

end Act
