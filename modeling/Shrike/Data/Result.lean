import Mathlib.Data.List.Induction

/-!
# Computations that can fail

How a sequence of computations in `Except` succeeds: each of them does.
-/

namespace Except

variable {ε : Type*} {α β : Type}

variable {f : α → Except ε β}

/-- A sequence succeeds exactly when its first computation does and the rest succeeds on
its result. -/
theorem bind_eq_ok {x : Except ε α} {b : β} :
  (x >>= f) = .ok b ↔ ∃ a, x = .ok a ∧ f a = .ok b
  := by
  cases x with
  | error e => simp [bind, Except.bind]
  | ok a => simp [bind, Except.bind]

@[simp]
theorem ok_bind (a : α) (f : α → Except ε β) :
  ((Except.ok a : Except ε α) >>= f) = f a
  := rfl

@[simp]
theorem error_bind (e : ε) (f : α → Except ε β) :
  ((Except.error e : Except ε α) >>= f) = .error e
  := rfl

variable {a : α} {e : ε} {ε' ε'' : Type*}

/-- A computation with its error renamed succeeds when the computation does. -/
theorem mapError_eq_ok {x : Except ε α} {f : ε → ε'} :
  x.mapError f = .ok a ↔ x = .ok a
  := by
  cases x with
  | error e => simp [Except.mapError]
  | ok a => simp [Except.mapError]

theorem map_mapError (x : Except ε α) (f : ε → ε') (g : α → β) :
  (x.mapError f).map g = (x.map g).mapError f
  := by
  cases x <;> rfl

/-- A computation with its result changed succeeds when the computation does. -/
theorem map_eq_ok {x : Except ε α} {f : α → β} {b : β} :
  x.map f = .ok b ↔ ∃ a, x = .ok a ∧ f a = b
  := by
  cases x with
  | error e => simp [Except.map]
  | ok a => simp [Except.map]

theorem map_eq_error {x : Except ε α} {f : α → β} :
  x.map f = .error e ↔ x = .error e
  := by
  cases x with
  | error e' => simp [Except.map]
  | ok a => simp [Except.map]

/-! ### A computation on each element of a list -/

theorem mapM_map {γ : Type} (l : List α) (f : α → Except ε β) (g : β → γ) :
  l.mapM (fun a => (f a).map g) = (l.mapM f).map (List.map g)
  := by
  induction l with
  | nil => rfl
  | cons a l ih =>
      rw [List.mapM_cons, List.mapM_cons, ih]
      cases f a with
      | error e => rfl
      | ok b => cases l.mapM f <;> rfl

theorem toOption_bind (x : Except ε α) (f : α → Except ε β) :
  (x >>= f).toOption = x.toOption.bind fun a => (f a).toOption
  := by
  cases x <;> rfl

theorem toOption_map (x : Except ε α) (f : α → β) :
  (x.map f).toOption = x.toOption.map f
  := by
  cases x <;> rfl

/-- Two computations on each element succeed exactly if all of the first ones do before all of the
second ones do. -/
theorem toOption_mapM_bind {γ : Type} (l : List α) (f : α → Except ε β) (g : β → Except ε γ) :
  (l.mapM f >>= fun bs => bs.mapM g).toOption = (l.mapM fun a => f a >>= g).toOption
  := by
  induction l with
  | nil => rfl
  | cons a l ih =>
      rw [List.mapM_cons, List.mapM_cons]
      cases f a with
      | error e => rfl
      | ok b =>
          rw [toOption_bind] at ih
          simp only [ok_bind, toOption_bind, ← ih]
          cases l.mapM f with
          | error e => cases g b <;> rfl
          | ok bs =>
              show ((b :: bs).mapM g).toOption = _
              rw [List.mapM_cons]
              cases g b with
              | error e => rfl
              | ok c =>
                  rw [ok_bind]
                  exact toOption_bind (bs.mapM g) _

theorem toOption_mapM_cons (a : α) (l : List α) (f : α → Except ε β) :
  ((a :: l).mapM f).toOption
    = (f a).toOption.bind fun b => (l.mapM f).toOption.map fun bs => b :: bs
  := by
  rw [List.mapM_cons]
  cases f a with
  | error e => rfl
  | ok b => cases l.mapM f <;> rfl

variable {l : List α}

/-- Computations on each element that are the same but for their errors. -/
theorem toOption_mapM_congr {g : α → Except ε' β} (h : ∀ a ∈ l, (f a).toOption = (g a).toOption) :
  (l.mapM f).toOption = (l.mapM g).toOption
  := by
  induction l with
  | nil => rfl
  | cons a l ih =>
      rw [toOption_mapM_cons, toOption_mapM_cons, h a List.mem_cons_self,
        ih fun b hb => h b (List.mem_cons_of_mem a hb)]

/-- One computation on each element and then another, where both together are a third but for the
errors. -/
theorem toOption_mapM_comp {γ : Type} {g : β → Except ε' γ} {k : α → Except ε'' γ}
    (h : ∀ a, ((f a).toOption.bind fun b => (g b).toOption) = (k a).toOption) :
  ((l.mapM f).toOption.bind fun bs => (bs.mapM g).toOption) = (l.mapM k).toOption
  := by
  induction l with
  | nil => rfl
  | cons a l ih =>
      rw [toOption_mapM_cons, toOption_mapM_cons, ← h a, ← ih]
      cases (f a).toOption with
      | none => rfl
      | some b =>
          rw [Option.bind_some, Option.bind_some]
          cases (l.mapM f).toOption with
          | none => cases (g b).toOption <;> rfl
          | some bs => exact toOption_mapM_cons b bs g

/-- A computation on each element fails where one of them does. -/
theorem exists_of_mapM_eq_error (h : l.mapM f = .error e) :
  ∃ a ∈ l, f a = .error e
  := by
  induction l with
  | nil => cases h
  | cons a l ih =>
      rw [List.mapM_cons] at h
      cases hf : f a with
      | error e' =>
          rw [hf] at h
          cases h
          exact ⟨a, List.mem_cons_self, hf⟩
      | ok b =>
          rw [hf, ok_bind] at h
          cases hl : l.mapM f with
          | error e' =>
              rw [hl] at h
              cases h
              obtain ⟨c, hc, hfc⟩ := ih hl
              exact ⟨c, List.mem_cons_of_mem a hc, hfc⟩
          | ok bs =>
              rw [hl] at h
              cases h

theorem toOption_mapM_eq_none (ha : a ∈ l) (h : (f a).toOption = none) :
  (l.mapM f).toOption = none
  := by
  induction l with
  | nil => cases ha
  | cons b l ih =>
      rw [toOption_mapM_cons]
      rcases List.mem_cons.mp ha with rfl | ha
      · rw [h]
        rfl
      · rw [ih ha]
        cases (f b).toOption <;> rfl

/-- A computation on each element that succeeds gives the result of each. -/
theorem mapM_eq_ok {bs : List β} (h : l.mapM f = .ok bs) :
  l.length = bs.length ∧ ∀ p ∈ l.zip bs, f p.1 = .ok p.2
  := by
  induction l generalizing bs with
  | nil =>
      cases h
      exact ⟨rfl, nofun⟩
  | cons a l ih =>
      rw [List.mapM_cons] at h
      obtain ⟨b, hb, h⟩ := bind_eq_ok.mp h
      obtain ⟨bs', hbs', h⟩ := bind_eq_ok.mp h
      cases h
      obtain ⟨hlength, hzip⟩ := ih hbs'
      refine ⟨congrArg (· + 1) hlength, ?_⟩
      rw [List.zip_cons_cons, List.forall_mem_cons]
      exact ⟨hb, hzip⟩

theorem exists_mapM_eq_ok (h : ∀ a ∈ l, ∃ b, f a = .ok b) :
  ∃ bs, l.mapM f = .ok bs
  := by
  induction l with
  | nil => exact ⟨[], rfl⟩
  | cons a l ih =>
      obtain ⟨b, hb⟩ := h a List.mem_cons_self
      obtain ⟨bs, hbs⟩ := ih fun a' ha' => h a' (List.mem_cons_of_mem a ha')
      rw [List.mapM_cons, hb, ok_bind, hbs]
      exact ⟨b :: bs, rfl⟩

/-- Fail if something holds. -/
def refuse (p : Prop) [Decidable p] (e : ε) : Except ε Unit := if p then .error e else .ok ()

theorem refuse_eq_ok {p : Prop} [Decidable p] {u : Unit} :
  refuse p e = .ok u ↔ ¬p
  := by
  rw [refuse]
  split_ifs with h
  · simp [h]
  · simp [h]

/-- The value of an option, or an error. -/
def ofOption (e : ε) : Option α → Except ε α
  | some a => .ok a
  | none => .error e

theorem ofOption_eq_ok {x : Option α} :
  ofOption e x = .ok a ↔ x = some a
  := by
  cases x with
  | none => simp [ofOption]
  | some b => simp [ofOption]

/-- Computations on the elements of a list succeed when each of them does. -/
theorem forM_eq_ok {f : α → Except ε Unit} (h : l.forM f = .ok ()) :
  ∀ a ∈ l, f a = .ok ()
  := by
  induction l with
  | nil =>
      intro a ha
      cases ha
  | cons b l ih =>
      obtain ⟨⟨⟩, hb, hl⟩ := bind_eq_ok.mp h
      intro a ha
      rcases List.mem_cons.mp ha with rfl | ha
      · exact hb
      · exact ih hl a ha

/-- A loop over the indices of a list is a loop over the list, if each step depends only on the
element at its index. -/
theorem foldlM_range {f : β → ℕ → Except ε β} {g : β → α → Except ε β}
    (h : ∀ i a, l[i]? = some a → ∀ b, f b i = g b a) (b : β) :
  (List.range l.length).foldlM f b = l.foldlM g b
  := by
  induction l using List.reverseRecOn generalizing b with
  | nil => rfl
  | append_singleton l a ih =>
      have hl : ∀ i a', l[i]? = some a' → ∀ b, f b i = g b a' := by
        intro i a' hi
        apply h
        rw [List.getElem?_append_left (List.getElem?_eq_some_iff.mp hi).1, hi]
      have ha := h l.length a (by simp)
      rw [List.length_append, List.length_singleton, List.range_succ, List.foldlM_append,
        List.foldlM_append, ih hl]
      simp only [List.foldlM_cons, List.foldlM_nil, ha]

/-! ### Errors -/

/-- Whenever a computation fails, its error is of a kind. -/
def Fails (p : ε → Prop) (x : Except ε α) : Prop := ∀ e, x = .error e → p e

section

variable {p : ε → Prop} {x : Except ε α}

theorem fails_ok (a : α) :
  Fails p (.ok a : Except ε α)
  := nofun

variable {e : ε}

theorem fails_error (h : p e) :
  Fails p (.error e : Except ε α)
  := by
  intro e' he
  cases he
  exact h

theorem Fails.bind {f : α → Except ε β} (hx : Fails p x) (hf : ∀ a, Fails p (f a)) :
  Fails p (x >>= f)
  := by
  cases x with
  | error e => exact fails_error (hx e rfl)
  | ok a => exact hf a

theorem fails_mapError {ε' : Type*} {x : Except ε' α} {f : ε' → ε} (h : ∀ e, p (f e)) :
  Fails p (x.mapError f)
  := by
  cases x with
  | error e => exact fails_error (h e)
  | ok a => exact fails_ok a

theorem Fails.map {f : α → β} (hx : Fails p x) :
  Fails p (x.map f)
  := by
  cases x with
  | error e => exact fails_error (hx e rfl)
  | ok a => exact fails_ok (f a)

theorem fails_refuse {q : Prop} [Decidable q] (h : p e) :
  Fails p (refuse q e)
  := by
  rw [refuse]
  split_ifs
  · exact fails_error h
  · exact fails_ok ()

theorem fails_ofOption {a : Option α} (h : p e) :
  Fails p (ofOption e a)
  := by
  cases a with
  | none => exact fails_error h
  | some a => exact fails_ok a

theorem fails_foldlM {f : β → α → Except ε β} (h : ∀ b a, Fails p (f b a)) (l : List α) (b : β) :
  Fails p (l.foldlM f b)
  := by
  induction l generalizing b with
  | nil => exact fails_ok b
  | cons a l ih =>
      rw [List.foldlM_cons]
      exact (h b a).bind ih

end

end Except
