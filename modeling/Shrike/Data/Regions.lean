import Mathlib.Data.List.Flatten
import Mathlib.Data.List.Basic

/-!
# Regions of a list

A list that stands in another from an index on, and lists that are cut into chunks of one size.
-/

namespace List

variable {α β : Type}

/-! ### Regions -/

/-- `s` stands in `l` from the index `off` on. -/
def HasAt (l : List α) (off : ℕ) (s : List α) : Prop :=
  ∃ before after, l = before ++ s ++ after ∧ before.length = off

section

variable {l s t : List α} {off : ℕ}

theorem hasAt_self (l : List α) :
  l.HasAt 0 l
  := ⟨[], [], (append_nil l).symm, rfl⟩

/-- Whatever lies within a list stands in it. -/
theorem hasAt_of_le {len : ℕ} (h : off + len ≤ l.length) :
  l.HasAt off ((l.drop off).take len)
  := by
  refine ⟨l.take off, (l.drop off).drop len, ?_, length_take_of_le (by omega)⟩
  rw [append_assoc, take_append_drop, take_append_drop]

theorem HasAt.left (h : l.HasAt off (s ++ t)) :
  l.HasAt off s
  := by
  obtain ⟨before, after, rfl, hoff⟩ := h
  exact ⟨before, t ++ after, by simp only [append_assoc], hoff⟩

theorem HasAt.right (h : l.HasAt off (s ++ t)) :
  l.HasAt (off + s.length) t
  := by
  obtain ⟨before, after, rfl, rfl⟩ := h
  exact ⟨before ++ s, after, by simp only [append_assoc], length_append⟩

/-- Of lists that stand one after the other, each stands where those before it end. -/
theorem HasAt.flatMap {f : β → List α} {as bs : List β} {b : β}
    (h : l.HasAt off ((as ++ b :: bs).flatMap f)) :
  l.HasAt (off + (as.flatMap f).length) (f b)
  := by
  rw [flatMap_append, flatMap_cons] at h
  exact h.right.left

theorem HasAt.le_length (h : l.HasAt off s) :
  off + s.length ≤ l.length
  := by
  obtain ⟨before, after, rfl, rfl⟩ := h
  simp only [length_append]
  omega

theorem HasAt.take_drop (h : l.HasAt off s) :
  (l.drop off).take s.length = s
  := by
  obtain ⟨before, after, rfl, rfl⟩ := h
  rw [append_assoc, drop_left, take_left]

theorem HasAt.append (h : l.HasAt off s) (h' : l.HasAt (off + s.length) t) :
  l.HasAt off (s ++ t)
  := by
  have hle := h'.le_length
  have hs := h.take_drop
  have ht := h'.take_drop
  rw [← drop_drop] at ht
  have hwhole := @hasAt_of_le _ l off (s.length + t.length) (by omega)
  rw [take_add, hs, ht] at hwhole
  exact hwhole

/-- A list that stands in another of the same length is the other one. -/
theorem HasAt.eq (h : l.HasAt 0 s) (hlen : s.length = l.length) :
  s = l
  := by
  rw [← h.take_drop, drop_zero, hlen, take_length]

theorem HasAt.drop_take (h : l.HasAt off s) :
  (l.take (off + s.length)).drop off = s
  := by
  rw [List.drop_take, Nat.add_sub_cancel_left]
  exact h.take_drop

theorem HasAt.getElem? (h : l.HasAt off s) {i : ℕ} (hi : i < s.length) :
  l[off + i]? = s[i]?
  := by
  obtain ⟨before, after, rfl, rfl⟩ := h
  rw [append_assoc, getElem?_append_right (Nat.le_add_right _ _), Nat.add_sub_cancel_left,
    getElem?_append_left hi]

end

/-! ### Chunks -/

/-- The chunks of `k` elements that a list starts with, as many as it has. -/
def asChunks (k : ℕ) (l : List α) : List (List α) :=
  (range (l.length / k)).map fun i => (l.drop (k * i)).take k

variable {k n : ℕ}

theorem length_flatMap_of_forall {f : β → List α} (bs : List β) (h : ∀ b ∈ bs, (f b).length = k) :
  (bs.flatMap f).length = k * bs.length
  := by
  induction bs with
  | nil => rfl
  | cons b bs ih =>
      rw [flatMap_cons, length_append, h b mem_cons_self,
        ih fun c hc => h c (mem_cons_of_mem b hc), length_cons,
        Nat.mul_succ, Nat.add_comm]

/-- Chunks of one size, one after the other, are cut apart again. -/
theorem asChunks_flatMap {f : β → List α} (hk : 0 < k) (bs : List β)
    (h : ∀ b ∈ bs, (f b).length = k) :
  asChunks k (bs.flatMap f) = bs.map f
  := by
  rw [asChunks, length_flatMap_of_forall bs h, Nat.mul_div_cancel_left _ hk]
  apply ext_getElem
  · simp
  · intro i hi hi'
    have hlt : i < bs.length := by simpa using hi
    have hsplit : bs = bs.take i ++ bs[i] :: bs.drop (i + 1) := by
      rw [← drop_eq_getElem_cons hlt, take_append_drop]
    have hat : (bs.flatMap f).HasAt (k * i) (f bs[i]) := by
      have hself := hasAt_self (bs.flatMap f)
      rw [hsplit] at hself
      have hflat := hself.flatMap
      rw [← hsplit, Nat.zero_add, length_flatMap_of_forall (bs.take i)
        fun b hb => h b (mem_of_mem_take hb), length_take_of_le (Nat.le_of_lt hlt)] at hflat
      exact hflat
    rw [getElem_map, getElem_map, getElem_range, ← h bs[i] (getElem_mem hlt)]
    rw [← h bs[i] (getElem_mem hlt)] at hat
    exact hat.take_drop

/-- The chunks of a list from an index on, one after the other. -/
theorem flatMap_chunks (k : ℕ) (l : List α) (off n : ℕ) :
  (range n).flatMap (fun i => (l.drop (off + k * i)).take k) = (l.drop off).take (k * n)
  := by
  induction n generalizing off with
  | zero => rfl
  | succ n ih =>
      have htail : ∀ i, off + k * (i + 1) = off + k + k * i := by
        intro i
        rw [Nat.mul_succ]
        omega
      rw [range_succ_eq_map, flatMap_cons, flatMap_map, Nat.mul_zero, Nat.add_zero]
      simp only [Nat.succ_eq_add_one, htail]
      rw [ih, Nat.mul_succ, Nat.add_comm (k * n), take_add, drop_drop]

theorem length_of_mem_asChunks {l chunk : List α} (h : chunk ∈ l.asChunks k) :
  chunk.length = k
  := by
  obtain ⟨i, hi, rfl⟩ := mem_map.mp h
  have hlt : i + 1 ≤ l.length / k := mem_range.mp hi
  have hmul := Nat.le_trans (Nat.mul_le_mul_left k hlt) (Nat.mul_div_le l.length k)
  rw [Nat.mul_succ] at hmul
  rw [length_take, length_drop]
  omega

/-- The first chunks of a list, one after the other. -/
theorem flatten_take_asChunks {l : List α} (h : n ≤ l.length / k) :
  ((l.asChunks k).take n).flatten = l.take (k * n)
  := by
  have hchunks := flatMap_chunks k l 0 n
  simp only [Nat.zero_add, drop_zero] at hchunks
  rw [asChunks, ← map_take, take_range, Nat.min_eq_left h, ← hchunks, flatMap_def]

/-- The elements of a list from an index on, one after the other. -/
theorem flatMap_elements (d : α) {l : List α} {off n : ℕ} (h : off + n ≤ l.length) :
  (range n).flatMap (fun i => [l.getD (off + i) d]) = (l.drop off).take n
  := by
  have hchunks := flatMap_chunks 1 l off n
  rw [Nat.one_mul] at hchunks
  rw [← hchunks]
  apply flatMap_congr
  intro i hi
  have hlt : off + i < l.length := by
    have := mem_range.mp hi
    omega
  rw [Nat.one_mul, drop_eq_getElem_cons hlt, take_succ_cons, take_zero,
    getD_eq_getElem?_getD, getElem?_eq_getElem hlt, Option.getD_some]

end List
