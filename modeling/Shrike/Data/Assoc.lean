import Mathlib.Data.List.Induction
import Mathlib.Data.List.Nodup
import Mathlib.Order.Lattice

/-!
# Association lists

Lookups in a list of keys and values, no two of which have the same key, and lists kept in the
order of their keys.
-/

namespace List

section Lookup

variable {α β : Type} [BEq α] [LawfulBEq α]

variable {l : List (α × β)}

variable {a key key' : α} {b val : β}

theorem mem_of_lookup (h : l.lookup a = some b) :
  (a, b) ∈ l
  := by
  obtain ⟨l₁, l₂, rfl, -⟩ := lookup_eq_some_iff.mp h
  simp

/-- A pair of a list without repeated keys is what its key looks up. -/
theorem lookup_of_mem (hnodup : (l.map Prod.fst).Nodup) (h : (a, b) ∈ l) :
  l.lookup a = some b
  := by
  induction l with
  | nil => cases h
  | cons p l ih =>
      obtain ⟨hnot, hnodup⟩ := nodup_cons.mp hnodup
      rcases mem_cons.mp h with rfl | h
      · apply lookup_cons_self
      · have hne : a ≠ p.1 := by
          rintro rfl
          exact hnot (mem_map.mpr ⟨_, h, rfl⟩)
        rw [lookup_cons, beq_false_of_ne hne]
        apply ih hnodup h

theorem lookup_reverse (hnodup : (l.map Prod.fst).Nodup) (a : α) :
  l.reverse.lookup a = l.lookup a
  := by
  cases h : l.lookup a with
  | none =>
      rw [lookup_eq_none_iff] at h ⊢
      intro p hp
      exact h p (mem_reverse.mp hp)
  | some b =>
      apply lookup_of_mem
      · rw [map_reverse]
        exact nodup_reverse.mpr hnodup
      · exact mem_reverse.mpr (mem_of_lookup h)

/-- Replace the value of the first entry with a key. -/
def replaceEntry (key : α) (val : β) : List (α × β) → List (α × β)
  | [] => []
  | entry :: l => if entry.1 == key then (key, val) :: l else entry :: replaceEntry key val l

omit [LawfulBEq α] in
theorem mem_of_mem_replaceEntry {entry : α × β} (h : entry ∈ l.replaceEntry key val) :
  entry = (key, val) ∨ entry ∈ l
  := by
  induction l with
  | nil => cases h
  | cons e l ih =>
      rw [replaceEntry] at h
      split_ifs at h
      · rcases mem_cons.mp h with h | h
        · exact .inl h
        · exact .inr (mem_cons_of_mem e h)
      · rcases mem_cons.mp h with rfl | h
        · exact .inr mem_cons_self
        · apply (ih h).imp_right (mem_cons_of_mem e)

theorem lookup_replaceEntry_self (h : l.lookup key = some b) (val : β) :
  (l.replaceEntry key val).lookup key = some val
  := by
  induction l with
  | nil => cases h
  | cons e l ih =>
      rw [replaceEntry]
      split_ifs with hkey
      · apply lookup_cons_self
      · have hne : (key == e.1) = false := by
          rw [← Bool.not_eq_true, BEq.comm]
          exact hkey
        rw [lookup_cons, hne] at h ⊢
        apply ih h

theorem lookup_replaceEntry_of_ne (hne : key' ≠ key) (l : List (α × β)) (val : β) :
  (l.replaceEntry key val).lookup key' = l.lookup key'
  := by
  induction l with
  | nil => rfl
  | cons e l ih =>
      rw [replaceEntry]
      split_ifs with hkey
      · rw [lookup_cons, lookup_cons, eq_of_beq hkey, beq_false_of_ne hne]
      · rw [lookup_cons, lookup_cons, ih]

/-- Putting a value where it is changes nothing. -/
theorem replaceEntry_of_lookup (h : l.lookup key = some val) :
  l.replaceEntry key val = l
  := by
  induction l with
  | nil => rfl
  | cons e l ih =>
      rw [replaceEntry]
      split_ifs with hkey
      · obtain ⟨k, v⟩ := e
        obtain rfl := eq_of_beq hkey
        rw [lookup_cons_self] at h
        rw [Option.some.inj h]
      · have hne : (key == e.1) = false := by
          rw [← Bool.not_eq_true, BEq.comm]
          exact hkey
        rw [lookup_cons, hne] at h
        rw [ih h]

theorem map_fst_replaceEntry (l : List (α × β)) (key : α) (val : β) :
  (l.replaceEntry key val).map Prod.fst = l.map Prod.fst
  := by
  induction l with
  | nil => rfl
  | cons e l ih =>
      rw [replaceEntry]
      split_ifs with hkey
      · rw [map_cons, map_cons, eq_of_beq hkey]
      · rw [map_cons, map_cons, ih]

theorem lookup_eraseKey_of_ne [DecidableEq α] (hne : key' ≠ key) (l : List (α × β)) :
  (l.eraseP fun e => e.1 = key).lookup key' = l.lookup key'
  := by
  induction l with
  | nil => rfl
  | cons e l ih =>
      by_cases hkey : e.1 = key
      · rw [eraseP_cons, decide_eq_true hkey, cond_true, lookup_cons, hkey, beq_false_of_ne hne]
      · rw [eraseP_cons, decide_eq_false hkey, cond_false, lookup_cons, lookup_cons, ih]

theorem lookup_eraseKey_self [DecidableEq α] (hnodup : (l.map Prod.fst).Nodup) (key : α) :
  (l.eraseP fun e => e.1 = key).lookup key = none
  := by
  induction l with
  | nil => rfl
  | cons e l ih =>
      obtain ⟨hnot, hnodup⟩ := nodup_cons.mp hnodup
      by_cases hkey : e.1 = key
      · rw [eraseP_cons, decide_eq_true hkey, cond_true, lookup_eq_none_iff]
        intro p hp
        rw [bne_iff_ne]
        rintro rfl
        exact hnot (mem_map.mpr ⟨p, hp, hkey.symm⟩)
      · rw [eraseP_cons, decide_eq_false hkey, cond_false, lookup_cons, ih hnodup,
          beq_false_of_ne (Ne.symm hkey)]

/-- What is kept under a key is what was under it, if it is to be kept. -/
theorem lookup_filter (hnodup : (l.map Prod.fst).Nodup) (p : β → Bool) (key : α) :
  (l.filter fun e => p e.2).lookup key = (l.lookup key).filter p
  := by
  induction l with
  | nil => rfl
  | cons e l ih =>
      obtain ⟨hnot, hnodup⟩ := nodup_cons.mp hnodup
      by_cases hkey : key = e.1
      · have hnone : l.lookup key = none := by
          rw [lookup_eq_none_iff]
          intro e' he'
          rw [bne_iff_ne]
          rintro rfl
          exact hnot (mem_map.mpr ⟨e', he', hkey⟩)
        rw [hnone] at ih
        by_cases hp : p e.2 = true
        · rw [filter_cons, if_pos hp, lookup_cons, lookup_cons, hkey, beq_self_eq_true,
            Option.filter_some, if_pos hp]
        · rw [filter_cons, if_neg hp, ih hnodup, lookup_cons, hkey, beq_self_eq_true,
            Option.filter_some, if_neg hp]
          rfl
      · have hlookup : (e :: l).lookup key = l.lookup key := by
          rw [lookup_cons, beq_false_of_ne hkey]
        rw [hlookup, ← ih hnodup]
        by_cases hp : p e.2 = true
        · rw [filter_cons, if_pos hp, lookup_cons, beq_false_of_ne hkey]
        · rw [filter_cons, if_neg hp]

end Lookup

/-! ### In the order of keys -/

section Ordered

variable {κ ν : Type} [LinearOrder κ]

/-- Put a value under a key in a list in the order of its keys. It replaces the value that was
under the key. -/
def setEntry (key : κ) (val : ν) : List (κ × ν) → List (κ × ν)
  | [] => [(key, val)]
  | (k, v) :: l =>
      if key < k then (key, val) :: (k, v) :: l
      else if key = k then (key, val) :: l
      else (k, v) :: setEntry key val l

/-- The values put under their keys one after the other. -/
def collectEntries (l : List (κ × ν)) : List (κ × ν) :=
  l.foldl (fun entries e => setEntry e.1 e.2 entries) []

theorem setEntry_perm {key : κ} (val : ν) :
  ∀ {l : List (κ × ν)}, key ∉ l.map Prod.fst → (setEntry key val l).Perm ((key, val) :: l)
  | [], _ => .refl _
  | (k, v) :: l, h => by
      obtain ⟨hne, hl⟩ := ne_and_not_mem_of_not_mem_cons h
      rw [setEntry]
      split
      · apply Perm.refl
      · apply ((setEntry_perm val hl).cons (k, v)).trans
        apply Perm.swap

theorem setEntry_sorted {key : κ} (val : ν) :
  ∀ {l : List (κ × ν)}, l.Pairwise (fun a b => a.1 < b.1) → key ∉ l.map Prod.fst →
    (setEntry key val l).Pairwise (fun a b => a.1 < b.1)
  | [], _, _ => pairwise_singleton _ _
  | (k, v) :: l, hs, h => by
      obtain ⟨hk, hs⟩ := pairwise_cons.mp hs
      obtain ⟨hne, hl⟩ := ne_and_not_mem_of_not_mem_cons h
      rw [setEntry]
      split
      · rename_i hlt
        refine pairwise_cons.mpr ⟨?_, pairwise_cons.mpr ⟨hk, hs⟩⟩
        intro e he
        rcases mem_cons.mp he with rfl | he
        · apply hlt
        · apply lt_trans hlt (hk e he)
      · rename_i hlt
        refine pairwise_cons.mpr ⟨?_, setEntry_sorted val hs hl⟩
        intro e he
        rcases mem_cons.mp ((setEntry_perm val hl).mem_iff.mp he) with rfl | he
        · apply lt_of_le_of_ne (not_lt.mp hlt) (Ne.symm hne)
        · apply hk e he

/-- What was under a key does not matter to what is put under it. -/
theorem setEntry_eraseP {key : κ} {p : κ × ν → Bool} (hp : ∀ e, p e = true ↔ e.1 = key) (val : ν)
    {l : List (κ × ν)} (hsorted : (l.map Prod.fst).Pairwise (· < ·)) :
  setEntry key val (l.eraseP p) = setEntry key val l
  := by
  induction l with
  | nil => rfl
  | cons e l ih =>
      obtain ⟨hlt, hsorted⟩ := pairwise_cons.mp hsorted
      by_cases hkey : e.1 = key
      · rw [eraseP_cons_of_pos ((hp e).mpr hkey), setEntry,
          if_neg (by rw [hkey]; exact lt_irrefl key), if_pos hkey.symm]
        cases l with
        | nil => rfl
        | cons e' l =>
            rw [setEntry, if_pos]
            rw [← hkey]
            exact hlt e'.1 (mem_map_of_mem mem_cons_self)
      · rw [eraseP_cons_of_neg (mt (hp e).mp hkey), setEntry, setEntry, ih hsorted,
          if_neg (Ne.symm hkey), if_neg (Ne.symm hkey)]
        split_ifs with hbefore
        · have hnone : l.eraseP p = l := by
            apply eraseP_of_forall_not
            intro e' he' he
            have hafter := hbefore.trans (hlt e'.1 (mem_map_of_mem he'))
            exact hafter.ne' ((hp e').mp he)
          rw [hnone]
        · rfl

theorem foldl_setEntry :
  ∀ {l acc : List (κ × ν)}, ((acc ++ l).map Prod.fst).Nodup →
    acc.Pairwise (fun a b => a.1 < b.1) →
    (l.foldl (fun entries e => setEntry e.1 e.2 entries) acc).Perm (acc ++ l)
      ∧ (l.foldl (fun entries e => setEntry e.1 e.2 entries) acc).Pairwise
        (fun a b => a.1 < b.1)
  | [], acc, _, hs => by
      rw [append_nil]
      exact ⟨.refl _, hs⟩
  | (k, v) :: l, acc, hnodup, hs => by
      have hmiddle : (acc ++ (k, v) :: l).Perm ((k, v) :: (acc ++ l)) := perm_middle
      have hnodup' := (hmiddle.map Prod.fst).nodup_iff.mp hnodup
      have hk : k ∉ acc.map Prod.fst := by
        intro hmem
        apply (nodup_cons.mp hnodup').1
        rw [map_append]
        apply mem_append_left _ hmem
      have hperm := (setEntry_perm v hk).append_right l
      obtain ⟨hp, hs'⟩ := foldl_setEntry ((hperm.map Prod.fst).nodup_iff.mpr hnodup')
        (setEntry_sorted v hs hk)
      exact ⟨(hp.trans hperm).trans hmiddle.symm, hs'⟩

/-- Entries with distinct keys, put under them in any order, are collected in the order of their
keys. -/
theorem collectEntries_of_perm {l m : List (κ × ν)} (h : l.Perm m)
    (hm : (m.map Prod.fst).Pairwise (· < ·)) :
  collectEntries l = m
  := by
  have hnodup : (l.map Prod.fst).Nodup :=
    (h.map Prod.fst).nodup_iff.mpr (hm.imp ne_of_lt)
  obtain ⟨hp, hs⟩ := @foldl_setEntry κ ν _ l [] hnodup .nil
  apply Perm.eq_of_pairwise _ hs (pairwise_map.mp hm) (hp.trans h)
  intro a b _ _ hab hba
  exact absurd hba (lt_asymm hab)

section

variable [BEq κ] [LawfulBEq κ]

theorem lookup_setEntry_self (key : κ) (val : ν) (l : List (κ × ν)) :
  (setEntry key val l).lookup key = some val
  := by
  induction l with
  | nil => rw [setEntry, lookup_cons_self]
  | cons e l ih =>
      obtain ⟨k, v⟩ := e
      rw [setEntry]
      split_ifs with hlt heq
      · rw [lookup_cons_self]
      · rw [lookup_cons_self]
      · rw [lookup_cons, beq_false_of_ne heq, ih]

theorem lookup_setEntry_of_ne {key key' : κ} (hne : key' ≠ key) (val : ν) (l : List (κ × ν)) :
  (setEntry key val l).lookup key' = l.lookup key'
  := by
  induction l with
  | nil => rw [setEntry, lookup_cons, beq_false_of_ne hne]
  | cons e l ih =>
      obtain ⟨k, v⟩ := e
      rw [setEntry]
      split_ifs with hlt heq
      · rw [lookup_cons, beq_false_of_ne hne]
      · rw [lookup_cons, lookup_cons, ← heq, beq_false_of_ne hne]
      · rw [lookup_cons, ih, lookup_cons]

/-- Of several values put under one key the last is kept. -/
theorem lookup_collectEntries (l : List (κ × ν)) (key : κ) :
  (collectEntries l).lookup key = l.reverse.lookup key
  := by
  induction l using List.reverseRecOn with
  | nil => rfl
  | append_singleton l e ih =>
      obtain ⟨k, v⟩ := e
      have hlast : collectEntries (l ++ [(k, v)]) = setEntry k v (collectEntries l) := by
        rw [collectEntries, foldl_append]
        rfl
      rw [hlast, reverse_append, reverse_singleton, singleton_append]
      by_cases h : key = k
      · rw [h, lookup_setEntry_self, lookup_cons_self]
      · rw [lookup_setEntry_of_ne h, ih, lookup_cons, beq_false_of_ne h]

end

end Ordered

end List
