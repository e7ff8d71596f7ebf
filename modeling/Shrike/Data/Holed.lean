import Mathlib.Data.List.Chain
import Mathlib.Order.Lattice

/-!
# Sorted lists with holes

A sorted list of keys and values of which some runs are not known: each hole stands for
such a run. Searching for a key ends at its entry, between two known neighbours, or in a
hole; a hole may expand to a list with holes again.
-/

namespace Holed

variable {κ ν σ : Type}

/-- An item of a list with holes: an entry, or a hole. -/
inductive Item (κ ν σ : Type) where
  | entry (key : κ) (val : ν)
  | hole (h : σ)
  deriving DecidableEq

/-- The key of an item, if it is an entry. -/
def Item.key : Item κ ν σ → Option κ
  | .entry key _ => some key
  | .hole _ => none

/-- The known keys of a list. -/
def keys (l : List (Item κ ν σ)) : List κ := l.filterMap Item.key

@[simp]
theorem keys_nil :
  keys ([] : List (Item κ ν σ)) = []
  := rfl

@[simp]
theorem keys_entry (key : κ) (val : ν) (l : List (Item κ ν σ)) :
  keys (.entry key val :: l) = key :: keys l
  := rfl

@[simp]
theorem keys_hole (h : σ) (l : List (Item κ ν σ)) :
  keys (.hole h :: l) = keys l
  := rfl

@[simp]
theorem keys_append (l m : List (Item κ ν σ)) :
  keys (l ++ m) = keys l ++ keys m
  := List.filterMap_append

theorem keys_entries (l : List (κ × ν)) :
  keys (l.map (fun e => (.entry e.1 e.2 : Item κ ν σ))) = l.map Prod.fst
  := by
  induction l with
  | nil => rfl
  | cons e l ih => rw [List.map_cons, keys_entry, ih, List.map_cons]

/-- Neither list has a hole where the two meet. -/
def Gap (l m : List (Item κ ν σ)) : Prop :=
  (∀ h, l.getLast? ≠ some (.hole h)) ∧ ∀ h, m.head? ≠ some (.hole h)

theorem gap_nil :
  Gap ([] : List (Item κ ν σ)) []
  := by
  constructor
  · intro h
    simp
  · intro h
    simp

variable {l m : List (Item κ ν σ)} {k key : κ}

/-- A gap stays one after an entry. -/
theorem Gap.entry_left (h : Gap l m) (p : List (Item κ ν σ)) (key : κ) (val : ν) :
  Gap (p ++ .entry key val :: l) m
  := by
  constructor
  · intro x
    have hl := h.1 x
    cases hlast : l.getLast? with
    | none =>
        obtain rfl := List.getLast?_eq_none_iff.mp hlast
        simp
    | some y =>
        rw [List.getLast?_append, List.getLast?_cons, hlast]
        rw [hlast] at hl
        simpa using hl
  · apply h.2

/-- A gap stays one before an entry. -/
theorem Gap.entry_right (h : Gap l m) (p : List (Item κ ν σ)) (key : κ) (val : ν) :
  Gap l (m ++ .entry key val :: p)
  := by
  use h.1
  intro x
  have hm := h.2 x
  cases m with
  | nil => simp
  | cons y m => simpa using hm

/-- No two holes are adjacent. -/
def Separated (l : List (Item κ ν σ)) : Prop :=
  l.IsChain (fun x y => x.key ≠ none ∨ y.key ≠ none)

/-- Lists are separated on both sides of an entry exactly when they are together. -/
theorem separated_append {val : ν} :
  Separated (l ++ .entry key val :: m) ↔ Separated l ∧ Separated m
  := by
  rw [Separated, List.isChain_append, List.isChain_cons]
  constructor
  · rintro ⟨hl, ⟨-, hm⟩, -⟩
    use hl, hm
  · rintro ⟨hl, hm⟩
    use hl
    constructor
    · use fun y _ => .inl (by simp [Item.key])
      apply hm
    · intro x _ y hy
      right
      obtain rfl : Item.entry key val = y := by simpa using hy
      simp [Item.key]

theorem Separated.left (h : Separated (l ++ m)) :
  Separated l
  := (List.isChain_append.mp h).1

theorem Separated.head_ne_hole (h : Separated (l ++ m)) {x : σ} (hl : l.getLast? = some (.hole x)) :
  ∀ y, m.head? ≠ some (.hole y)
  := by
  intro y hm
  have hadj := (List.isChain_append.mp h).2.2 _ hl _ hm
  simp [Item.key] at hadj

/-- `Updated key val l l'`: `l'` is `l` with the value of the entry of a key replaced. -/
def Updated (key : κ) (val : ν) (l l' : List (Item κ ν σ)) : Prop :=
  ∃ p q old, l = p ++ .entry key old :: q ∧ l' = p ++ .entry key val :: q

/-- `Removed key val l l'`: `l'` is `l` without the entry of a key. -/
def Removed (key : κ) (val : ν) (l l' : List (Item κ ν σ)) : Prop :=
  ∃ p q, l = p ++ .entry key val :: q ∧ l' = p ++ q

section Local

variable {key k : κ} {val v : ν} {l l' p : List (Item κ ν σ)}

theorem Updated.after (h : Updated key val l l') :
  Updated key val (p ++ .entry k v :: l) (p ++ .entry k v :: l')
  := by
  obtain ⟨a, b, old, rfl, rfl⟩ := h
  use p ++ .entry k v :: a, b, old, (by simp), (by simp)

theorem Updated.before (h : Updated key val l l') :
  Updated key val (l ++ .entry k v :: p) (l' ++ .entry k v :: p)
  := by
  obtain ⟨a, b, old, rfl, rfl⟩ := h
  use a, b ++ .entry k v :: p, old, (by simp), (by simp)

theorem Removed.after (h : Removed key val l l') :
  Removed key val (p ++ .entry k v :: l) (p ++ .entry k v :: l')
  := by
  obtain ⟨a, b, rfl, rfl⟩ := h
  use p ++ .entry k v :: a, b, (by simp), (by simp)

theorem Removed.before (h : Removed key val l l') :
  Removed key val (l ++ .entry k v :: p) (l' ++ .entry k v :: p)
  := by
  obtain ⟨a, b, rfl, rfl⟩ := h
  use a, b ++ .entry k v :: p, (by simp), (by simp)

end Local

variable [LinearOrder κ]

/-- The known keys ascend. -/
def Sorted (l : List (Item κ ν σ)) : Prop := (keys l).Pairwise (· < ·)

/-- The search for a key: its value or that it is absent, or the hole it would be in. -/
def seek : List (Item κ ν σ) → κ → Option ν ⊕ σ
  | [], _ => .inl none
  | .entry key val :: l, k =>
      if key < k then seek l k else if key = k then .inl (some val) else .inl none
  | .hole h :: l, k =>
      if (keys l).head?.any (· ≤ k) then seek l k else .inr h

theorem seek_hole (h : σ) (l : List (Item κ ν σ)) (k : κ) :
  seek (.hole h :: l) k = if (keys l).head?.any (· ≤ k) then seek l k else .inr h
  := rfl

theorem seek_cons (key : κ) (val : ν) (l : List (Item κ ν σ)) (k : κ) :
  seek (.entry key val :: l) k
    = if key < k then seek l k else if key = k then .inl (some val) else .inl none
  := rfl

/-- A search skips what is before an entry at or below the key. -/
theorem seek_skip (hk : key ≤ k) (val : ν) (m : List (Item κ ν σ)) :
  ∀ l : List (Item κ ν σ), (∀ x ∈ keys l, x < key) →
    seek (l ++ .entry key val :: m) k = seek (.entry key val :: m) k
  | [], _ => rfl
  | .entry x v :: l, h => by
      have hx := h x (by simp)
      have ih := seek_skip hk val m l (fun y hy => h y (by simp [hy]))
      rw [List.cons_append, seek_cons, if_pos (lt_of_lt_of_le hx hk), ih]
  | .hole x :: l, h => by
      have ih := seek_skip hk val m l (fun y hy => h y (by simpa using hy))
      have hhead : (keys (l ++ .entry key val :: m)).head?.any (· ≤ k) = true := by
        cases hl : keys l with
        | nil => simp [hl, hk]
        | cons y ys =>
            have hy := h y (by simp [hl])
            simp [hl, le_of_lt (lt_of_lt_of_le hy hk)]
      rw [List.cons_append, seek_hole, if_pos hhead, ih]

/-- A search stops before an entry above the key. -/
theorem seek_cut (hk : k < key) (val : ν) (m : List (Item κ ν σ)) :
  ∀ l : List (Item κ ν σ), seek (l ++ .entry key val :: m) k = seek l k
  | [] => by
      rw [List.nil_append, seek_cons, if_neg (not_lt_of_gt hk), if_neg (ne_of_gt hk)]
      rfl
  | .entry x v :: l => by
      rw [List.cons_append, seek_cons, seek_cons, seek_cut hk val m l]
  | .hole x :: l => by
      have hhead : (keys (l ++ .entry key val :: m)).head?.any (· ≤ k)
          = (keys l).head?.any (· ≤ k) := by
        cases hl : keys l with
        | nil => simp [hl, hk]
        | cons y ys => simp [hl]
      rw [List.cons_append, seek_hole, seek_hole, hhead, seek_cut hk val m l]

/-- A search finds an entry with the key. -/
theorem seek_entry (val : ν) (m : List (Item κ ν σ)) (hl : ∀ x ∈ keys l, x < k) :
  seek (l ++ .entry k val :: m) k = .inl (some val)
  := by
  rw [seek_skip le_rfl val m l hl, seek_cons, if_neg (lt_irrefl k), if_pos rfl]

/-- A search continues after an entry below the key. -/
theorem seek_after (hk : key < k) (val : ν) (m : List (Item κ ν σ)) (hl : ∀ x ∈ keys l, x < key) :
  seek (l ++ .entry key val :: m) k = seek m k
  := by
  rw [seek_skip hk.le val m l hl, seek_cons, if_pos hk]

theorem Sorted.lt_of_append {val : ν} (h : Sorted (l ++ .entry key val :: m)) :
  ∀ x ∈ keys l, x < key
  := by
  intro x hx
  rw [Sorted, keys_append, keys_entry, List.pairwise_append] at h
  apply h.2.2 x hx key List.mem_cons_self

theorem Sorted.gt_of_append {val : ν} (h : Sorted (l ++ .entry key val :: m)) :
  ∀ x ∈ keys m, key < x
  := by
  rw [Sorted, keys_append, keys_entry, List.pairwise_append, List.pairwise_cons] at h
  apply h.2.1.1

theorem Sorted.left (h : Sorted (l ++ m)) :
  Sorted l
  := by
  rw [Sorted, keys_append, List.pairwise_append] at h
  apply h.1

theorem Sorted.right (h : Sorted (l ++ m)) :
  Sorted m
  := by
  rw [Sorted, keys_append, List.pairwise_append] at h
  apply h.2.1

/-- A list is sorted when both sides of an entry are, and its key is between them. -/
theorem sorted_append {val : ν} :
  Sorted (l ++ .entry key val :: m) ↔
    Sorted l ∧ Sorted m ∧ (∀ x ∈ keys l, x < key) ∧ ∀ x ∈ keys m, key < x
  := by
  constructor
  · intro h
    use h.left
    have hm : Sorted m := (List.pairwise_cons.mp h.right).2
    use hm, h.lt_of_append
    apply h.gt_of_append
  · rintro ⟨hl, hm, hlt, hgt⟩
    rw [Sorted, keys_append, keys_entry, List.pairwise_append, List.pairwise_cons]
    use hl, ⟨hgt, hm⟩
    intro x hx y hy
    rcases List.mem_cons.mp hy with rfl | hy
    · apply hlt x hx
    · apply lt_trans (hlt x hx) (hgt y hy)

/-- Removing an item from a sorted list leaves it sorted. -/
theorem Sorted.remove {val : ν} (h : Sorted (l ++ .entry key val :: m)) :
  Sorted (l ++ m)
  := by
  apply List.Pairwise.sublist _ h
  simp

/-- In a sorted list without holes a search is a lookup. -/
theorem seek_entries [BEq κ] [LawfulBEq κ] (k : κ) :
  ∀ {l : List (κ × ν)}, (l.map Prod.fst).Pairwise (· < ·) →
    seek (l.map (fun e => (.entry e.1 e.2 : Item κ ν σ))) k = .inl (l.lookup k)
  | [], _ => rfl
  | (key, val) :: l, h => by
      obtain ⟨hlt, hl⟩ := List.pairwise_cons.mp h
      rw [List.map_cons, seek_cons, List.lookup_cons]
      rcases lt_trichotomy key k with hk | rfl | hk
      · rw [if_pos hk, seek_entries k hl, beq_false_of_ne (ne_of_gt hk)]
      · rw [if_neg (lt_irrefl key), if_pos rfl, beq_self_eq_true]
      · rw [if_neg (not_lt_of_gt hk), if_neg (ne_of_gt hk), beq_false_of_ne (ne_of_lt hk)]
        symm
        apply congrArg
        apply List.lookup_eq_none_iff.mpr
        intro e he
        have hlte := hlt e.1 (List.mem_map_of_mem he)
        simpa using ne_of_lt (lt_trans hk hlte)

/-- A key that a search finds absent is not among the known keys. -/
theorem not_mem_keys_of_seek (hs : Sorted l) (h : seek l k = .inl none) :
  k ∉ keys l
  := by
  intro hk
  obtain ⟨x, hx, hkey⟩ := List.mem_filterMap.mp hk
  cases x with
  | hole x => cases hkey
  | entry key val =>
      cases hkey
      obtain ⟨p, q, rfl⟩ := List.append_of_mem hx
      rw [seek_entry val q hs.lt_of_append] at h
      cases h

/-! ### Writing -/

/-- An entry put in a gap leaves the search for every other key as it was. -/
theorem seek_insert (val : ν) (hgap : Gap l m)
    (hs : Sorted (l ++ .entry key val :: m)) (hk : k ≠ key) :
  seek (l ++ .entry key val :: m) k = seek (l ++ m) k
  := by
  rcases lt_or_gt_of_ne hk with hlt | hgt
  · rw [seek_cut hlt]
    cases m with
    | nil => rw [List.append_nil]
    | cons x m =>
        cases x with
        | hole x => exact absurd rfl (hgap.2 x)
        | entry x v => rw [seek_cut (lt_trans hlt (hs.gt_of_append x (by simp)))]
  · rw [seek_after hgt val m hs.lt_of_append]
    rcases List.eq_nil_or_concat l with rfl | ⟨l, x, rfl⟩
    · rfl
    · cases x with
      | hole x => exact absurd (by simp) (hgap.1 x)
      | entry x v =>
          rw [List.concat_eq_append] at hs ⊢
          have hx : x < key := hs.lt_of_append x (by simp)
          have hl := hs.left.lt_of_append
          rw [List.append_assoc, List.singleton_append, seek_after (lt_trans hx hgt) v m hl]

/-- Changing the value of an entry leaves the search for every other key as it was. -/
theorem seek_update {old : ν} (val : ν) (hs : Sorted (l ++ .entry key old :: m)) (hk : k ≠ key) :
  seek (l ++ .entry key val :: m) k = seek (l ++ .entry key old :: m) k
  := by
  rcases lt_or_gt_of_ne hk with hlt | hgt
  · rw [seek_cut hlt, seek_cut hlt]
  · rw [seek_after hgt val m hs.lt_of_append, seek_after hgt old m hs.lt_of_append]

/-- A hole with only keys above `k` after it ends the search for `k` if nothing before
does. -/
theorem seek_append_hole (h : σ) (hm : ∀ x ∈ keys m, k < x) :
  ∀ l : List (Item κ ν σ), seek (l ++ .hole h :: m) k = seek l k
    ∨ seek (l ++ .hole h :: m) k = .inr h ∧ seek l k = .inl none
  | [] => by
      right
      have hnone : (keys m).head?.any (· ≤ k) = false := by
        cases hkeys : keys m with
        | nil => rfl
        | cons y ys => simpa using hm y (by simp [hkeys])
      rw [List.nil_append, seek_hole, hnone, if_neg Bool.false_ne_true]
      use rfl
      rfl
  | .entry x v :: l => by
      rw [List.cons_append, seek_cons, seek_cons]
      split
      · apply seek_append_hole h hm l
      · left
        rfl
  | .hole x :: l => by
      have hhead : (keys (l ++ .hole h :: m)).head?.any (· ≤ k) = (keys l).head?.any (· ≤ k) := by
        cases hl : keys l with
        | cons y ys => simp [hl]
        | nil =>
            cases hkeys : keys m with
            | nil => simp [hl, hkeys]
            | cons y ys => simpa [hl, hkeys] using hm y (by simp [hkeys])
      rw [List.cons_append, seek_hole, seek_hole, hhead]
      split
      · apply seek_append_hole h hm l
      · left
        rfl

variable {l m : List (Item κ ν σ)} {k key : κ}

/-- A search for a key beyond all entries goes on after them, or from a hole at their
end. -/
theorem seek_append_last (hsep : Separated l) (hs : Sorted l)
    (hl : ∀ x ∈ keys l, x < k) (m : List (Item κ ν σ)) :
  seek (l ++ m) k = seek m k
    ∨ ∃ h, l.getLast? = some (.hole h) ∧ seek (l ++ m) k = seek (.hole h :: m) k
  := by
  rcases List.eq_nil_or_concat l with rfl | ⟨l, x, rfl⟩
  · left
    rfl
  · rw [List.concat_eq_append] at hsep hs hl ⊢
    rw [List.append_assoc, List.singleton_append]
    cases x with
    | entry x v =>
        left
        apply seek_after (hl x (by simp)) v m hs.lt_of_append
    | hole x =>
        right
        use x, (by simp)
        rcases List.eq_nil_or_concat l with rfl | ⟨l, y, rfl⟩
        · rfl
        · rw [List.concat_eq_append] at hsep hs hl ⊢
          cases y with
          | hole y =>
              have hadj := (List.isChain_append.mp hsep).2.2 (.hole y) (by simp) (.hole x) rfl
              simp [Item.key] at hadj
          | entry y v =>
              rw [List.append_assoc, List.singleton_append]
              apply seek_after (hl y (by simp)) v _ hs.left.lt_of_append

/-- A search for a key below all entries that no hole comes before finds nothing. -/
theorem seek_none (hm : ∀ x ∈ keys m, k < x) (hhead : ∀ h, m.head? ≠ some (.hole h)) :
  seek m k = .inl none
  := by
  cases m with
  | nil => rfl
  | cons x m =>
      cases x with
      | hole x => exact absurd rfl (hhead x)
      | entry x v =>
          have hx := hm x (by simp)
          rw [seek_cons, if_neg (not_lt_of_gt hx), if_neg (ne_of_gt hx)]

/-- The search for a key in a list that has only smaller keys before a point, and only
larger ones after it, finds nothing or ends in a hole at that point. -/
theorem seek_between (hsep : Separated (l ++ m))
    (hs : Sorted (l ++ m)) (hl : ∀ x ∈ keys l, x < k) (hm : ∀ x ∈ keys m, k < x) :
  seek (l ++ m) k = .inl none
    ∨ (∃ h, l.getLast? = some (.hole h) ∧ seek (l ++ m) k = .inr h)
    ∨ ∃ h, m.head? = some (.hole h) ∧ seek (l ++ m) k = .inr h
  := by
  have hnone : (keys m).head?.any (· ≤ k) = false := by
    cases hkeys : keys m with
    | nil => rfl
    | cons y ys => simpa using hm y (by simp [hkeys])
  rcases seek_append_last hsep.left hs.left hl m with hseek | ⟨h, hlast, hseek⟩
  · rw [hseek]
    cases m with
    | nil =>
        left
        rfl
    | cons x m =>
        cases x with
        | hole x =>
            right
            right
            use x, rfl
            rw [seek_hole, if_neg (by simpa using hnone)]
        | entry x v =>
            left
            apply seek_none hm (by simp)
  · right
    left
    use h, hlast
    rw [hseek, seek_hole, if_neg (by simp [hnone])]

/-- Taking out an entry changes the search for another key only where it found nothing, and
a hole beside the entry now covers the key: one just before the entry, for keys above it, or
one just after, for keys below it. -/
theorem seek_remove {val : ν} (hsep : Separated (l ++ m))
    (hs : Sorted (l ++ .entry key val :: m)) (hk : k ≠ key) :
  seek (l ++ m) k = seek (l ++ .entry key val :: m) k
    ∨ seek (l ++ .entry key val :: m) k = .inl none
      ∧ ∃ h, seek (l ++ m) k = .inr h
        ∧ (l.getLast? = some (.hole h) ∧ key < k ∨ m.head? = some (.hole h) ∧ k < key)
  := by
  rcases lt_or_gt_of_ne hk with hlt | hgt
  · rw [seek_cut hlt]
    cases m with
    | nil =>
        left
        rw [List.append_nil]
    | cons x m =>
        cases x with
        | entry x v =>
            left
            rw [seek_cut (lt_trans hlt (hs.gt_of_append x (by simp)))]
        | hole x =>
            have hm : ∀ y ∈ keys m, k < y := fun y hy => lt_trans hlt (hs.gt_of_append y hy)
            rcases seek_append_hole x hm l with h | ⟨h, hnone⟩
            · left
              apply h
            · right
              use hnone, x, h
              right
              use rfl
  · rw [seek_after hgt val m hs.lt_of_append]
    have hl : ∀ x ∈ keys l, x < k := fun x hx => lt_trans (hs.lt_of_append x hx) hgt
    rcases seek_append_last hsep.left hs.left hl m with h | ⟨x, hlast, h⟩
    · left
      apply h
    · rw [h, seek_hole]
      split
      · left
        rfl
      · rename_i hany
        right
        constructor
        · apply seek_none _ (hsep.head_ne_hole hlast)
          intro y hy
          cases hkeys : keys m with
          | nil => simp [hkeys] at hy
          | cons z zs =>
              have hz : k < z := by simpa [hkeys] using hany
              have hsorted : Sorted m := (sorted_append.mp hs).2.1
              rw [Sorted, hkeys, List.pairwise_cons] at hsorted
              rw [hkeys, List.mem_cons] at hy
              rcases hy with rfl | hy
              · apply hz
              · apply lt_trans hz (hsorted.1 y hy)
        · use x, rfl
          left
          use hlast

/-- `Inserted key val l l'`: `l'` is `l` with an entry put in a gap where its key
belongs. -/
def Inserted (key : κ) (val : ν) (l l' : List (Item κ ν σ)) : Prop :=
  ∃ p q, l = p ++ q ∧ l' = p ++ .entry key val :: q ∧ Gap p q
    ∧ (∀ x ∈ keys p, x < key) ∧ ∀ x ∈ keys q, key < x

section Local

variable {key k : κ} {val v : ν} {l l' p : List (Item κ ν σ)}

theorem Inserted.after (h : Inserted key val l l') (hp : ∀ x ∈ keys p, x < key) (hk : k < key) :
  Inserted key val (p ++ .entry k v :: l) (p ++ .entry k v :: l')
  := by
  obtain ⟨a, b, rfl, rfl, hgap, ha, hb⟩ := h
  use p ++ .entry k v :: a, b, (by simp), (by simp), hgap.entry_left p k v
  constructor
  · intro x hx
    rw [keys_append, keys_entry, List.mem_append, List.mem_cons] at hx
    rcases hx with hx | rfl | hx
    · apply hp x hx
    · apply hk
    · apply ha x hx
  · apply hb

theorem Inserted.before (h : Inserted key val l l') (hk : key < k) (hp : ∀ x ∈ keys p, key < x) :
  Inserted key val (l ++ .entry k v :: p) (l' ++ .entry k v :: p)
  := by
  obtain ⟨a, b, rfl, rfl, hgap, ha, hb⟩ := h
  use a, b ++ .entry k v :: p, (by simp), (by simp), hgap.entry_right p k v, ha
  intro x hx
  rw [keys_append, keys_entry, List.mem_append, List.mem_cons] at hx
  rcases hx with hx | rfl | hx
  · apply hb x hx
  · apply hk
  · apply hp x hx

theorem Inserted.sorted (h : Inserted key val l l') (hs : Sorted l) :
  Sorted l'
  := by
  obtain ⟨a, b, rfl, rfl, -, ha, hb⟩ := h
  apply sorted_append.mpr ⟨hs.left, hs.right, ha, hb⟩

theorem Updated.sorted (h : Updated key val l l') (hs : Sorted l) :
  Sorted l'
  := by
  obtain ⟨a, b, old, rfl, rfl⟩ := h
  apply sorted_append.mpr (sorted_append.mp hs)

theorem Removed.sorted (h : Removed key val l l') (hs : Sorted l) :
  Sorted l'
  := by
  obtain ⟨a, b, rfl, rfl⟩ := h
  apply hs.remove

end Local

/-! ### Expanding holes -/

section Finds

variable (expand : σ → Option (List (Item κ ν σ)))

/-- What a search for a key finds in a list, expanding the holes it ends in. -/
inductive Finds : List (Item κ ν σ) → κ → Option ν → Prop
  | here {l k a} (h : seek l k = .inl a) : Finds l k a
  | there {l m k a h} (hseek : seek l k = .inr h)
      (hexpand : expand h = some m) (hfinds : Finds m k a) : Finds l k a

/-- The keys in a list and in what its holes expand to. -/
inductive Reaches : List (Item κ ν σ) → κ → Prop
  | here {l : List (Item κ ν σ)} {k} (h : k ∈ keys l) : Reaches l k
  | there {l m k h} (hmem : .hole h ∈ l)
      (hexpand : expand h = some m) (hreaches : Reaches m k) : Reaches l k

variable {expand}

variable {k : κ} {l m : List (Item κ ν σ)}

variable {a b : Option ν}

/-- A search finds one answer. -/
theorem Finds.unique (ha : Finds expand l k a) (hb : Finds expand l k b) :
  a = b
  := by
  induction ha with
  | here h =>
      cases hb with
      | here h' =>
          rw [h] at h'
          apply Sum.inl.inj h'
      | there h' =>
          rw [h] at h'
          cases h'
  | there hseek hexpand _ ih =>
      cases hb with
      | here h' =>
          rw [hseek] at h'
          cases h'
      | there hseek' hexpand' hfinds' =>
          obtain rfl := Sum.inr.inj (hseek.symm.trans hseek')
          obtain rfl := Option.some.inj (hexpand.symm.trans hexpand')
          apply ih hfinds'

/-- A search finds the same when more holes can be expanded. -/
theorem Finds.mono {expand' : σ → Option (List (Item κ ν σ))}
    (hle : ∀ h m, expand h = some m → expand' h = some m)
    (hfinds : Finds expand l k a) :
  Finds expand' l k a
  := by
  induction hfinds with
  | here h => exact .here h
  | there hseek hexpand _ ih => exact .there hseek (hle _ _ hexpand) ih

/-- What a search finds depends only on where it ends. -/
theorem Finds.of_seek (h : Finds expand m k a) (hseek : seek l k = seek m k) :
  Finds expand l k a
  := by
  cases h with
  | here h => exact .here (hseek.trans h)
  | there h hexpand hfinds => exact .there (hseek.trans h) hexpand hfinds

/-- A search ends in a hole of the list, or at an entry of it. -/
theorem seek_mem (k : κ) :
  ∀ l : List (Item κ ν σ), match seek l k with
    | .inl (some val) => .entry k val ∈ l
    | .inl none => True
    | .inr h => .hole h ∈ l
  | [] => trivial
  | .entry x v :: l => by
      have ih := seek_mem k l
      rw [seek_cons]
      split_ifs with hlt heq
      · revert ih
        split <;> intro ih
        · apply List.mem_cons_of_mem _ ih
        · trivial
        · apply List.mem_cons_of_mem _ ih
      · rw [heq]
        apply List.mem_cons_self
      · trivial
  | .hole x :: l => by
      have ih := seek_mem k l
      rw [seek_hole]
      split_ifs
      · revert ih
        split <;> intro ih
        · apply List.mem_cons_of_mem _ ih
        · trivial
        · apply List.mem_cons_of_mem _ ih
      · apply List.mem_cons_self

/-- A key that is not reached is found absent, if a search for it ends. -/
theorem Finds.absent (h : Finds expand l k a) (hk : ¬ Reaches expand l k) :
  a = none
  := by
  induction h with
  | @here l k a h =>
      cases a with
      | none => rfl
      | some val =>
          have hmem := seek_mem k l
          rw [h] at hmem
          exfalso
          apply hk
          apply Reaches.here
          exact List.mem_filterMap.mpr ⟨.entry k val, hmem, rfl⟩
  | @there l m k a h hseek hexpand _ ih =>
      apply ih
      intro hreaches
      have hmem := seek_mem k l
      rw [hseek] at hmem
      apply hk (.there hmem hexpand hreaches)

end Finds

/-! ### Contents -/

/-- The entries of a list are those of a map. -/
def Maps (l : List (Item κ ν σ)) (m : κ → Option ν) : Prop :=
  ∀ k v, .entry k v ∈ l ↔ m k = some v

/-- A list without holes. -/
def Solid (l : List (Item κ ν σ)) : Prop := ∀ h, .hole h ∉ l

section Maps

variable {key : κ} {val : ν} {l l' : List (Item κ ν σ)} {m : κ → Option ν}

variable {k : κ}

omit [LinearOrder κ] in
theorem mem_keys :
  k ∈ keys l ↔ ∃ v, .entry k v ∈ l
  := by
  constructor
  · intro hk
    obtain ⟨x, hx, hkey⟩ := List.mem_filterMap.mp hk
    cases x with
    | hole x => cases hkey
    | entry k' v =>
        cases hkey
        use v
  · rintro ⟨v, hv⟩
    exact List.mem_filterMap.mpr ⟨_, hv, rfl⟩

omit [LinearOrder κ] in
theorem Maps.not_mem_keys (h : Maps l m) :
  k ∉ keys l ↔ m k = none
  := by
  rw [mem_keys, Option.eq_none_iff_forall_ne_some]
  simp only [h k, not_exists]

/-- What a search finds is what the map has. -/
theorem Maps.seek {a : Option ν} (h : Maps l m) (hs : Sorted l) (hseek : seek l k = .inl a) :
  a = m k
  := by
  cases a with
  | none => rw [h.not_mem_keys.mp (not_mem_keys_of_seek hs hseek)]
  | some v =>
      have hmem := seek_mem k l
      rw [hseek] at hmem
      rw [(h k v).mp hmem]

/-- What the entries at the place of a key are replaced by is what the key maps to. -/
theorem Maps.splice [DecidableEq κ] {p q : List (Item κ ν σ)} (old new : Option ν)
    (hp : ∀ x ∈ keys p, x < key) (hq : ∀ x ∈ keys q, key < x)
    (h : Maps (p ++ (old.toList.map (.entry key) ++ q)) m) :
  Maps (p ++ (new.toList.map (.entry key) ++ q)) (Function.update m key new)
  := by
  intro k v
  rcases eq_or_ne k key with rfl | hk
  · have hnotp : .entry k v ∉ p := fun hmem => lt_irrefl k (hp k (mem_keys.mpr ⟨v, hmem⟩))
    have hnotq : .entry k v ∉ q := fun hmem => lt_irrefl k (hq k (mem_keys.mpr ⟨v, hmem⟩))
    simp [hnotp, hnotq]
  · rw [Function.update_of_ne hk, ← h k v]
    simp [hk.symm]

theorem Inserted.maps [DecidableEq κ] (hi : Inserted key val l l') (h : Maps l m) :
  Maps l' (Function.update m key (some val))
  := by
  obtain ⟨p, q, rfl, rfl, -, hp, hq⟩ := hi
  exact Maps.splice none (some val) hp hq h

theorem Updated.maps [DecidableEq κ] (hu : Updated key val l l') (hs : Sorted l) (h : Maps l m) :
  Maps l' (Function.update m key (some val))
  := by
  obtain ⟨p, q, old, rfl, rfl⟩ := hu
  obtain ⟨-, -, hp, hq⟩ := sorted_append.mp hs
  exact Maps.splice (some old) (some val) hp hq h

theorem Removed.maps [DecidableEq κ] (hr : Removed key val l l') (hs : Sorted l) (h : Maps l m) :
  Maps l' (Function.update m key none)
  := by
  obtain ⟨p, q, rfl, rfl⟩ := hr
  obtain ⟨-, -, hp, hq⟩ := sorted_append.mp hs
  exact Maps.splice (some val) none hp hq h

omit [LinearOrder κ] in
theorem Maps.tail {v : ν} [DecidableEq κ] (h : Maps (.entry k v :: l) m) (hk : k ∉ keys l) :
  Maps l (Function.update m k none)
  := by
  intro k' v'
  rcases eq_or_ne k' k with rfl | hne
  · rw [Function.update_self]
    simp only [reduceCtorEq, iff_false]
    intro hmem
    apply hk (mem_keys.mpr ⟨v', hmem⟩)
  · rw [Function.update_of_ne hne, ← h k' v']
    simp [hne]

/-- Sorted lists without holes and with the same entries are equal. -/
theorem Maps.unique :
  ∀ {l l' : List (Item κ ν σ)} {m : κ → Option ν}, Maps l m → Maps l' m → Sorted l → Sorted l' →
    Solid l → Solid l' → l = l'
  | [], [], _, _, _, _, _, _, _ => rfl
  | .hole x :: _, _, _, _, _, _, _, hsolid, _ => absurd List.mem_cons_self (hsolid x)
  | _, .hole x :: _, _, _, _, _, _, _, hsolid => absurd List.mem_cons_self (hsolid x)
  | [], .entry k v :: l', _, h, h', _, _, _, _ => by
      have hmem := (h k v).mpr ((h' k v).mp List.mem_cons_self)
      cases hmem
  | .entry k v :: l, [], _, h, h', _, _, _, _ => by
      have hmem := (h' k v).mpr ((h k v).mp List.mem_cons_self)
      cases hmem
  | .entry k v :: l, .entry k' v' :: l', m, h, h', hs, hs', hsolid, hsolid' => by
      obtain ⟨hlt, hl⟩ := List.pairwise_cons.mp hs
      obtain ⟨hlt', hl'⟩ := List.pairwise_cons.mp hs'
      have hv := (h k v).mp List.mem_cons_self
      have hv' := (h' k' v').mp List.mem_cons_self
      have hk : k = k' := by
        apply le_antisymm
        · rcases List.mem_cons.mp ((h k' v').mpr hv') with heq | hmem
          · cases heq
            apply le_rfl
          · apply (hlt k' (mem_keys.mpr ⟨v', hmem⟩)).le
        · rcases List.mem_cons.mp ((h' k v).mpr hv) with heq | hmem
          · cases heq
            apply le_rfl
          · apply (hlt' k (mem_keys.mpr ⟨v, hmem⟩)).le
      subst hk
      rw [hv] at hv'
      obtain rfl := Option.some.inj hv'
      have htail := Maps.unique (h.tail (fun hk => lt_irrefl k (hlt k hk)))
        (h'.tail (fun hk => lt_irrefl k (hlt' k hk))) hl hl'
        (fun x hx => hsolid x (List.mem_cons_of_mem _ hx))
        (fun x hx => hsolid' x (List.mem_cons_of_mem _ hx))
      rw [htail]

end Maps

/-! ### Entries in order -/

section Ascending

/-- Entries in the order of their keys. -/
def Ascending (es : List (κ × ν)) : Prop := (es.map Prod.fst).Pairwise (· < ·)

/-- A key that precedes all entries is not among them. -/
theorem lookup_of_gt [BEq κ] [LawfulBEq κ] {es : List (κ × ν)} {k : κ} (h : ∀ e ∈ es, k < e.1) :
  es.lookup k = none
  := by
  apply List.lookup_eq_none_iff.mpr
  intro e he
  simpa using ne_of_lt (h e he)

end Ascending

end Holed
