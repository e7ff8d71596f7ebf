import Shrike.Mst.FiniteMap
import Shrike.Mst.CoveringProof
import Shrike.Mst.Store

/-!
# Differences of trees

What two trees hold differently, from one pass over their entries in key order. A tree that was
built by the operations of a tree, over any sources, lists its entries in order, and the
difference of two such trees is exact.
-/

namespace Shrike.Mst

open Holed Except

/-! ### Trees over a store -/

/-- A tree over the store that its nodes are read from. -/
structure Tree where
  inner : DetachedTree
  getBlock : Cid → Except MstError Bytes

/-- The store as a block source: a block that it does not find is absent. -/
def Tree.source (t : Tree) : BlockSource := fun cid =>
  match t.getBlock cid with
  | .ok data => .ok (some data)
  | .error (.blockNotFound _) => .ok none
  | .error e => .error e

/-- What differs between two trees: the entries of the second whose keys the first does not
have, the keys of both with their two values, and the entries of the first whose keys the second
does not have. -/
structure Diff where
  added : List (Key × Cid)
  updated : List (Key × Cid × Cid)
  removed : List (Key × Cid)

/-- Nothing differs. -/
def Diff.default : Diff := { added := [], updated := [], removed := [] }

/-- Compare two lists of entries from a cursor in each, while there are entries on either
side. -/
def diffEntries (result : Diff) : List (Key × Cid) → List (Key × Cid) → Diff
  | [], rs => { result with added := result.added ++ rs }
  | l :: ls, [] => { result with removed := result.removed ++ l :: ls }
  | (lk, lv) :: ls, (rk, rv) :: rs =>
      if lk = rk then
        if lv ≠ rv then
          diffEntries { result with updated := result.updated ++ [(lk, lv, rv)] } ls rs
        else diffEntries result ls rs
      else if lk < rk then
        diffEntries { result with removed := result.removed ++ [(lk, lv)] } ls ((rk, rv) :: rs)
      else diffEntries { result with added := result.added ++ [(rk, rv)] } ((lk, lv) :: ls) rs
termination_by ls rs => ls.length + rs.length

section Trees

variable [Hashing]

/-- The entries of a tree, in order. -/
def Tree.entries (t : Tree) : Except MstError (List (Key × Cid)) × Tree :=
  ((t.inner.entries t.source).1, { t with inner := (t.inner.entries t.source).2 })

/-- The differences between two trees, and the trees with their nodes read. -/
def diff (left right : Tree) : Except MstError Diff × Tree × Tree :=
  match left.entries with
  | (.error e, left) => (.error e, left, right)
  | (.ok ls, left) =>
      match right.entries with
      | (.error e, right) => (.error e, left, right)
      | (.ok rs, right) => (.ok (diffEntries .default ls rs), left, right)

/-! ### Trees that operations build -/

/-- The trees that the operations of a tree build, over any sources. -/
inductive DetachedTree.Reached : DetachedTree → Prop
  | new : Reached .new
  | load (root : Cid) : Reached (.load root)
  | reading {t t' src} (h : Reached t) (hr : Reading src t t') :
      Reached t'
  | insert {t : DetachedTree} (h : Reached t) (src : BlockSource) (key : Key) (val : Cid) :
      Reached (t.insert src key val).2
  | remove {t : DetachedTree} (h : Reached t) (src : BlockSource) (key : Key) :
      Reached (t.remove src key).2
  | flush {t : DetachedTree} (h : Reached t) : Reached t.flush.2

omit [Hashing] in
theorem ordered_absent :
  Ordered .root Child.absent.items
  where
  sorted := .nil
  admitted k hk := by cases hk
  valid k hk := by cases hk

variable {t t' : DetachedTree}

theorem Ordered.reading {src : BlockSource}
    (h : t.poisoned = false → Ordered .root t.root.items) (hr : Reading src t t')
    (hp : t'.poisoned = false) :
  Ordered .root t'.root.items
  := by
  rw [hr.poisoned] at hp
  exact hr.root.loads.ordered (h hp)

theorem DetachedTree.insert_ordered
    (h : t.poisoned = false → Ordered .root t.root.items) (src : BlockSource) (key : Key) (val : Cid)
    (hpoisoned : (t.insert src key val).2.poisoned = false) :
  Ordered .root (t.insert src key val).2.root.items
  := by
  rcases hins : t.insert src key val with ⟨r, t'⟩
  rw [hins] at hpoisoned
  cases r with
  | error e => exact Ordered.reading h (insert_error hins) hpoisoned
  | ok a =>
      rcases insert_cases hins with ⟨e, he, -⟩ | ⟨hp, hvalid, t₁, a', -, hreading, hfind, hwrite⟩
      · cases he
      · have h₁ := hreading.root.loads.ordered (h hp)
        rcases hwrite with ⟨-, rfl⟩ | ⟨root, released, -, hupdate, rfl⟩
          | ⟨root, released, rfl, hinsert, rfl⟩
        · exact h₁
        · exact h₁.updated hupdate.updated
        · have hkey : key ∉ keys t₁.root.items := by
            apply not_mem_keys_of_seek h₁.sorted
            rw [← hfind, t₁.root.find_eq_seek key h₁.sorted]
          exact h₁.inserted hvalid (hinsert.inserted h₁.sorted hkey)

theorem DetachedTree.remove_ordered
    (h : t.poisoned = false → Ordered .root t.root.items) (src : BlockSource) (key : Key)
    (hpoisoned : (t.remove src key).2.poisoned = false) :
  Ordered .root (t.remove src key).2.root.items
  := by
  rcases hrem : t.remove src key with ⟨r, t'⟩
  rw [hrem] at hpoisoned
  cases r with
  | error e => exact Ordered.reading h (remove_error hrem) hpoisoned
  | ok a =>
      rcases remove_cases hrem with ⟨e, he, -⟩ | ⟨hp, t₁, a', -, hreading, hfind, hwrite⟩
      · cases he
      · have h₁ := hreading.root.loads.ordered (h hp)
        rcases hwrite with ⟨-, -, rfl⟩ | ⟨val, root, removed, released, rfl, hremove, -, rfl⟩
        · exact h₁
        · obtain rfl := removeFromRoot_found hfind hremove
          obtain ⟨n, dropped, trimmed, hrm, htrim, -⟩ := remove_trim_of_removeFromRoot hremove
          have hr := hrm.removed
          rw [← htrim.items] at hr
          exact h₁.removed hr

/-- A tree that operations built is in key order, unless a failed flush left it unusable. -/
theorem DetachedTree.Reached.ordered (h : t.Reached) :
  t.poisoned = false → Ordered .root t.root.items
  := by
  induction h with
  | new => exact fun _ => ordered_absent
  | load root => exact fun _ => ⟨.nil, (fun _ hk => by cases hk), fun _ hk => by cases hk⟩
  | reading _ hr ih => exact Ordered.reading ih hr
  | insert _ src key val ih => exact insert_ordered ih src key val
  | remove _ src key ih => exact remove_ordered ih src key
  | @flush t _ ih =>
      intro hp
      rcases hflush : t.flush with ⟨r, t'⟩
      rw [hflush] at hp
      rcases flush_items hflush with hpoisoned | hitems
      · rw [hpoisoned] at hp
        cases hp
      · rw [hitems]
        apply ih
        by_contra hpt
        rw [DetachedTree.flush, if_pos (Bool.eq_true_of_not_eq_false hpt)] at hflush
        cases hflush
        exact hpt hp

/-- A tree that operations built lists its entries in key order. -/
theorem DetachedTree.Reached.ascending (h : t.Reached) {src : BlockSource}
    {l : List (Key × Cid)} (hl : t.entries src = (.ok l, t')) :
  Ascending l
  := by
  have hr : Reading src t t' := by
    have hr := t.walk_reading src (fun result key val => .ok (result ++ [(key, val)])) []
    rw [← DetachedTree.entries, hl] at hr
    exact hr
  have hp : t.poisoned = false := by
    by_contra hp
    rw [DetachedTree.entries, DetachedTree.walk, if_pos (Bool.eq_true_of_not_eq_false hp)] at hl
    cases hl
  have hitems : t'.root.items = l.map (fun e => .entry e.1 e.2) := by
    apply walk_items _ hl
    intro s k v s' hs
    cases hs
    rfl
  have hsorted := (hr.root.loads.ordered (h.ordered hp)).sorted
  rw [hitems, Sorted, keys_entries] at hsorted
  exact hsorted

/-! ### The difference of two listings -/

namespace Diff

/-- The entries of `l` whose keys `m` does not have. -/
def only (l m : List (Key × Cid)) : List (Key × Cid) := l.filter fun e => (m.lookup e.1).isNone

/-- The key of an entry with its value and the other that a list has for it, if there is one. -/
def changeOf (m : List (Key × Cid)) (e : Key × Cid) : Option (Key × Cid × Cid) :=
  match m.lookup e.1 with
  | some new => if e.2 ≠ new then some (e.1, e.2, new) else none
  | none => none

/-- The keys that both lists have with different values. -/
def changed (l m : List (Key × Cid)) : List (Key × Cid × Cid) := l.filterMap (changeOf m)

variable {l m : List (Key × Cid)}

omit [Hashing] in
/-- An entry before all others does not matter to what only those have. -/
theorem only_cons_of_gt {e : Key × Cid} (h : ∀ x ∈ l, e.1 < x.1) :
  only l (e :: m) = only l m
  := by
  apply List.filter_congr
  intro x hx
  rw [List.lookup_cons, beq_false_of_ne (ne_of_gt (h x hx))]

omit [Hashing] in
theorem changed_cons_of_gt {e : Key × Cid} (h : ∀ x ∈ l, e.1 < x.1) :
  changed l (e :: m) = changed l m
  := by
  apply List.filterMap_congr
  intro x hx
  rw [changeOf, changeOf, List.lookup_cons, beq_false_of_ne (ne_of_gt (h x hx))]

variable {k : Key}

variable {v w : Cid}

omit [Hashing] in
/-- An entry whose key starts both lists is not only in the one. -/
theorem only_cons (h : ∀ x ∈ l, k < x.1) :
  only ((k, v) :: l) ((k, w) :: m) = only l m
  := by
  have htail := @only_cons_of_gt l m (k, w) h
  rw [only, List.filter_cons_of_neg (by simp)]
  exact htail

omit [Hashing] in
/-- A key that starts both lists is changed if its values differ. -/
theorem changed_cons (h : ∀ x ∈ l, k < x.1) :
  changed ((k, v) :: l) ((k, w) :: m)
    = if v ≠ w then (k, v, w) :: changed l m else changed l m
  := by
  have htail := @changed_cons_of_gt l m (k, w) h
  rw [changed] at htail
  rw [changed, List.filterMap_cons, changeOf, List.lookup_cons_self, htail]
  by_cases hne : v = w
  · simp [hne]
  · simp [hne]

omit [Hashing] in
theorem only_cons_of_none (h : m.lookup k = none) :
  only ((k, v) :: l) m = (k, v) :: only l m
  := by
  rw [only, List.filter_cons_of_pos (by simp [h]), only]

omit [Hashing] in
theorem changed_cons_of_none (h : m.lookup k = none) :
  changed ((k, v) :: l) m = changed l m
  := by
  rw [changed, List.filterMap_cons, changeOf, h, changed]

omit [Hashing] in
theorem only_nil (l : List (Key × Cid)) :
  only l [] = l
  := by
  rw [only, List.filter_eq_self]
  intro e _
  rfl

omit [Hashing] in
theorem changed_nil (l : List (Key × Cid)) :
  changed l [] = []
  := by
  rw [changed, List.filterMap_eq_nil_iff]
  intro e _
  rfl

end Diff

omit [Hashing] in
theorem ascending_gt_of_cons {e : Key × Cid} {l : List (Key × Cid)} (h : Ascending (e :: l)) :
  ∀ x ∈ l, e.1 < x.1
  := by
  intro x hx
  exact (List.pairwise_cons.mp h).1 x.1 (List.mem_map_of_mem hx)

omit [Hashing] in
theorem ascending_of_cons {e : Key × Cid} {l : List (Key × Cid)} (h : Ascending (e :: l)) :
  Ascending l
  := (List.pairwise_cons.mp h).2

open Diff in
omit [Hashing] in
/-- Comparing two listings from two cursors collects what only the one has, what only the other
has, and what both have with different values. -/
theorem diffEntries_eq (result : Diff) (ls rs : List (Key × Cid)) (hl : Ascending ls)
    (hr : Ascending rs) :
  diffEntries result ls rs
    = { added := result.added ++ only rs ls, updated := result.updated ++ changed ls rs,
        removed := result.removed ++ only ls rs }
  := by
  fun_induction diffEntries result ls rs with
  | case1 result rs => simp [changed, only]
  | case2 result l ls =>
      rw [only_nil, changed_nil, List.append_nil]
      simp [only]
  | case3 result lv ls k rv rs hne ih =>
      rw [ih (ascending_of_cons hl) (ascending_of_cons hr), only_cons (ascending_gt_of_cons hr), only_cons (ascending_gt_of_cons hl),
        changed_cons (ascending_gt_of_cons hl), if_pos hne]
      simp
  | case4 result lv ls k rv rs heq ih =>
      rw [ih (ascending_of_cons hl) (ascending_of_cons hr), only_cons (ascending_gt_of_cons hr), only_cons (ascending_gt_of_cons hl),
        changed_cons (ascending_gt_of_cons hl), if_neg heq]
  | case5 result lk lv ls rk rv rs _ hlt ih =>
      have hgt : ∀ x ∈ (rk, rv) :: rs, lk < x.1 :=
        List.forall_mem_cons.mpr ⟨hlt, fun x hx => lt_trans hlt (ascending_gt_of_cons hr x hx)⟩
      have hnone := lookup_of_gt hgt
      rw [ih (ascending_of_cons hl) hr, @only_cons_of_gt _ _ (lk, lv) hgt, only_cons_of_none hnone,
        changed_cons_of_none hnone]
      simp
  | case6 result lk lv ls rk rv rs hne hnot ih =>
      have hlt : rk < lk := lt_of_le_of_ne (not_lt.mp hnot) (Ne.symm hne)
      have hgt : ∀ x ∈ (lk, lv) :: ls, rk < x.1 :=
        List.forall_mem_cons.mpr ⟨hlt, fun x hx => lt_trans hlt (ascending_gt_of_cons hl x hx)⟩
      have hnone := lookup_of_gt hgt
      rw [ih hl (ascending_of_cons hr), @only_cons_of_gt _ _ (rk, rv) hgt, only_cons_of_none hnone,
        @changed_cons_of_gt _ _ (rk, rv) hgt]
      simp

/-! ### The difference is exact -/

namespace Diff

/-- Apply a difference to a map: remove the removed keys, then set the updated and the added
ones. -/
def apply (d : Diff) (m : Key → Option Cid) : Key → Option Cid :=
  let m := d.removed.foldl (fun (m : Key → Option Cid) e => Function.update m e.1 none) m
  let m := d.updated.foldl (fun (m : Key → Option Cid) e => Function.update m e.1 (some e.2.2)) m
  d.added.foldl (fun (m : Key → Option Cid) e => Function.update m e.1 (some e.2)) m

/-- `d.Exact ls rs`: the difference partitions the keys of two listings. What is added is
exactly what only the second has, what is removed exactly what only the first has, and what is
updated exactly what both have with different values. The lists are in key order, no two of them
have a key in common, and applied to the first listing they give the second. -/
structure Exact (d : Diff) (ls rs : List (Key × Cid)) : Prop where
  added : ∀ k v, (k, v) ∈ d.added ↔ (k, v) ∈ rs ∧ k ∉ ls.map Prod.fst
  removed : ∀ k v, (k, v) ∈ d.removed ↔ (k, v) ∈ ls ∧ k ∉ rs.map Prod.fst
  updated : ∀ k old new, (k, old, new) ∈ d.updated ↔ (k, old) ∈ ls ∧ (k, new) ∈ rs ∧ old ≠ new
  added_sorted : (d.added.map Prod.fst).Pairwise (· < ·)
  removed_sorted : (d.removed.map Prod.fst).Pairwise (· < ·)
  updated_sorted : (d.updated.map Prod.fst).Pairwise (· < ·)
  added_removed : (d.added.map Prod.fst).Disjoint (d.removed.map Prod.fst)
  added_updated : (d.added.map Prod.fst).Disjoint (d.updated.map Prod.fst)
  removed_updated : (d.removed.map Prod.fst).Disjoint (d.updated.map Prod.fst)
  apply_eq : ∀ k, d.apply (fun k => ls.lookup k) k = rs.lookup k

variable {l m : List (Key × Cid)}

variable {k : Key}

omit [Hashing] in
theorem isNone_lookup :
  (l.lookup k).isNone = true ↔ k ∉ l.map Prod.fst
  := by
  rw [Option.isNone_iff_eq_none, List.lookup_eq_none_iff]
  simp only [List.mem_map, not_exists, not_and, bne_iff_ne, ne_eq]
  constructor
  · rintro h e he rfl
    exact h e he rfl
  · rintro h e he rfl
    exact h e he rfl

variable {v new old : Cid}

omit [Hashing] in
theorem mem_only :
  (k, v) ∈ only l m ↔ (k, v) ∈ l ∧ k ∉ m.map Prod.fst
  := by
  rw [only, List.mem_filter, isNone_lookup]

omit [Hashing] in
theorem lookup_iff_mem (hl : Ascending l) :
  l.lookup k = some v ↔ (k, v) ∈ l
  := ⟨List.mem_of_lookup, List.lookup_of_mem (hl.imp ne_of_lt)⟩

omit [Hashing] in
theorem changeOf_eq_some {e : Key × Cid} :
  changeOf m e = some (k, old, new) ↔ e = (k, old) ∧ m.lookup k = some new ∧ old ≠ new
  := by
  obtain ⟨k', v⟩ := e
  rw [changeOf]
  split
  · rename_i w hw
    split_ifs with hne
    · simp only [Option.some.injEq, Prod.mk.injEq]
      constructor
      · rintro ⟨rfl, rfl, rfl⟩
        exact ⟨⟨rfl, rfl⟩, hw, hne⟩
      · rintro ⟨⟨rfl, rfl⟩, hlookup, -⟩
        exact ⟨rfl, rfl, Option.some.inj (hw.symm.trans hlookup)⟩
    · simp only [false_iff, Prod.mk.injEq]
      rintro ⟨⟨rfl, rfl⟩, hlookup, hne'⟩
      obtain rfl := Option.some.inj (hw.symm.trans hlookup)
      exact hne hne'
  · rename_i hw
    simp only [reduceCtorEq, false_iff, Prod.mk.injEq]
    rintro ⟨⟨rfl, rfl⟩, hlookup, -⟩
    rw [hw] at hlookup
    cases hlookup

omit [Hashing] in
theorem mem_changed (hm : Ascending m) :
  (k, old, new) ∈ changed l m ↔ (k, old) ∈ l ∧ (k, new) ∈ m ∧ old ≠ new
  := by
  rw [changed, List.mem_filterMap]
  simp only [changeOf_eq_some, lookup_iff_mem hm]
  constructor
  · rintro ⟨e, he, rfl, hnew, hne⟩
    exact ⟨he, hnew, hne⟩
  · rintro ⟨hold, hnew, hne⟩
    exact ⟨_, hold, rfl, hnew, hne⟩

omit [Hashing] in
/-- The changed keys are keys of the first list, in the same order. -/
theorem changed_keys (m : List (Key × Cid)) :
  ∀ l : List (Key × Cid), ((changed l m).map Prod.fst).Sublist (l.map Prod.fst)
  | [] => .slnil
  | e :: l => by
      have ih := changed_keys m l
      rw [changed] at ih ⊢
      rw [List.filterMap_cons]
      split
      · exact ih.cons _
      · rename_i x hx
        obtain ⟨k, old, new⟩ := x
        obtain ⟨rfl, -, -⟩ := changeOf_eq_some.mp hx
        exact ih.cons_cons k

omit [Hashing] in
/-- Setting the keys of a list one after the other sets what it looks up. -/
theorem foldl_update {α : Type} {f : Key × α → Option Cid} :
  ∀ {l : List (Key × α)} {m : Key → Option Cid}, (l.map Prod.fst).Pairwise (· < ·) →
    l.foldl (fun (m : Key → Option Cid) e => Function.update m e.1 (f e)) m k
      = ((l.lookup k).map fun a => f (k, a)).getD (m k)
  | [], _, _ => rfl
  | e :: l, m, hl => by
      obtain ⟨hlt, hl⟩ := List.pairwise_cons.mp hl
      rw [List.foldl_cons, foldl_update hl, List.lookup_cons]
      rcases eq_or_ne k e.1 with rfl | hne
      · have hnone : l.lookup e.1 = none := by
          apply lookup_of_gt
          intro x hx
          exact hlt x.1 (List.mem_map_of_mem hx)
        rw [hnone, beq_self_eq_true, Option.map_none, Option.getD_none, Function.update_self]
        rfl
      · rw [beq_false_of_ne hne, Function.update_of_ne hne]

omit [Hashing] in
theorem only_keys (l m : List (Key × Cid)) :
  ((only l m).map Prod.fst).Sublist (l.map Prod.fst)
  := List.filter_sublist.map Prod.fst

omit [Hashing] in
theorem not_mem_of_mem_only (hk : k ∈ (only l m).map Prod.fst) :
  k ∉ m.map Prod.fst
  := by
  obtain ⟨⟨k', v⟩, he, rfl⟩ := List.mem_map.mp hk
  exact (mem_only.mp he).2

omit [Hashing] in
theorem mem_of_mem_changed (hm : Ascending m) (hk : k ∈ (changed l m).map Prod.fst) :
  k ∈ l.map Prod.fst ∧ k ∈ m.map Prod.fst
  := by
  obtain ⟨⟨k', old, new⟩, he, rfl⟩ := List.mem_map.mp hk
  obtain ⟨hold, hnew, -⟩ := (mem_changed hm).mp he
  exact ⟨List.mem_map_of_mem hold, List.mem_map_of_mem hnew⟩

omit [Hashing] in
/-- What only a list has is looked up in it, where the other list has no value. -/
theorem lookup_only (hl : Ascending l) (k : Key) :
  (only l m).lookup k = if (m.lookup k).isNone then l.lookup k else none
  := by
  have hsorted : Ascending (only l m) := hl.sublist (only_keys l m)
  ext v
  rw [lookup_iff_mem hsorted, mem_only, ← isNone_lookup]
  split_ifs with hnone
  · rw [lookup_iff_mem hl, and_iff_left hnone]
  · simp [hnone]

omit [Hashing] in
theorem lookup_changed (hl : Ascending l) (hm : Ascending m) :
  (changed l m).lookup k = some (old, new) ↔
    l.lookup k = some old ∧ m.lookup k = some new ∧ old ≠ new
  := by
  have hsorted : ((changed l m).map Prod.fst).Pairwise (· < ·) := hl.sublist (changed_keys m l)
  rw [lookup_iff_mem hl, lookup_iff_mem hm, ← mem_changed hm]
  exact ⟨List.mem_of_lookup, List.lookup_of_mem (hsorted.imp ne_of_lt)⟩

omit [Hashing] in
/-- The comparison of two ascending listings is their exact difference. -/
theorem exact_of_ascending {ls rs : List (Key × Cid)} (hl : Ascending ls) (hr : Ascending rs) :
  (diffEntries .default ls rs).Exact ls rs
  := by
  rw [diffEntries_eq _ ls rs hl hr]
  simp only [Diff.default, List.nil_append]
  exact {
    added _ _ := mem_only
    removed _ _ := mem_only
    updated _ _ _ := mem_changed hr
    added_sorted := hr.sublist (only_keys rs ls)
    removed_sorted := hl.sublist (only_keys ls rs)
    updated_sorted := hl.sublist (changed_keys rs ls)
    added_removed k hk hk' := not_mem_of_mem_only hk' ((only_keys rs ls).subset hk)
    added_updated k hk hk' := not_mem_of_mem_only hk (mem_of_mem_changed hr hk').1
    removed_updated k hk hk' := not_mem_of_mem_only hk (mem_of_mem_changed hr hk').2
    apply_eq k := by
      simp only [Diff.apply]
      rw [foldl_update (f := fun e => some e.2) (hr.sublist (only_keys rs ls)),
        foldl_update (f := fun e => some e.2.2) (hl.sublist (changed_keys rs ls)),
        foldl_update (f := fun _ => none) (hl.sublist (only_keys ls rs)),
        lookup_only hr, lookup_only hl]
      rcases hleft : ls.lookup k with - | old
      · rcases hright : rs.lookup k with - | new
        · rcases hc : (changed ls rs).lookup k with - | ⟨old, new⟩
          · rfl
          · rw [(lookup_changed hl hr).mp hc |>.1] at hleft
            cases hleft
        · rfl
      · rcases hright : rs.lookup k with - | new
        · rcases hc : (changed ls rs).lookup k with - | ⟨old', new⟩
          · rfl
          · rw [(lookup_changed hl hr).mp hc |>.2.1] at hright
            cases hright
        · rcases hc : (changed ls rs).lookup k with - | ⟨old', new'⟩
          · by_cases hne : old = new
            · rw [hne]
              rfl
            · rw [(lookup_changed hl hr).mpr ⟨hleft, hright, hne⟩] at hc
              cases hc
          · rw [(lookup_changed hl hr).mp hc |>.2.1] at hright
            cases hright
            rfl
  }

end Diff

/-- Of two trees that list their entries, whatever operations built them and over whatever
stores, the difference is exact. -/
theorem diff_exact {left right : Tree} {ls rs : List (Key × Cid)} (hl : left.inner.Reached)
    (hr : right.inner.Reached) (hls : left.entries.1 = .ok ls) (hrs : right.entries.1 = .ok rs) :
  ∃ d, (diff left right).1 = .ok d ∧ d.Exact ls rs
  := by
  have hasc : ∀ {t : Tree} {l : List (Key × Cid)}, t.inner.Reached → t.entries.1 = .ok l →
      Ascending l := by
    intro t l ht hl
    have hentries : t.inner.entries t.source = (.ok l, (t.inner.entries t.source).2) :=
      Prod.ext hl rfl
    exact ht.ascending hentries
  refine ⟨diffEntries .default ls rs, ?_, Diff.exact_of_ascending (hasc hl hls) (hasc hr hrs)⟩
  rcases hleft : left.entries with ⟨r, left'⟩
  rcases hright : right.entries with ⟨r', right'⟩
  rw [hleft] at hls
  rw [hright] at hrs
  subst hls hrs
  rw [diff, hleft, hright]

end Trees

/-! ### Two trees of two entries -/

namespace Compared

attribute [local instance] Hashing.checksum

/-- The key `c/x` for a letter `x`. -/
def key (x : UInt8) : Key := [0x63, 0x2f, x]

/-- A value for a byte. -/
def val (x : UInt8) : Cid := ⟨.raw, .fill x⟩

/-- A store without blocks. -/
def absent (cid : Cid) : Except MstError Bytes := .error (.blockNotFound cid)

/-- A tree that the values of `v` are inserted into, over the empty store. -/
def tree (v : List (UInt8 × UInt8)) : Tree where
  inner := v.foldl (fun t e => (t.insert (fun _ => .ok none) (key e.1) (val e.2)).2) .new
  getBlock := absent

theorem tree_reached (v : List (UInt8 × UInt8)) :
  (tree v).inner.Reached
  := by
  apply List.foldlRecOn (motive := DetachedTree.Reached)
  · exact .new
  · intro t ht e _
    exact ht.insert _ _ _

/-- A tree of `c/a` and `c/b`. -/
def left : Tree := tree [(0x61, 1), (0x62, 1)]

/-- A tree with another value for `c/b`, and with `c/d`. -/
def right : Tree := tree [(0x62, 2), (0x64, 1)]

/-- From the one tree to the other one key is removed, one updated and one added. -/
theorem left_right_exact :
  ∃ d, (diff left right).1 = .ok d ∧
    d.Exact [(key 0x61, val 1), (key 0x62, val 1)] [(key 0x62, val 2), (key 0x64, val 1)]
  := diff_exact (tree_reached _) (tree_reached _) (by decide +kernel) (by decide +kernel)

end Compared

end Shrike.Mst
