import Shrike.Mst.Steps
import Shrike.Data.Holed

/-!
# The contents of a tree

The items of a tree in key order, its entries and its unread nodes, and how each mutation
changes them: a split and a merge keep them, an insert puts an entry in a gap, a remove
takes one out.
-/

namespace Shrike.Mst

open Holed

/-- An item of a tree: an entry, or an unread node, which is a hole. -/
abbrev Item := Holed.Item Key Cid Cid

mutual

/-- The items of a subtree, in order. -/
def Child.items : Child → List Item
  | .absent => []
  | .stub cid _ => [.hole cid]
  | .node _ _ body => body.items

/-- The items of the contents of a node, in order. -/
def Body.items : Body → List Item
  | .edge c => c.items
  | .entry c key val rest => c.items ++ .entry key val :: rest.items

end

mutual

/-- The search for a key among the loaded nodes: its value or that it is absent, or the
unread node that it would be in. -/
def Child.find (key : Key) : Child → Option Cid ⊕ Cid
  | .absent => .inl none
  | .stub cid _ => .inr cid
  | .node _ _ body => body.find key

/-- The search for a key in the contents of a node. -/
def Body.find (key : Key) : Body → Option Cid ⊕ Cid
  | .edge c => c.find key
  | .entry c k v rest =>
      if k < key then rest.find key else if k = key then .inl (some v) else c.find key

end

mutual

/-- Between any two unread nodes of a subtree there is an entry. -/
theorem Child.items_separated :
  ∀ c : Child, Separated c.items
  | .absent => .nil
  | .stub _ _ => .singleton _
  | .node _ _ body => body.items_separated

theorem Body.items_separated :
  ∀ b : Body, Separated b.items
  | .edge c => c.items_separated
  | .entry c _ _ rest => separated_append.mpr ⟨c.items_separated, rest.items_separated⟩

end

mutual

/-- In a sorted tree the search through the nodes is the search through the items. -/
theorem Child.find_eq_seek (key : Key) :
  ∀ c : Child, Sorted c.items → c.find key = seek c.items key
  | .absent, _ => rfl
  | .stub _ _, _ => rfl
  | .node _ _ body, h => body.find_eq_seek key h

theorem Body.find_eq_seek (key : Key) :
  ∀ b : Body, Sorted b.items → b.find key = seek b.items key
  | .edge c, h => c.find_eq_seek key h
  | .entry c k v rest, h => by
      obtain ⟨hc, hrest, hlt, -⟩ := sorted_append.mp h
      rw [Body.find, Body.items]
      split_ifs with hk heq
      · rw [rest.find_eq_seek key hrest, seek_after hk v rest.items hlt]
      · subst heq
        rw [seek_entry v rest.items hlt]
      · rw [c.find_eq_seek key hc, seek_cut (lt_of_le_of_ne (not_lt.mp hk) (Ne.symm heq))]

end

/-! ### Positions -/

theorem Body.search_lt {key : Key} :
  ∀ {b : Body} {i : ℕ}, b.search key = (true, i) → i < b.size
  | .edge _, _, h => by cases h
  | .entry _ k _ rest, i, h => by
      rw [search] at h
      split at h
      · obtain ⟨hfound, rfl⟩ := Prod.mk.inj h
        apply Nat.succ_lt_succ (Body.search_lt (Prod.ext hfound rfl))
      · obtain ⟨-, rfl⟩ := Prod.mk.inj h
        apply Nat.succ_pos

/-- Where the search for a key among the entries hits, its entry is there. -/
theorem Body.find_of_hit {key : Key} :
  ∀ {b : Body} {i : ℕ}, b.search key = (true, i) →
    ∃ v, b.valueAt i = some v ∧ b.find key = .inl (some v)
  | .edge _, _, h => by cases h
  | .entry _ k v rest, i, h => by
      rw [search] at h
      rw [find]
      split at h
      · rename_i hk
        obtain ⟨hfound, rfl⟩ := Prod.mk.inj h
        rw [if_pos hk]
        apply Body.find_of_hit (Prod.ext hfound rfl)
      · rename_i hk
        obtain ⟨hfound, rfl⟩ := Prod.mk.inj h
        rw [if_neg hk, if_pos (of_decide_eq_true hfound)]
        use v, rfl

/-- Where the search for a key among the entries misses, it continues in the subtree
there. -/
theorem Body.find_of_miss {key : Key} :
  ∀ {b : Body} {i : ℕ}, b.search key = (false, i) → ∀ c pl,
    b.find key = (b.childAt i pl).1.find key ∧ (b.setChildAt c i).find key = c.find key
  | .edge _, _, _, _, _ => ⟨rfl, rfl⟩
  | .entry _ k v rest, i, h, c, pl => by
      rw [search] at h
      rw [find]
      split at h
      · rename_i hk
        obtain ⟨hfound, rfl⟩ := Prod.mk.inj h
        rw [childAt, setChildAt, find, if_pos hk, if_pos hk]
        apply Body.find_of_miss (Prod.ext hfound rfl)
      · rename_i hk
        obtain ⟨hfound, rfl⟩ := Prod.mk.inj h
        have hne := of_decide_eq_false hfound
        rw [childAt, setChildAt, find, if_neg hk, if_neg hk, if_neg hne, if_neg hne]
        use rfl

/-! ### Splitting and merging -/

@[simp]
theorem trimNode_items (h : ℕ) (b : Body) :
  (trimNode h b).items = b.items
  := by
  unfold trimNode
  split
  · rfl
  · rfl

mutual

/-- A split keeps the items. -/
theorem Split.items {key : Key} :
  ∀ {c l r : Child} {released : List Cid}, Split key c l r released →
    l.items ++ r.items = c.items
  | _, _, _, _, .absent => rfl
  | _, _, _, _, .node hbody => by
      rw [trimNode_items, trimNode_items, hbody.items]
      rfl

theorem SplitBody.items {key : Key} :
  ∀ {b l r : Body} {released : List Cid}, SplitBody key b l r released →
    l.items ++ r.items = b.items
  | _, _, _, _, .edge hc => hc.items
  | _, _, _, _, .skip _ hrest => by
      rw [Body.items, Body.items, ← hrest.items, List.append_assoc, List.cons_append]
  | _, _, _, _, .stop _ hc => by
      rw [Body.items, Body.items, Body.items, ← hc.items, List.append_assoc]

end

mutual

/-- A split is made at a gap. -/
theorem Split.gap {key : Key} :
  ∀ {c l r : Child} {released : List Cid}, Split key c l r released → Gap l.items r.items
  | _, _, _, _, .absent => gap_nil
  | _, _, _, _, .node hbody => by
      rw [trimNode_items, trimNode_items]
      apply hbody.gap

theorem SplitBody.gap {key : Key} :
  ∀ {b l r : Body} {released : List Cid}, SplitBody key b l r released → Gap l.items r.items
  | _, _, _, _, .edge hc => hc.gap
  | _, _, _, _, .skip _ hrest => hrest.gap.entry_left _ _ _
  | _, _, _, _, .stop _ hc => hc.gap.entry_right _ _ _

end

mutual

/-- A split of a sorted tree leaves smaller keys on the left and the others on the right. -/
theorem Split.bounds {key : Key} :
  ∀ {c l r : Child} {released : List Cid}, Split key c l r released → Sorted c.items →
    (∀ x ∈ keys l.items, x < key) ∧ ∀ x ∈ keys r.items, key ≤ x
  | _, _, _, _, .absent, _ => by simp [Child.items]
  | _, _, _, _, .node hbody, h => by
      rw [trimNode_items, trimNode_items]
      apply hbody.bounds h

theorem SplitBody.bounds {key : Key} :
  ∀ {b l r : Body} {released : List Cid}, SplitBody key b l r released → Sorted b.items →
    (∀ x ∈ keys l.items, x < key) ∧ ∀ x ∈ keys r.items, key ≤ x
  | _, _, _, _, .edge hc, h => hc.bounds h
  | _, _, _, _, .skip hk hrest, h => by
      obtain ⟨-, hsorted, hlt, -⟩ := sorted_append.mp h
      obtain ⟨hl, hr⟩ := hrest.bounds hsorted
      refine ⟨?_, hr⟩
      intro x hx
      rw [Body.items, keys_append, keys_entry, List.mem_append, List.mem_cons] at hx
      rcases hx with hx | rfl | hx
      · apply lt_trans (hlt x hx) hk
      · apply hk
      · apply hl x hx
  | _, _, _, _, .stop hk hc, h => by
      obtain ⟨hsorted, -, -, hgt⟩ := sorted_append.mp h
      obtain ⟨hl, hr⟩ := hc.bounds hsorted
      refine ⟨hl, ?_⟩
      intro x hx
      rw [Body.items, keys_append, keys_entry, List.mem_append, List.mem_cons] at hx
      rcases hx with hx | rfl | hx
      · apply hr x hx
      · apply not_lt.mp hk
      · apply le_trans (not_lt.mp hk) (hgt x hx).le

end

/-- The items of a node are those of its left subtree, then the rest, which replacing the
left subtree keeps. -/
theorem Body.items_first (b : Body) :
  ∃ q, b.items = b.first.items ++ q ∧ ∀ c, (b.setFirst c).items = c.items ++ q
  := by
  cases b with
  | edge c =>
      use []
      simp [Body.items, first, setFirst]
  | entry c k v rest =>
      use .entry k v :: rest.items
      simp [Body.items, first, setFirst]

mutual

/-- A merge joins the items. -/
theorem Merge.items :
  ∀ {l r n : Child} {released : List Cid}, Merge l r n released → n.items = l.items ++ r.items
  | _, _, _, _, .left => rfl
  | _, _, _, _, .right => (List.append_nil _).symm
  | _, _, _, _, .node hbody => hbody.items

theorem MergeBody.items :
  ∀ {l r b : Body} {released : List Cid}, MergeBody l r b released → b.items = l.items ++ r.items
  | _, right, _, _, .edge hc => by
      obtain ⟨q, hright, hset⟩ := right.items_first
      rw [hset, hc.items, hright, Body.items, List.append_assoc]
  | _, _, _, _, .entry hrest => by
      rw [Body.items, Body.items, hrest.items, List.append_assoc, List.cons_append]

end

/-! ### Writing -/

theorem freshChain_items (key : Key) (val : Cid) (height n : ℕ) :
  (freshChain key val height n).items = [.entry key val]
  := by
  induction n with
  | zero => rfl
  | succ n ih => simpa only [freshChain, Child.items, Body.items] using ih

theorem wrap_items (c : Child) (n : ℕ) :
  (wrap c n).items = c.items
  := by
  induction n with
  | zero => rfl
  | succ n ih => simpa only [wrap, Child.items, Body.items] using ih

section Write

variable {key : Key} {val : Cid} {height : ℕ}

variable {c c' l r : Child}

variable {released : List Cid}

/-- A split at a key that is not in the tree leaves a gap for it. -/
theorem Split.inserted (h : Split key c l r released)
    (hs : Sorted c.items) (hkey : key ∉ keys c.items) :
  Inserted key val c.items (l.items ++ .entry key val :: r.items)
  := by
  obtain ⟨hl, hr⟩ := h.bounds hs
  use l.items, r.items, h.items.symm, rfl, h.gap, hl
  intro x hx
  apply lt_of_le_of_ne (hr x hx)
  rintro rfl
  apply hkey
  rw [← h.items, keys_append]
  apply List.mem_append_right _ hx

theorem InsertAt.inserted :
  ∀ {b b' : Body} {released : List Cid}, InsertAt key val b b' released → Sorted b.items →
    key ∉ keys b.items → Inserted key val b.items b'.items
  | _, _, _, .edge hc, hs, hkey => hc.inserted hs hkey
  | _, _, _, .skip hk hrest, hs, hkey => by
      obtain ⟨-, hsorted, hlt, -⟩ := sorted_append.mp hs
      rw [Body.items, keys_append, keys_entry, List.mem_append, List.mem_cons, not_or,
        not_or] at hkey
      apply (hrest.inserted hsorted hkey.2.2).after (fun x hx => lt_trans (hlt x hx) hk) hk
  | _, _, _, .same, _, hkey => by simp [Body.items] at hkey
  | .entry _ _ v rest, _, _, .stop hk hc, hs, hkey => by
      obtain ⟨hsorted, -, -, hgt⟩ := sorted_append.mp hs
      rw [Body.items, keys_append, List.mem_append, not_or] at hkey
      rw [Body.items, Body.items, Body.items, ← List.cons_append, ← List.append_assoc]
      apply (hc.inserted hsorted hkey.1).before hk (fun x hx => lt_trans hk (hgt x hx))

mutual

/-- An insert puts the entry in a gap. -/
theorem Insert.inserted :
  ∀ {c c' : Child} {released : List Cid}, Insert key val height c c' released →
    Sorted c.items → key ∉ keys c.items → Inserted key val c.items c'.items
  | _, _, _, .absent, _, _ => by
      rw [freshChain_items]
      use [], []
      simp [Child.items, gap_nil]
  | _, _, _, .raise _ hbody, hs, hkey => by
      have h := hbody.inserted
      rw [Body.items, wrap_items] at h
      apply h hs hkey
  | _, _, _, .down _ hbody, hs, hkey => hbody.inserted hs hkey
  | _, _, _, .level hbody, hs, hkey => hbody.inserted hs hkey

theorem InsertSlot.inserted {h : ℕ} :
  ∀ {c c' : Child} {released : List Cid}, InsertSlot key val height h c c' released →
    Sorted c.items → key ∉ keys c.items → Inserted key val c.items c'.items
  | _, _, _, .fresh, _, _ => by
      rw [freshChain_items]
      use [], []
      simp [Child.items, gap_nil]
  | _, _, _, .insert _ hc, hs, hkey => hc.inserted hs hkey

theorem InsertBelow.inserted {h : ℕ} :
  ∀ {b b' : Body} {released : List Cid}, InsertBelow key val height h b b' released →
    Sorted b.items → key ∉ keys b.items → Inserted key val b.items b'.items
  | _, _, _, .edge hc, hs, hkey => hc.inserted hs hkey
  | _, _, _, .skip hk hrest, hs, hkey => by
      obtain ⟨-, hsorted, hlt, -⟩ := sorted_append.mp hs
      rw [Body.items, keys_append, keys_entry, List.mem_append, List.mem_cons, not_or,
        not_or] at hkey
      apply (hrest.inserted hsorted hkey.2.2).after (fun x hx => lt_trans (hlt x hx) hk) hk
  | _, _, _, .stop hk hc, hs, hkey => by
      obtain ⟨hsorted, -, -, hgt⟩ := sorted_append.mp hs
      rw [Body.items, keys_append, keys_entry, List.mem_append, List.mem_cons, not_or,
        not_or] at hkey
      have hlt := lt_of_le_of_ne (not_lt.mp hk) hkey.2.1
      apply (hc.inserted hsorted hkey.1).before hlt (fun x hx => lt_trans hlt (hgt x hx))

end

mutual

/-- An update replaces the value of the entry. -/
theorem Update.updated :
  ∀ {c c' : Child} {released : List Cid}, Update key val c c' released →
    Updated key val c.items c'.items
  | _, _, _, .node hbody => hbody.updated

theorem UpdateBody.updated :
  ∀ {b b' : Body} {released : List Cid}, UpdateBody key val b b' released →
    Updated key val b.items b'.items
  | _, _, _, .edge hc => hc.updated
  | _, _, _, .skip _ hrest => hrest.updated.after
  | _, _, _, .same => ⟨_, _, _, rfl, rfl⟩
  | _, _, _, .stop _ hc => hc.updated.before

end

mutual

/-- A remove takes out the entry. -/
theorem Remove.removed :
  ∀ {c c' : Child} {released : List Cid}, Remove key c c' val released →
    Removed key val c.items c'.items
  | _, _, _, .node hbody => by
      rw [trimNode_items]
      apply hbody.removed

theorem RemoveBody.removed :
  ∀ {b b' : Body} {released : List Cid}, RemoveBody key b b' val released →
    Removed key val b.items b'.items
  | _, _, _, .edge hc => hc.removed
  | _, _, _, .skip _ hrest => hrest.removed.after
  | _, _, _, .stop _ hc => hc.removed.before
  | .entry c _ _ rest, _, _, .same hmerge => by
      obtain ⟨q, hrest, hset⟩ := rest.items_first
      use c.items, rest.items, rfl
      rw [hset, hmerge.items, hrest, List.append_assoc]

end

mutual

/-- A remove that succeeds returns the value that the search for the key finds. -/
theorem removeNode_found :
  ∀ {c c' : Child} {removed : Option Cid} {released : List Cid}, c.find key = .inl (some val) →
    removeNode key c = .ok (c', removed, released) → removed = some val
  | .absent, _, _, _, hfind, _ => by cases hfind
  | .stub _ _, _, _, _, hfind, _ => by cases hfind
  | .node _ _ _, _, _, _, hfind, h => by
      rw [removeNode] at h
      obtain ⟨res, hbody, h⟩ := Except.bind_eq_ok.mp h
      obtain ⟨b', released', rfl⟩ := removeBody_found hfind hbody
      cases h
      rfl

theorem removeBody_found :
  ∀ {b : Body} {res : Option (Body × Option Cid × List Cid)}, b.find key = .inl (some val) →
    removeBody key b = .ok res → ∃ b' released, res = some (b', some val, released)
  | .edge c, _, hfind, h => by
      rw [removeBody] at h
      split at h
      · rename_i hc
        rw [Body.find, Child.isAbsent_iff.mp hc] at hfind
        cases hfind
      · obtain ⟨⟨c', removed, released⟩, hc, h⟩ := Except.bind_eq_ok.mp h
        cases h
        obtain rfl := removeNode_found hfind hc
        use .edge c', released
  | .entry c k v rest, _, hfind, h => by
      rw [removeBody] at h
      rw [Body.find] at hfind
      split at h
      · rename_i hk
        obtain ⟨⟨n, released⟩, -, h⟩ := Except.bind_eq_ok.mp h
        rw [if_neg (by simp [hk]), if_pos hk.symm] at hfind
        cases h
        cases hfind
        use rest.setFirst n, released
      · rename_i hne
        split at h
        · rename_i hk
          rw [if_neg (not_lt_of_gt hk), if_neg (Ne.symm hne)] at hfind
          split at h
          · rename_i hc
            rw [Child.isAbsent_iff.mp hc] at hfind
            cases hfind
          · obtain ⟨⟨c', removed, released⟩, hc, h⟩ := Except.bind_eq_ok.mp h
            cases h
            obtain rfl := removeNode_found hfind hc
            use .entry c' k v rest, released
        · rename_i hk
          rw [if_pos (lt_of_le_of_ne (not_lt.mp hk) (Ne.symm hne))] at hfind
          obtain ⟨res, hrest, h⟩ := Except.bind_eq_ok.mp h
          obtain ⟨b', released, rfl⟩ := removeBody_found hfind hrest
          cases h
          use .entry c k v b', released

end

/-- A remove from the root that succeeds returns the value that the search for the key
finds. -/
theorem removeFromRoot_found {removed : Option Cid} (hfind : c.find key = .inl (some val))
    (h : removeFromRoot c key = .ok (c', removed, released)) :
  removed = some val
  := by
  rw [removeFromRoot] at h
  obtain ⟨⟨n, removed', dropped⟩, hremove, h⟩ := Except.bind_eq_ok.mp h
  obtain ⟨⟨n', trimmed⟩, -, h⟩ := Except.bind_eq_ok.mp h
  cases h
  apply removeNode_found hfind hremove

/-- Collapsing the root chain keeps the items. -/
theorem Trim.items (h : Trim c c' released) :
  c'.items = c.items
  := by
  induction h with
  | absent => rfl
  | stub => rfl
  | down _ ih =>
      rw [ih]
      rfl
  | stop => rfl

end Write

section Flush

variable [Hashing]

mutual

/-- Writing the changed nodes keeps the items. -/
theorem writeNode_items :
  ∀ {c c' : Child} {out : List (Cid × Bytes)}, writeNode c = .ok (c', out) → c'.items = c.items
  | .absent, _, _, h => by
      cases h
      rfl
  | .stub _ _, _, _, h => by
      cases h
      rfl
  | .node (some _) _ _, _, _, h => by
      cases h
      rfl
  | .node none _ _, _, _, h => by
      rw [writeNode] at h
      obtain ⟨⟨b', out⟩, hbody, h⟩ := Except.bind_eq_ok.mp h
      obtain ⟨data, -, h⟩ := Except.bind_eq_ok.mp h
      cases h
      apply writeBody_items hbody

theorem writeBody_items :
  ∀ {b b' : Body} {out : List (Cid × Bytes)}, writeBody b = .ok (b', out) → b'.items = b.items
  | .edge _, _, _, h => by
      rw [writeBody] at h
      obtain ⟨⟨c', out⟩, hc, h⟩ := Except.bind_eq_ok.mp h
      cases h
      apply writeNode_items hc
  | .entry _ _ _ _, _, _, h => by
      rw [writeBody] at h
      obtain ⟨⟨c', out⟩, hc, h⟩ := Except.bind_eq_ok.mp h
      obtain ⟨⟨rest', out'⟩, hrest, h⟩ := Except.bind_eq_ok.mp h
      cases h
      rw [Body.items, Body.items, writeNode_items hc, writeBody_items hrest]

end

end Flush

end Shrike.Mst
