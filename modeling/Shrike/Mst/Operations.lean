import Shrike.Mst.Order

/-!
# What the operations of a tree do

Each operation of the detached tree in two parts: it reads some stubs, then it changes the
tree as one of the mutation relations says, or fails.
-/

namespace Shrike.Mst

open Holed

/-! ### Lookups -/

theorem Body.setChildAt_childAt (pl : Place) :
  ∀ (b : Body) (i : ℕ), b.setChildAt (b.childAt i pl).1 i = b
  | .edge _, _ => rfl
  | .entry _ _ _ _, 0 => rfl
  | .entry _ k _ rest, i + 1 => by
      rw [childAt, setChildAt, Body.setChildAt_childAt (pl.after k) rest i]

variable [Hashing]

variable {src : BlockSource}

variable {refs refs' : Refs}

/-- A node that was loaded is not a stub. -/
theorem load_ne_stub {pl : Place} :
  ∀ {n n' : Child}, load src refs n pl = (.ok none, n', refs') → ∀ cid h, n' ≠ .stub cid h
  | .absent, _, heq => by
      cases heq
      simp
  | .node _ _ _, _, heq => by
      cases heq
      simp
  | .stub _ _, _, heq => by
      rw [load] at heq
      split at heq
      · cases heq
      · split at heq
        · cases heq
        · cases heq
        · split at heq
          · cases heq
          · split at heq
            · cases heq
            · split at heq
              · cases heq
              · cases heq
                simp

theorem ensureLoaded_ne_stub {pl : Place} {n n' : Child}
    (heq : ensureLoaded src refs n pl = (.ok (), n', refs')) :
  ∀ cid h, n' ≠ .stub cid h
  := by
  rw [ensureLoaded] at heq
  split at heq
  · cases heq
  · rename_i hload
    cases heq
    apply load_ne_stub hload
  · cases heq

/-- A lookup answers what the search through the nodes it has loaded finds. -/
theorem getNode_find {key : Key} {a : Option Cid} :
  ∀ {fuel : ℕ} {refs refs' : Refs} {n n' : Child} {pl : Place},
    getNode src key fuel refs n pl = (.ok a, n', refs') → n'.find key = .inl a
  | 0, _, _, _, _, _, heq => by cases heq
  | fuel + 1, refs, refs', n, n', pl, heq => by
      rw [getNode] at heq
      split at heq
      · cases heq
      · rename_i cid h body refs₁ hload
        split at heq
        · rename_i hsearch
          cases heq
          obtain ⟨v, hv, hfind⟩ := Body.find_of_hit hsearch
          rw [hv]
          apply hfind
        · rename_i i hsearch
          dsimp only at heq
          split at heq
          · rename_i hchild
            cases heq
            rw [Child.find, (Body.find_of_miss hsearch .absent pl).1, Child.isAbsent_iff.mp hchild]
            rfl
          · rcases hget : getNode src key fuel refs₁ (body.childAt i pl).1 (body.childAt i pl).2
              with ⟨r, child, refs₂⟩
            rw [hget] at heq
            cases heq
            rw [Child.find, (Body.find_of_miss hsearch child pl).2]
            apply getNode_find hget
      · rename_i hnode hload
        cases heq
        have hstub := ensureLoaded_ne_stub hload
        cases n' with
        | absent => rfl
        | stub cid h => exact absurd rfl (hstub cid h)
        | node cid h body => exact absurd rfl (hnode cid h body)

theorem load_noBlocks (refs : Refs) (pl : Place) :
  ∀ n : Child, (load noBlocks refs n pl).2 = (n, refs)
  | .absent => rfl
  | .node _ _ _ => rfl
  | .stub _ _ => by
      rw [load]
      split <;> rfl

theorem ensureLoaded_noBlocks (refs : Refs) (pl : Place) (n : Child) :
  (ensureLoaded noBlocks refs n pl).2 = (n, refs)
  := by
  have hload := load_noBlocks refs pl n
  rw [ensureLoaded]
  split <;> (rename_i heq; rw [heq] at hload; apply hload)

/-- A lookup that has no blocks to read leaves the tree as it is. -/
theorem getNode_noBlocks (key : Key) :
  ∀ (fuel : ℕ) (refs : Refs) (n : Child) (pl : Place),
    (getNode noBlocks key fuel refs n pl).2 = (n, refs)
  | 0, _, _, _ => rfl
  | fuel + 1, refs, n, pl => by
      have hload := ensureLoaded_noBlocks refs pl n
      rw [getNode]
      split
      · rename_i heq
        rw [heq] at hload
        apply hload
      · rename_i cid h body refs' heq
        rw [heq] at hload
        obtain ⟨rfl, rfl⟩ := Prod.mk.inj hload
        split
        · rfl
        · rename_i i hsearch
          dsimp only
          split
          · rfl
          · have ih := getNode_noBlocks key fuel refs' (body.childAt i pl).1 (body.childAt i pl).2
            rcases hget : getNode noBlocks key fuel refs' (body.childAt i pl).1
              (body.childAt i pl).2 with ⟨r, child, refs₁⟩
            rw [hget] at ih
            cases ih
            dsimp only
            rw [Body.setChildAt_childAt]
      · rename_i heq
        rw [heq] at hload
        apply hload

/-! ### Walks -/

variable {f : List (Key × Cid) → Key → Cid → Except MstError (List (Key × Cid))}

omit [Hashing] in
/-- What a walk records of the contents of a node is made of what it records of the subtrees. -/
theorem walkBody_records {walk : List (Key × Cid) → Refs → Child → Place →
      Except MstError (List (Key × Cid)) × Child × Refs}
    {P : Child → List (Key × Cid) → Prop} {Q : Body → List (Key × Cid) → Prop}
    (hf : ∀ {s k v s'}, f s k v = .ok s' → s' = s ++ [(k, v)])
    (hwalk : ∀ {s s' refs refs' n n' pl}, walk s refs n pl = (.ok s', n', refs') →
      ∃ l, P n' l ∧ s' = s ++ l) (hedge : ∀ {c l}, P c l → Q (.edge c) l)
    (hentry : ∀ {c k v rest l m}, P c l → Q rest m → Q (.entry c k v rest) (l ++ (k, v) :: m)) :
  ∀ {s s' : List (Key × Cid)} {refs refs' : Refs} {b b' : Body} {pl : Place},
    walkBody f walk s refs b pl = (.ok s', b', refs') → ∃ l, Q b' l ∧ s' = s ++ l
  | s, s', refs, refs', .edge c, b', pl, heq => by
      rw [walkBody] at heq
      rcases hc : walk s refs c pl.below with ⟨r, c', refs₁⟩
      rw [hc] at heq
      cases heq
      obtain ⟨l, hl, rfl⟩ := hwalk hc
      exact ⟨l, hedge hl, rfl⟩
  | s, s', refs, refs', .entry c k v rest, b', pl, heq => by
      rw [walkBody] at heq
      split at heq
      · cases heq
      · rename_i s₁ c' refs₁ hc
        obtain ⟨l, hl, rfl⟩ := hwalk hc
        split at heq
        · cases heq
        · rename_i hrecord
          obtain rfl := hf hrecord
          rcases hwalkRest : walkBody f walk (s ++ l ++ [(k, v)]) refs₁ rest (pl.after k)
            with ⟨r, rest', refs₂⟩
          rw [hwalkRest] at heq
          cases heq
          obtain ⟨m, hm, rfl⟩ := walkBody_records hf hwalk hedge hentry hwalkRest
          exact ⟨l ++ (k, v) :: m, hentry hl hm, by simp⟩

/-- A walk that records the entries it meets returns them all, and leaves nothing unread. -/
theorem walkNode_items (hf : ∀ {s k v s'}, f s k v = .ok s' → s' = s ++ [(k, v)]) :
  ∀ {fuel : ℕ} {s s' : List (Key × Cid)} {refs refs' : Refs} {n n' : Child} {pl : Place},
    walkNode src f fuel s refs n pl = (.ok s', n', refs') →
    ∃ l, n'.items = l.map (fun e => .entry e.1 e.2) ∧ s' = s ++ l
  | 0, _, _, _, _, _, _, _, heq => by cases heq
  | fuel + 1, s, s', refs, refs', n, n', pl, heq => by
      rw [walkNode] at heq
      split at heq
      · cases heq
      · rename_i cid h body refs₁ hload
        rcases hbody : walkBody f (walkNode src f fuel) s refs₁ body pl with ⟨r, body', refs₂⟩
        rw [hbody] at heq
        cases heq
        apply walkBody_records (Q := fun b l => b.items = l.map _) hf (walkNode_items hf) id
          (fun hl hm => by simp [Body.items, hl, hm]) hbody
      · rename_i hnode hload
        cases heq
        have hstub := ensureLoaded_ne_stub hload
        cases n' with
        | absent =>
            use []
            simp [Child.items]
        | stub cid h => exact absurd rfl (hstub cid h)
        | node cid h body => exact absurd rfl (hnode cid h body)

/-! ### Operations that only read -/

/-- `Reading src t t'`: the tree `t'` is `t` with some stubs read. -/
structure Reading (src : BlockSource) (t t' : DetachedTree) : Prop where
  root : Traversed src .root t.root t.refs t'.root t'.refs
  released : t'.released = t.released
  emptyRoot : t'.emptyRoot = t.emptyRoot
  poisoned : t'.poisoned = t.poisoned

theorem Reading.refl {t : DetachedTree} :
  Reading src t t
  where
  root := .refl
  released := rfl
  emptyRoot := rfl
  poisoned := rfl

theorem Reading.of_traversed {t : DetachedTree} {root : Child}
    (h : Traversed src .root t.root t.refs root refs) :
  Reading src t { t with root, refs }
  where
  root := h
  released := rfl
  emptyRoot := rfl
  poisoned := rfl

namespace DetachedTree

theorem get_reading (t : DetachedTree) (src : BlockSource) (key : Key) :
  Reading src t (t.get src key).2
  := by
  rw [get]
  split
  · apply Reading.refl
  · split
    · apply Reading.refl
    · apply Reading.of_traversed (getNode_traversed src key _ t.refs t.root .root)

variable {t t' : DetachedTree}

variable {src : BlockSource}

variable {key : Key}

/-- A lookup answers what the search through the loaded nodes finds. -/
theorem get_find {a : Option Cid} (h : t.get src key = (.ok a, t')) :
  t'.root.find key = .inl a
  := by
  rw [get] at h
  split at h
  · cases h
  · split at h
    · rename_i hroot
      cases h
      rw [Child.isAbsent_iff.mp hroot]
      rfl
    · rcases hget : getNode src key t.root.reach t.refs t.root .root with ⟨r, root, refs⟩
      rw [hget] at h
      cases h
      apply getNode_find hget

theorem missing_reading (t : DetachedTree) (src : BlockSource) (keys : List Key) (visit : Visit) :
  Reading src t (t.missing src keys visit).2
  := by
  rw [missing]
  split
  · apply Reading.refl
  · split
    · apply Reading.refl
    · apply Reading.of_traversed (visitKeys_traversed src visit keys t.refs t.root)

theorem walk_reading {σ : Type} (t : DetachedTree) (src : BlockSource)
    (f : σ → Key → Cid → Except MstError σ) (s : σ) :
  Reading src t (t.walk src f s).2
  := by
  rw [walk]
  split
  · apply Reading.refl
  · split
    · apply Reading.refl
    · apply Reading.of_traversed (walkNode_traversed src f _ s t.refs t.root .root)

/-- A walk that records the entries it meets returns the items of the tree. -/
theorem walk_items {l : List (Key × Cid)}
    {f : List (Key × Cid) → Key → Cid → Except MstError (List (Key × Cid))}
    (hf : ∀ {s k v s'}, f s k v = .ok s' → s' = s ++ [(k, v)]) (h : t.walk src f [] = (.ok l, t')) :
  t'.root.items = l.map (fun e => .entry e.1 e.2)
  := by
  rw [walk] at h
  split at h
  · cases h
  · split at h
    · rename_i hroot
      cases h
      rw [Child.isAbsent_iff.mp hroot]
      rfl
    · rcases hwalk : walkNode src f t.root.reach [] t.refs t.root .root with ⟨r, root, refs⟩
      rw [hwalk] at h
      cases h
      obtain ⟨m, hm, rfl⟩ := walkNode_items hf hwalk
      apply hm

theorem loadKeyPath_reading (t : DetachedTree) (src : BlockSource) (key : Key) (visit : Visit) :
  Reading src t (t.loadKeyPath src key visit).2
  := by
  rw [loadKeyPath]
  split
  · apply Reading.refl
  · have hvisit := visitKeyPath_traversed src key visit t.root.reach t.refs t.root true .root
    split
    · rename_i heq
      rw [heq] at hvisit
      apply Reading.of_traversed hvisit
    · rename_i heq
      rw [heq] at hvisit
      apply Reading.of_traversed hvisit
    · rename_i root refs heq
      rw [heq] at hvisit
      have hget := getNode_noBlocks key root.reach refs root .root
      rcases hres : getNode noBlocks key root.reach refs root .root with ⟨r, root', refs'⟩
      rw [hres] at hget
      cases hget
      apply Reading.of_traversed hvisit

theorem loadKeyPath_find {visit : Visit}
    {a : Option Cid} (h : t.loadKeyPath src key visit = (.ok a, t')) :
  t'.root.find key = .inl a
  := by
  rw [loadKeyPath] at h
  split at h
  · rename_i hroot
    cases h
    rw [Child.isAbsent_iff.mp hroot]
    rfl
  · split at h
    · cases h
    · cases h
    · rename_i root refs heq
      rcases hget : getNode noBlocks key root.reach refs root .root with ⟨r, root', refs'⟩
      rw [hget] at h
      cases h
      apply getNode_find hget

/-! ### Operations that write -/

variable {r : Except MstError (Option Cid)}

/-- What an insert does: it fails having only read, or having left the tree unusable; or it
finds the value of the key and leaves it, replaces it, or puts in the key. -/
theorem insert_cases {val : Cid} (h : t.insert src key val = (r, t')) :
  (∃ e, r = .error e ∧ (Reading src t t' ∨ t'.poisoned = true))
    ∨ t.poisoned = false ∧ isValidKey key = true ∧ ∃ t₁ a, r = .ok a ∧ Reading src t t₁
      ∧ t₁.root.find key = .inl a
      ∧ ((a = some val ∧ t' = t₁)
        ∨ (∃ root released, a ≠ none ∧ Update key val t₁.root root released
          ∧ t' = { t₁ with root, released := t₁.released ++ released })
        ∨ ∃ root released, a = none
          ∧ Insert key val (heightForKey key) t₁.root root released
          ∧ t' = { t₁.dropEmptyRoot with root, released := t₁.dropEmptyRoot.released ++ released })
  := by
  rw [insert] at h
  split at h
  · cases h
    left
    use .internal .unusable, rfl
    left
    apply Reading.refl
  · rename_i hpoisoned
    split at h
    · cases h
      left
      use .invalidKey key, rfl
      left
      apply Reading.refl
    · rename_i hvalid
      have hreading := loadKeyPath_reading t src key .lookup
      split at h
      · rename_i e _ heq
        cases h
        rw [heq] at hreading
        left
        use e, rfl
        left
        apply hreading
      · rename_i prev t₁ heq
        have hfind := loadKeyPath_find heq
        rw [heq] at hreading
        split at h
        · rename_i hprev
          cases h
          right
          refine ⟨by simpa using hpoisoned, by simpa using hvalid, _, _, rfl, hreading, hfind, ?_⟩
          left
          rw [hprev]
          use rfl
        · split at h
          · rename_i e _
            cases h
            left
            use e, rfl
            right
            rfl
          · rename_i root released hupdate
            cases h
            right
            refine ⟨by simpa using hpoisoned, by simpa using hvalid, t₁, _, rfl, hreading, hfind, ?_⟩
            right
            left
            use root, released, (by simp), update_of_updateNode hupdate
      · rename_i t₁ heq
        have hfind := loadKeyPath_find heq
        rw [heq] at hreading
        split at h
        · rename_i e _
          cases h
          left
          use e, rfl
          right
          rfl
        · rename_i root released hinsert
          cases h
          right
          refine ⟨by simpa using hpoisoned, by simpa using hvalid, t₁, _, rfl, hreading, hfind, ?_⟩
          right
          right
          use root, released, rfl, insert_of_insertNode hinsert

/-- What a remove does: it fails having only read, or having left the tree unusable; or it
finds that the key is not there; or it takes out the key. -/
theorem remove_cases (h : t.remove src key = (r, t')) :
  (∃ e, r = .error e ∧ (Reading src t t' ∨ t'.poisoned = true))
    ∨ t.poisoned = false ∧ ∃ t₁ a, t.loadKeyPath src key .remove = (.ok a, t₁)
      ∧ Reading src t t₁ ∧ t₁.root.find key = .inl a
      ∧ ((a = none ∧ r = .ok none ∧ t' = t₁)
        ∨ ∃ val root removed released, a = some val
          ∧ removeFromRoot t₁.root key = .ok (root, removed, released)
          ∧ r = .ok removed ∧ t' = { t₁ with root, released := t₁.released ++ released })
  := by
  rw [remove] at h
  split at h
  · cases h
    left
    use .internal .unusable, rfl
    left
    apply Reading.refl
  · rename_i hpoisoned
    have hreading := loadKeyPath_reading t src key .remove
    split at h
    · rename_i e _ heq
      cases h
      rw [heq] at hreading
      left
      use e, rfl
      left
      apply hreading
    · rename_i t₁ heq
      cases h
      rw [heq] at hreading
      right
      refine ⟨by simpa using hpoisoned, _, _, heq, hreading, loadKeyPath_find heq, ?_⟩
      left
      use rfl
    · rename_i val t₁ heq
      rw [heq] at hreading
      split at h
      · rename_i e _
        cases h
        left
        use e, rfl
        right
        rfl
      · rename_i root removed released hremove
        cases h
        right
        refine ⟨by simpa using hpoisoned, _, _, heq, hreading, loadKeyPath_find heq, ?_⟩
        right
        use val, root, removed, released, rfl, hremove, rfl

omit [Hashing] in
/-- What settling a flush does to the tree itself: nothing, unless it fails. -/
theorem settle_root {written : List (Cid × Bytes)} {root : Cid}
    {r : Except MstError TreeWrite} (h : t.settle written root = (r, t')) :
  t'.poisoned = true ∨ t'.root = t.root
  := by
  rw [settle] at h
  split at h
  · cases h
    left
    rfl
  · cases h
    right
    rfl

/-- A flush keeps the items of the tree, unless it leaves the tree unusable. -/
theorem flush_items {r : Except MstError TreeWrite} (h : t.flush = (r, t')) :
  t'.poisoned = true ∨ t'.root.items = t.root.items
  := by
  rw [flush] at h
  split at h
  · cases h
    right
    rfl
  · split at h
    · rcases settle_root h with hp | hroot
      · exact .inl hp
      · right
        rw [hroot]
    · split at h
      · cases h
        left
        rfl
      · rename_i hwrite
        split at h
        · rcases settle_root h with hp | hroot
          · exact .inl hp
          · right
            rw [hroot]
            apply writeNode_items hwrite
        · cases h
          left
          rfl

end DetachedTree

end Shrike.Mst
