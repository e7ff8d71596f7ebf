import Shrike.Mst.Operations

/-!
# Mutations do not fail partway

A mutation succeeds on a tree of which everything it touches is loaded, and the traversal
before it loads that, whatever blocks the tree is read from. So an operation that fails has
only read, and a tree stays usable.
-/

namespace Shrike.Mst

/-! ### Insertion -/

section Insert

variable {key : Key} {val : Cid}

mutual

/-- A split succeeds where a search for its key ends without finding it. -/
theorem splitNode_ok :
  ∀ {c : Child}, c.find key = .inl none → ∃ res, splitNode key c = .ok res
  | .absent, _ => ⟨_, rfl⟩
  | .stub _ _, h => by cases h
  | .node cid height body, h => by
      obtain ⟨⟨l, r, released⟩, hbody⟩ := splitBody_ok h
      use (trimNode height l, trimNode height r, cid.toList ++ released)
      rw [splitNode, hbody]
      rfl

theorem splitBody_ok :
  ∀ {b : Body}, b.find key = .inl none → ∃ res, splitBody key b = .ok res
  | .edge c, h => by
      obtain ⟨⟨l, r, released⟩, hc⟩ := splitNode_ok h
      use (.edge l, .edge r, released)
      rw [splitBody, hc]
      rfl
  | .entry c k v rest, h => by
      rw [Body.find] at h
      rw [splitBody]
      split at h
      · rename_i hk
        obtain ⟨⟨l, r, released⟩, hrest⟩ := splitBody_ok h
        rw [if_pos hk, hrest]
        exact ⟨_, rfl⟩
      · rename_i hk
        split at h
        · cases h
        · obtain ⟨⟨l, r, released⟩, hc⟩ := splitNode_ok h
          rw [if_neg hk, hc]
          exact ⟨_, rfl⟩

end

theorem insertAtLevel_ok :
  ∀ {b : Body}, b.find key = .inl none → ∃ res, insertAtLevel key val b = .ok res
  | .edge c, h => by
      obtain ⟨⟨l, r, released⟩, hc⟩ := splitNode_ok h
      rw [insertAtLevel, hc]
      exact ⟨_, rfl⟩
  | .entry c k v rest, h => by
      rw [Body.find] at h
      rw [insertAtLevel]
      split at h
      · rename_i hk
        obtain ⟨⟨rest', released⟩, hrest⟩ := insertAtLevel_ok h
        rw [if_pos hk, hrest]
        exact ⟨_, rfl⟩
      · rename_i hk
        split at h
        · cases h
        · rename_i hne
          obtain ⟨⟨l, r, released⟩, hc⟩ := splitNode_ok h
          rw [if_neg hk, if_neg hne, hc]
          exact ⟨_, rfl⟩

theorem wrap_find (c : Child) (n : ℕ) :
  (wrap c n).find key = c.find key
  := by
  induction n with
  | zero => rfl
  | succ n ih => rw [wrap, Child.find, Body.find, ih]

variable {height : ℕ}

mutual

/-- An insert succeeds where a search for its key ends without finding it. -/
theorem insertNode_ok :
  ∀ {c : Child}, c.find key = .inl none → ∃ res, insertNode key val height c = .ok res
  | .absent, _ => ⟨_, rfl⟩
  | .stub _ _, h => by cases h
  | .node cid h body, hfind => by
      rw [insertNode]
      split
      · have hwrap : (Body.edge (wrap (.node cid h body) (height - h - 1))).find key
            = .inl none := by
          rw [Body.find, wrap_find, hfind]
        obtain ⟨⟨body', released⟩, hbody⟩ := (@insertAtLevel_ok _ val) hwrap
        rw [hbody]
        exact ⟨_, rfl⟩
      · split
        · obtain ⟨⟨body', released⟩, hbody⟩ := insertBelow_ok h hfind
          rw [hbody]
          exact ⟨_, rfl⟩
        · obtain ⟨⟨body', released⟩, hbody⟩ := (@insertAtLevel_ok _ val) hfind
          rw [hbody]
          exact ⟨_, rfl⟩

theorem insertBelow_ok (h : ℕ) :
  ∀ {b : Body}, b.find key = .inl none → ∃ res, insertBelow key val height h b = .ok res
  | .edge c, hfind => by
      rw [insertBelow]
      split
      · exact ⟨_, rfl⟩
      · obtain ⟨⟨c', released⟩, hc⟩ := insertNode_ok hfind
        rw [hc]
        exact ⟨_, rfl⟩
  | .entry c k v rest, hfind => by
      rw [Body.find] at hfind
      rw [insertBelow]
      split at hfind
      · rename_i hk
        obtain ⟨⟨rest', released⟩, hrest⟩ := insertBelow_ok h hfind
        rw [if_pos hk, hrest]
        exact ⟨_, rfl⟩
      · rename_i hk
        rw [if_neg hk]
        split
        · exact ⟨_, rfl⟩
        · split at hfind
          · cases hfind
          · obtain ⟨⟨c', released⟩, hc⟩ := insertNode_ok hfind
            rw [hc]
            exact ⟨_, rfl⟩

end

mutual

/-- An update succeeds where a search finds the key. -/
theorem updateNode_ok {prev : Cid} :
  ∀ {c : Child}, c.find key = .inl (some prev) → ∃ res, updateNode key val c = .ok res
  | .absent, h => by cases h
  | .stub _ _, h => by cases h
  | .node cid height body, h => by
      obtain ⟨⟨body', released⟩, hbody⟩ := updateBody_ok h
      rw [updateNode, hbody]
      exact ⟨_, rfl⟩

theorem updateBody_ok {prev : Cid} :
  ∀ {b : Body}, b.find key = .inl (some prev) → ∃ res, updateBody key val b = .ok res
  | .edge c, h => by
      obtain ⟨⟨c', released⟩, hc⟩ := updateNode_ok h
      rw [updateBody, hc]
      exact ⟨_, rfl⟩
  | .entry c k v rest, h => by
      rw [Body.find] at h
      rw [updateBody]
      split at h
      · rename_i hk
        obtain ⟨⟨rest', released⟩, hrest⟩ := updateBody_ok h
        rw [if_pos hk, hrest]
        exact ⟨_, rfl⟩
      · rename_i hk
        rw [if_neg hk]
        split at h
        · rename_i heq
          rw [if_pos heq]
          exact ⟨_, rfl⟩
        · rename_i hne
          obtain ⟨⟨c', released⟩, hc⟩ := updateNode_ok h
          rw [if_neg hne, hc]
          exact ⟨_, rfl⟩

end

end Insert

/-! ### Removal -/

/-- A subtree whose chain of nodes without entries can be collapsed. -/
inductive Trimmable : Child → Prop
  | absent : Trimmable .absent
  | stub {cid} : Trimmable (.stub cid 0)
  | down {cid h c} (hc : Trimmable c) :
      Trimmable (.node cid h (.edge c))
  | stop {cid h c k v rest} : Trimmable (.node cid h (.entry c k v rest))

variable {b right : Body} {c l n : Child}

theorem trimTop_ok (h : Trimmable c) :
  ∃ res, trimTop c = .ok res
  := by
  induction h with
  | absent => exact ⟨_, rfl⟩
  | stub => exact ⟨_, rfl⟩
  | down hc ih =>
      obtain ⟨⟨c', released⟩, hc'⟩ := ih
      rw [trimTop, hc']
      exact ⟨_, rfl⟩
  | stop => exact ⟨_, rfl⟩

theorem trimmable_trimNode_edge {h : ℕ} (hc : Trimmable c) :
  Trimmable (trimNode h (.edge c))
  := by
  unfold trimNode
  split
  · apply Trimmable.absent
  · apply Trimmable.down hc

/-- The contents of a node with an entry. -/
def Body.HasEntry (b : Body) : Prop := ∃ c k v rest, b = .entry c k v rest

theorem Body.size_eq_zero :
  b.size = 0 ↔ b = .edge b.first
  := by
  cases b <;> simp [size, first]

theorem Body.hasEntry_of_size (h : b.size ≠ 0) :
  b.HasEntry
  := by
  cases b with
  | edge c => exact absurd rfl h
  | entry c k v rest => exact ⟨c, k, v, rest, rfl⟩

theorem Body.size_setChildAt (c : Child) :
  ∀ (b : Body) (i : ℕ), (b.setChildAt c i).size = b.size
  | .edge _, _ => rfl
  | .entry _ _ _ _, 0 => rfl
  | .entry _ _ _ rest, i + 1 => by rw [setChildAt, size, size, Body.size_setChildAt c rest i]

theorem Body.HasEntry.trimmable (h : b.HasEntry) (cid : Option Cid) (height : ℕ) :
  Trimmable (.node cid height b)
  := by
  obtain ⟨c, k, v, rest, rfl⟩ := h
  apply Trimmable.stop

theorem Body.HasEntry.trimNode (h : b.HasEntry) (height : ℕ) :
  trimNode height b = .node none height b
  := by
  obtain ⟨c, k, v, rest, rfl⟩ := h
  rfl

theorem mergeNodes_absent (l : Child) :
  mergeNodes l .absent = .ok (l, [])
  := by
  cases l with
  | absent => rfl
  | stub cid h => rfl
  | node cid h body => rfl

/-- Merging two nodes succeeds if merging the subtrees that meet does. -/
theorem mergeBody_ok {released : List Cid}
    (h : mergeNodes l right.first = .ok (n, released)) (left : Body) :
  ∃ b, mergeBody (left.setChildAt l left.size) right = .ok (b, released)
    ∧ (left.size = 0 ∧ right.size = 0 ∧ b = .edge n ∨ b.HasEntry)
  := by
  induction left using Body.spine with
  | edge d =>
      refine ⟨right.setFirst n, ?_, ?_⟩
      · rw [Body.setChildAt, mergeBody, h]
        rfl
      · cases right with
        | edge c => exact .inl ⟨rfl, rfl, rfl⟩
        | entry c k v rest => exact .inr ⟨n, k, v, rest, rfl⟩
  | entry c k v rest ih =>
      obtain ⟨b, hb, -⟩ := ih
      refine ⟨.entry c k v b, ?_, .inr ⟨c, k, v, b, rfl⟩⟩
      rw [Body.size, Body.setChildAt, mergeBody, hb]
      rfl

section Remove

variable {key : Key}

variable {released : List Cid}

/-- Taking a key out of a node that has it succeeds if merging the subtrees beside it
does. -/
theorem removeBody_hit {l r n : Child} (hmerge : mergeNodes l r = .ok (n, released)) :
  ∀ {b : Body} {i : ℕ}, b.search key = (true, i) →
    ∃ b' v, removeBody key ((b.setChildAt l i).setChildAt r (i + 1))
        = .ok (some (b', some v, released))
      ∧ (b.size = 1 ∧ b' = .edge n ∨ b'.HasEntry)
  | .edge _, _, h => by cases h
  | .entry c k v rest, i, h => by
      rw [Body.search] at h
      split at h
      · rename_i hk
        obtain ⟨hfound, rfl⟩ := Prod.mk.inj h
        obtain ⟨b', v', hrest, -⟩ := removeBody_hit hmerge (b := rest) (Prod.ext hfound rfl)
        refine ⟨.entry c k v b', v', ?_, .inr ⟨c, k, v, b', rfl⟩⟩
        rw [Body.setChildAt, Body.setChildAt, removeBody, if_neg hk.ne', if_neg hk.asymm, hrest]
        rfl
      · obtain ⟨hfound, rfl⟩ := Prod.mk.inj h
        have hfirst : (rest.setChildAt r 0).first = r := by cases rest <;> rfl
        refine ⟨(rest.setChildAt r 0).setFirst n, v, ?_, ?_⟩
        · rw [Body.setChildAt, Body.setChildAt, removeBody, if_pos (of_decide_eq_true hfound).symm,
            hfirst, hmerge]
          rfl
        · cases rest with
          | edge d => exact .inl ⟨rfl, rfl⟩
          | entry d k' v' rest => exact .inr ⟨n, k', v', rest, rfl⟩

/-- Taking a key out of a subtree of a node succeeds as it does for the subtree. -/
theorem removeBody_miss {c n : Child} {v : Cid} (hc : c ≠ .absent)
    (hremove : removeNode key c = .ok (n, some v, released)) :
  ∀ {b : Body} {i : ℕ}, b.search key = (false, i) →
    removeBody key (b.setChildAt c i) = .ok (some (b.setChildAt n i, some v, released))
  | .edge _, _, _ => by
      rw [Body.setChildAt, removeBody, if_neg (mt Child.isAbsent_iff.mp hc), hremove]
      rfl
  | .entry d k w rest, i, h => by
      rw [Body.search] at h
      split at h
      · rename_i hk
        obtain ⟨hfound, rfl⟩ := Prod.mk.inj h
        rw [Body.setChildAt, Body.setChildAt, removeBody, if_neg hk.ne', if_neg hk.asymm,
          removeBody_miss hc hremove (b := rest) (Prod.ext hfound rfl)]
        rfl
      · rename_i hk
        obtain ⟨hfound, rfl⟩ := Prod.mk.inj h
        have hne := of_decide_eq_false hfound
        have hlt := lt_of_le_of_ne (not_lt.mp hk) (Ne.symm hne)
        rw [Body.setChildAt, Body.setChildAt, removeBody, if_neg (Ne.symm hne), if_pos hlt,
          if_neg (mt Child.isAbsent_iff.mp hc), hremove]
        rfl

variable [Hashing] {src : BlockSource}

theorem load_absent_iff {refs : Refs} {pl : Place} (n : Child) :
  (load src refs n pl).2.1 = .absent ↔ n = .absent
  := by
  cases n with
  | absent => simp [load]
  | node cid h body => simp [load]
  | stub cid h =>
      rw [load]
      repeat' split
      all_goals simp

/-- What `visitRootChain` loads is enough to collapse the chain. -/
theorem visitRootChain_trimmable :
  ∀ {fuel : ℕ} {refs refs' : Refs} {n n' : Child} {pl : Place},
    visitRootChain src fuel refs n pl true = (.ok [], n', refs') → Trimmable n'
  | 0, _, _, _, _, _, heq => by cases heq
  | fuel + 1, refs, refs', n, n', pl, heq => by
      rw [visitRootChain, Bool.not_true, if_neg Bool.false_ne_true] at heq
      split at heq
      · cases heq
      · rename_i cid n₁ refs₁ hload
        split at heq
        · cases heq
        · rename_i hheight
          cases heq
          cases n' with
          | absent => apply Trimmable.absent
          | stub cid' h =>
              obtain rfl : h = 0 := Nat.eq_zero_of_not_pos hheight
              apply Trimmable.stub
          | node cid' h body =>
              cases n with
              | absent => cases hload
              | node cid'' h' body' => cases hload
              | stub cid'' h' =>
                  rw [load] at hload
                  repeat' split at hload
                  all_goals cases hload
      · rename_i cid h body refs₁ hload
        dsimp only at heq
        split at heq
        · rename_i hleft
          cases heq
          cases body with
          | edge c =>
              rw [Child.isAbsent_iff] at hleft
              obtain rfl : c = .absent := hleft
              apply Trimmable.down Trimmable.absent
          | entry c k v rest => apply Trimmable.stop
        · rcases hvisit : visitRootChain src fuel refs₁ (body.childAt 0 pl).1 (body.childAt 0 pl).2
            (decide (body.size = 0)) with ⟨res, left, refs₂⟩
          rw [hvisit] at heq
          cases heq
          cases body with
          | edge c => apply Trimmable.down (visitRootChain_trimmable hvisit)
          | entry c k v rest => apply Trimmable.stop
      · rename_i hnode hload
        cases heq
        cases n' with
        | absent => apply Trimmable.absent
        | stub cid h => exact absurd rfl (load_ne_stub hload cid h)
        | node cid h body => exact absurd rfl (hnode cid h body)

/-- What `visitMerge` loads is enough to merge the subtrees, and to collapse the chain the
merge may leave. -/
theorem visitMerge_ok :
  ∀ {fuel : ℕ} {refs refs' : Refs} {l r l' r' : Child} {lpl rpl : Place} {chain : Bool},
    visitMerge src fuel refs (l, lpl) (r, rpl) chain = (.ok [], l', r', refs') →
    ∃ n released, mergeNodes l' r' = .ok (n, released) ∧ (chain = true → Trimmable n)
  | 0, _, _, _, _, _, _, _, _, _, heq => by cases heq
  | fuel + 1, refs, refs', l, r, l', r', lpl, rpl, chain, heq => by
      rw [visitMerge] at heq
      split at heq
      · rename_i hr
        obtain rfl := Child.isAbsent_iff.mp hr
        rcases hvisit : visitRootChain src (fuel + 1) refs l lpl chain with ⟨res, l₁, refs₁⟩
        rw [hvisit] at heq
        cases heq
        refine ⟨l', [], mergeNodes_absent l', ?_⟩
        rintro rfl
        apply visitRootChain_trimmable hvisit
      · rename_i hr
        split at heq
        · rename_i hl
          obtain rfl := Child.isAbsent_iff.mp hl
          rcases hvisit : visitRootChain src (fuel + 1) refs r rpl chain with ⟨res, r₁, refs₁⟩
          rw [hvisit] at heq
          cases heq
          refine ⟨r', [], rfl, ?_⟩
          rintro rfl
          apply visitRootChain_trimmable hvisit
        · rename_i hl
          split at heq
          · cases heq
          · rename_i lmissing l₁ refs₁ hloadl
            split at heq
            · cases heq
            · rename_i rmissing r₁ refs₂ hloadr
              split at heq
              · rename_i lcid lh lbody rcid rh rbody
                rcases hvisit : visitMerge src fuel refs₂ (lbody.childAt lbody.size lpl)
                  (rbody.childAt 0 rpl) (chain && decide (lbody.size = 0)
                    && decide (rbody.size = 0)) with ⟨res, lchild, rchild, refs₃⟩
                rw [hvisit] at heq
                cases heq
                obtain ⟨n, released, hmerge, htrim⟩ := visitMerge_ok hvisit
                have hfirst : (rbody.setChildAt rchild 0).first = rchild := by
                  cases rbody <;> rfl
                rw [← hfirst] at hmerge
                obtain ⟨b, hb, hshape⟩ := mergeBody_ok hmerge lbody
                refine ⟨.node none lh b, released ++ lcid.toList ++ rcid.toList, ?_, ?_⟩
                · rw [mergeNodes, hb]
                  rfl
                · rintro rfl
                  rcases hshape with ⟨hlsize, hrsize, rfl⟩ | hentry
                  · rw [Body.size_setChildAt] at hrsize
                    apply Trimmable.down
                    apply htrim
                    simp [hlsize, hrsize]
                  · apply hentry.trimmable
              · rename_i hnodes
                cases heq' : lmissing with
                | some cid =>
                    rw [heq'] at heq
                    cases heq
                | none =>
                    cases heq'' : rmissing with
                    | some cid =>
                        rw [heq', heq''] at heq
                        cases heq
                    | none =>
                        rw [heq'] at hloadl
                        rw [heq''] at hloadr
                        have hlabsent := @load_absent_iff _ src refs lpl l
                        have hrabsent := @load_absent_iff _ src refs₁ rpl r
                        rw [hloadl] at hlabsent
                        rw [hloadr] at hrabsent
                        cases l₁ with
                        | absent => exact absurd (Child.isAbsent_iff.mpr (hlabsent.mp rfl)) hl
                        | stub cid h => exact absurd rfl (load_ne_stub hloadl cid h)
                        | node lcid lh lbody =>
                            cases r₁ with
                            | absent => exact absurd (Child.isAbsent_iff.mpr (hrabsent.mp rfl)) hr
                            | stub cid h => exact absurd rfl (load_ne_stub hloadr cid h)
                            | node rcid rh rbody => exact (hnodes _ _ _ _ _ _ rfl rfl).elim

omit [Hashing] in
theorem removeNode_of_removeBody {cid : Option Cid} {h : ℕ} {body body' : Body} {v : Cid}
    (hbody : removeBody key body = .ok (some (body', some v, released))) :
  removeNode key (.node cid h body) = .ok (trimNode h body', some v, released ++ cid.toList ++ [])
  := by
  rw [removeNode, hbody, Except.ok_bind]
  simp only [pruneEmpty_none]

/-- What `visitKeyPath` loads for a remove is enough to take out the key, and to collapse
the root chain that may leave. -/
theorem visitKeyPath_remove_ok :
  ∀ {fuel : ℕ} {refs refs' : Refs} {n n' : Child} {top : Bool} {pl : Place} {v : Cid},
    visitKeyPath src key .remove fuel refs n top pl = (.ok [], n', refs') →
    n'.find key = .inl (some v) →
    ∃ m v' released, removeNode key n' = .ok (m, some v', released) ∧ (top = true → Trimmable m)
  | 0, _, _, _, _, _, _, _, heq, _ => by cases heq
  | fuel + 1, refs, refs', n, n', top, pl, v, heq, hfind => by
      rw [visitKeyPath] at heq
      split at heq
      · cases heq
      · cases heq
      · rename_i cid h body refs₁ hload
        split at heq
        · rename_i hvisit
          cases hvisit
        · rename_i i hsearch _
          rcases hvisit : visitMerge src fuel refs₁ (body.childAt i pl) (body.childAt (i + 1) pl)
            (top && decide (body.size = 1)) with ⟨res, l, r, refs₂⟩
          rw [hvisit] at heq
          cases heq
          obtain ⟨m, released, hmerge, htrim⟩ := visitMerge_ok hvisit
          obtain ⟨b', v', hremove, hshape⟩ := removeBody_hit hmerge hsearch
          refine ⟨_, v', _, removeNode_of_removeBody hremove, ?_⟩
          rintro rfl
          rcases hshape with ⟨hsize, rfl⟩ | hentry
          · apply trimmable_trimNode_edge
            apply htrim
            simp [hsize]
          · rw [hentry.trimNode]
            apply hentry.trimmable
        · rename_i i hsearch
          dsimp only at heq
          split at heq
          · rename_i hchild
            cases heq
            rw [Child.find, (Body.find_of_miss hsearch .absent pl).1,
              Child.isAbsent_iff.mp hchild] at hfind
            cases hfind
          · rcases hvisit : visitKeyPath src key .remove fuel refs₁ (body.childAt i pl).1
              (top && decide (body.size = 0)) (body.childAt i pl).2 with ⟨res, child, refs₂⟩
            rw [hvisit] at heq
            cases heq
            rw [Child.find, (Body.find_of_miss hsearch child pl).2] at hfind
            obtain ⟨m, v', released, hremove, htrim⟩ := visitKeyPath_remove_ok hvisit hfind
            have hpresent : child ≠ .absent := by
              rintro rfl
              cases hfind
            refine ⟨_, v', _, removeNode_of_removeBody (removeBody_miss hpresent hremove hsearch), ?_⟩
            rintro rfl
            rcases Nat.eq_zero_or_pos body.size with hsize | hsize
            · rw [Body.size_eq_zero.mp hsize]
              apply trimmable_trimNode_edge
              apply htrim
              simp [hsize]
            · have hentry : (body.setChildAt m i).HasEntry := by
                apply Body.hasEntry_of_size
                rw [Body.size_setChildAt]
                apply hsize.ne'
              rw [hentry.trimNode]
              apply hentry.trimmable
      · rename_i hnode hload
        cases heq
        cases n' with
        | absent => cases hfind
        | stub cid h => exact absurd rfl (load_ne_stub hload cid h)
        | node cid h body => exact absurd rfl (hnode cid h body)

end Remove

/-! ### Operations -/

namespace DetachedTree

variable [Hashing]

variable {t t' : DetachedTree}

/-- A removal from the root succeeds after the path of a key it has is loaded. -/
theorem removeFromRoot_ok {src : BlockSource} {key : Key} {v : Cid}
    (h : t.loadKeyPath src key .remove = (.ok (some v), t')) :
  ∃ root val released, removeFromRoot t'.root key = .ok (root, some val, released)
  := by
  have hfind := loadKeyPath_find h
  rw [loadKeyPath] at h
  split at h
  · cases h
  · split at h
    · cases h
    · cases h
    · rename_i root refs hvisit
      have hget := getNode_noBlocks key root.reach refs root .root
      rcases hres : getNode noBlocks key root.reach refs root .root with ⟨r, root', refs'⟩
      rw [hres] at hget h
      cases hget
      cases h
      obtain ⟨m, val, released, hremove, htrim⟩ := visitKeyPath_remove_ok hvisit hfind
      obtain ⟨⟨m', trimmed⟩, htop⟩ := trimTop_ok (htrim rfl)
      refine ⟨m', val, released ++ trimmed, ?_⟩
      rw [removeFromRoot, hremove, Except.ok_bind]
      simp only [htop, Except.ok_bind]

/-- An insert that fails has only read. -/
theorem insert_error {src : BlockSource} {key : Key} {val : Cid}
    {e : MstError} (h : t.insert src key val = (.error e, t')) :
  Reading src t t'
  := by
  rw [insert] at h
  split at h
  · cases h
    apply Reading.refl
  · split at h
    · cases h
      apply Reading.refl
    · have hreading := loadKeyPath_reading t src key .lookup
      split at h
      · rename_i heq
        cases h
        rw [heq] at hreading
        apply hreading
      · rename_i prev t₁ heq
        split at h
        · cases h
        · obtain ⟨⟨root, released⟩, hupdate⟩ := (@updateNode_ok _ val) (loadKeyPath_find heq)
          rw [hupdate] at h
          cases h
      · rename_i t₁ heq
        obtain ⟨⟨root, released⟩, hinsert⟩ := (@insertNode_ok _ val
          (heightForKey key)) (loadKeyPath_find heq)
        rw [hinsert] at h
        cases h

/-- A remove that fails has only read. -/
theorem remove_error {src : BlockSource} {key : Key} {e : MstError}
    (h : t.remove src key = (.error e, t')) :
  Reading src t t'
  := by
  rw [remove] at h
  split at h
  · cases h
    apply Reading.refl
  · have hreading := loadKeyPath_reading t src key .remove
    split at h
    · rename_i heq
      cases h
      rw [heq] at hreading
      apply hreading
    · cases h
    · rename_i v t₁ heq
      obtain ⟨root, val, released, hremove⟩ := removeFromRoot_ok heq
      rw [hremove] at h
      cases h

end DetachedTree

end Shrike.Mst
