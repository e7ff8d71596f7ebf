import Shrike.Mst.Detached

/-!
# What mutations do

Each mutation as a relation between the subtree before, the subtree after and the CIDs
given up, with the proof that a mutation that succeeds is related so. The invariants of the
tree are proved by induction on these relations.
-/

namespace Shrike.Mst

open Except (bind_eq_ok)

/-! ### Splitting and merging -/

mutual

/-- `Split key c l r released`: splitting `c` at `key` leaves `l` and `r`. -/
inductive Split (key : Key) : Child → Child → Child → List Cid → Prop
  | absent : Split key .absent .absent .absent []
  | node {cid : Option Cid} {h body l r released} (hbody : SplitBody key body l r released) :
      Split key (.node cid h body) (trimNode h l) (trimNode h r) (cid.toList ++ released)

/-- `SplitBody key b l r released`: splitting the contents `b` at `key` leaves `l` and
`r`. -/
inductive SplitBody (key : Key) : Body → Body → Body → List Cid → Prop
  | edge {c l r released} (hc : Split key c l r released) :
      SplitBody key (.edge c) (.edge l) (.edge r) released
  | skip {c k v rest l r released} (hk : k < key) (hrest : SplitBody key rest l r released) :
      SplitBody key (.entry c k v rest) (.entry c k v l) r released
  | stop {c l r k v rest released} (hk : ¬ k < key) (hc : Split key c l r released) :
      SplitBody key (.entry c k v rest) (.edge l) (.entry r k v rest) released

end

mutual

theorem split_of_splitNode {key : Key} :
  ∀ {c l r : Child} {released : List Cid},
    splitNode key c = .ok (l, r, released) → Split key c l r released
  | .absent, _, _, _, h => by
      cases h
      apply Split.absent
  | .stub _ _, _, _, _, h => by cases h
  | .node _ _ _, _, _, _, h => by
      rw [splitNode] at h
      obtain ⟨⟨_, _, _⟩, hbody, h⟩ := bind_eq_ok.mp h
      cases h
      apply Split.node (splitBody_of_splitBody hbody)

theorem splitBody_of_splitBody {key : Key} :
  ∀ {b l r : Body} {released : List Cid},
    splitBody key b = .ok (l, r, released) → SplitBody key b l r released
  | .edge _, _, _, _, h => by
      rw [splitBody] at h
      obtain ⟨⟨_, _, _⟩, hc, h⟩ := bind_eq_ok.mp h
      cases h
      apply SplitBody.edge (split_of_splitNode hc)
  | .entry _ _ _ _, _, _, _, h => by
      rw [splitBody] at h
      split at h
      · rename_i hk
        obtain ⟨⟨_, _, _⟩, hrest, h⟩ := bind_eq_ok.mp h
        cases h
        apply SplitBody.skip hk (splitBody_of_splitBody hrest)
      · rename_i hk
        obtain ⟨⟨_, _, _⟩, hc, h⟩ := bind_eq_ok.mp h
        cases h
        apply SplitBody.stop hk (split_of_splitNode hc)

end

mutual

/-- `Merge l r n released`: merging `l` and `r` leaves `n`. -/
inductive Merge : Child → Child → Child → List Cid → Prop
  | left {r} : Merge .absent r r []
  | right {l} : Merge l .absent l []
  | node {lcid rcid : Option Cid} {lh rh lbody rbody body released}
      (hbody : MergeBody lbody rbody body released) :
      Merge (.node lcid lh lbody) (.node rcid rh rbody) (.node none lh body)
        (released ++ lcid.toList ++ rcid.toList)

/-- `MergeBody l r b released`: appending the contents `r` to `l` leaves `b`. -/
inductive MergeBody : Body → Body → Body → List Cid → Prop
  | edge {c n} {right : Body} {released} (hc : Merge c right.first n released) :
      MergeBody (.edge c) right (right.setFirst n) released
  | entry {c k v rest right body released} (hrest : MergeBody rest right body released) :
      MergeBody (.entry c k v rest) right (.entry c k v body) released

end

mutual

theorem merge_of_mergeNodes :
  ∀ {l r n : Child} {released : List Cid},
    mergeNodes l r = .ok (n, released) → Merge l r n released
  | .absent, _, _, _, h => by
      cases h
      apply Merge.left
  | .stub _ _, .absent, _, _, h => by
      cases h
      apply Merge.right
  | .stub _ _, .stub _ _, _, _, h => by cases h
  | .stub _ _, .node _ _ _, _, _, h => by cases h
  | .node _ _ _, .absent, _, _, h => by
      cases h
      apply Merge.right
  | .node _ _ _, .stub _ _, _, _, h => by cases h
  | .node _ _ _, .node _ _ _, _, _, h => by
      rw [mergeNodes] at h
      obtain ⟨⟨_, _⟩, hbody, h⟩ := bind_eq_ok.mp h
      cases h
      apply Merge.node (mergeBody_of_mergeBody hbody)

theorem mergeBody_of_mergeBody :
  ∀ {l r b : Body} {released : List Cid},
    mergeBody l r = .ok (b, released) → MergeBody l r b released
  | .edge _, _, _, _, h => by
      rw [mergeBody] at h
      obtain ⟨⟨_, _⟩, hc, h⟩ := bind_eq_ok.mp h
      cases h
      apply MergeBody.edge (merge_of_mergeNodes hc)
  | .entry _ _ _ _, _, _, _, h => by
      rw [mergeBody] at h
      obtain ⟨⟨_, _⟩, hrest, h⟩ := bind_eq_ok.mp h
      cases h
      apply MergeBody.entry (mergeBody_of_mergeBody hrest)

end

/-! ### Insertion -/

section Insert

variable (key : Key) (val : Cid)

/-- `InsertAt key val b b' released`: inserting the key among the entries of `b` leaves
`b'`. -/
inductive InsertAt : Body → Body → List Cid → Prop
  | edge {c l r released} (hc : Split key c l r released) :
      InsertAt (.edge c) (.entry l key val (.edge r)) released
  | skip {c k v rest rest' released} (hk : k < key) (hrest : InsertAt rest rest' released) :
      InsertAt (.entry c k v rest) (.entry c k v rest') released
  | same {c v rest} : InsertAt (.entry c key v rest) (.entry c key val rest) []
  | stop {c l r k v rest released} (hk : key < k) (hc : Split key c l r released) :
      InsertAt (.entry c k v rest) (.entry l key val (.entry r k v rest)) released

variable (height : ℕ)

mutual

/-- `Insert key val height c c' released`: inserting a key of the given height below the
node `c` leaves `c'`. -/
inductive Insert : Child → Child → List Cid → Prop
  | absent : Insert .absent (freshChain key val height 0) []
  | raise {cid h body body' released} (hh : h < height)
      (hbody : InsertAt key val (.edge (wrap (.node cid h body) (height - h - 1))) body' released) :
      Insert (.node cid h body) (.node none height body') released
  | down {cid : Option Cid} {h body body' released} (hh : height < h)
      (hbody : InsertBelow h body body' released) :
      Insert (.node cid h body) (.node none h body') (released ++ cid.toList)
  | level {cid : Option Cid} {body body' released} (hbody : InsertAt key val body body' released) :
      Insert (.node cid height body) (.node none height body') (released ++ cid.toList)

/-- `InsertSlot key val height h c c' released`: inserting a key of the given height into
the subtree `c` of a node of height `h` leaves `c'`. -/
inductive InsertSlot : ℕ → Child → Child → List Cid → Prop
  | fresh {h} : InsertSlot h .absent (freshChain key val height (h - 1 - height)) []
  | insert {h c c' released} (hpresent : c ≠ .absent) (hc : Insert c c' released) :
      InsertSlot h c c' released

/-- `InsertBelow key val height h b b' released`: inserting a key of the given height into
a subtree of a node of height `h` with contents `b` leaves `b'`. -/
inductive InsertBelow : ℕ → Body → Body → List Cid → Prop
  | edge {h c c' released} (hc : InsertSlot h c c' released) :
      InsertBelow h (.edge c) (.edge c') released
  | skip {h c k v rest rest' released} (hk : k < key) (hrest : InsertBelow h rest rest' released) :
      InsertBelow h (.entry c k v rest) (.entry c k v rest') released
  | stop {h c c' k v rest released} (hk : ¬ k < key) (hc : InsertSlot h c c' released) :
      InsertBelow h (.entry c k v rest) (.entry c' k v rest) released

end

variable {key val height}

theorem insertAt_of_insertAtLevel :
  ∀ {b b' : Body} {released : List Cid},
    insertAtLevel key val b = .ok (b', released) → InsertAt key val b b' released
  | .edge _, _, _, h => by
      rw [insertAtLevel] at h
      obtain ⟨⟨_, _, _⟩, hc, h⟩ := bind_eq_ok.mp h
      cases h
      apply InsertAt.edge (split_of_splitNode hc)
  | .entry _ k _ _, _, _, h => by
      rw [insertAtLevel] at h
      split at h
      · rename_i hk
        obtain ⟨⟨_, _⟩, hrest, h⟩ := bind_eq_ok.mp h
        cases h
        apply InsertAt.skip hk (insertAt_of_insertAtLevel hrest)
      · rename_i hlt
        split at h
        · rename_i hk
          obtain rfl := hk
          cases h
          apply InsertAt.same
        · rename_i hne
          obtain ⟨⟨_, _, _⟩, hc, h⟩ := bind_eq_ok.mp h
          cases h
          apply InsertAt.stop (lt_of_le_of_ne (not_lt.mp hlt) (Ne.symm hne)) (split_of_splitNode hc)

mutual

theorem insert_of_insertNode :
  ∀ {c c' : Child} {released : List Cid},
    insertNode key val height c = .ok (c', released) → Insert key val height c c' released
  | .absent, _, _, h => by
      cases h
      apply Insert.absent
  | .stub _ _, _, _, h => by cases h
  | .node _ h _, _, _, heq => by
      rw [insertNode] at heq
      split at heq
      · rename_i hh
        obtain ⟨⟨_, _⟩, hbody, heq⟩ := bind_eq_ok.mp heq
        cases heq
        apply Insert.raise hh (insertAt_of_insertAtLevel hbody)
      · rename_i hle
        split at heq
        · rename_i hh
          obtain ⟨⟨_, _⟩, hbody, heq⟩ := bind_eq_ok.mp heq
          cases heq
          apply Insert.down hh (insertBelow_of_insertBelow hbody)
        · rename_i hge
          obtain rfl : h = height := le_antisymm (not_lt.mp hge) (not_lt.mp hle)
          obtain ⟨⟨_, _⟩, hbody, heq⟩ := bind_eq_ok.mp heq
          cases heq
          apply Insert.level (insertAt_of_insertAtLevel hbody)

theorem insertBelow_of_insertBelow {h : ℕ} :
  ∀ {b b' : Body} {released : List Cid},
    insertBelow key val height h b = .ok (b', released) →
      InsertBelow key val height h b b' released
  | .edge _, _, _, heq => by
      rw [insertBelow] at heq
      split at heq
      · rename_i hc
        obtain rfl := Child.isAbsent_iff.mp hc
        cases heq
        apply InsertBelow.edge InsertSlot.fresh
      · rename_i hpresent
        obtain ⟨⟨_, _⟩, hc, heq⟩ := bind_eq_ok.mp heq
        cases heq
        apply InsertBelow.edge (InsertSlot.insert (mt Child.isAbsent_iff.mpr hpresent)
          (insert_of_insertNode hc))
  | .entry _ _ _ _, _, _, heq => by
      rw [insertBelow] at heq
      split at heq
      · rename_i hk
        obtain ⟨⟨_, _⟩, hrest, heq⟩ := bind_eq_ok.mp heq
        cases heq
        apply InsertBelow.skip hk (insertBelow_of_insertBelow hrest)
      · rename_i hk
        split at heq
        · rename_i hc
          obtain rfl := Child.isAbsent_iff.mp hc
          cases heq
          apply InsertBelow.stop hk InsertSlot.fresh
        · rename_i hpresent
          obtain ⟨⟨_, _⟩, hc, heq⟩ := bind_eq_ok.mp heq
          cases heq
          apply InsertBelow.stop hk (InsertSlot.insert (mt Child.isAbsent_iff.mpr hpresent)
            (insert_of_insertNode hc))

end

end Insert

/-! ### Updates -/

section Update

variable (key : Key) (val : Cid)

mutual

/-- `Update key val c c' released`: setting the value of the key below `c` leaves `c'`. -/
inductive Update : Child → Child → List Cid → Prop
  | node {cid : Option Cid} {h body body' released} (hbody : UpdateBody body body' released) :
      Update (.node cid h body) (.node none h body') (cid.toList ++ released)

/-- `UpdateBody key val b b' released`: setting the value of the key in the contents `b`
leaves `b'`. -/
inductive UpdateBody : Body → Body → List Cid → Prop
  | edge {c c' released} (hc : Update c c' released) :
      UpdateBody (.edge c) (.edge c') released
  | skip {c k v rest rest' released} (hk : k < key) (hrest : UpdateBody rest rest' released) :
      UpdateBody (.entry c k v rest) (.entry c k v rest') released
  | same {c v rest} : UpdateBody (.entry c key v rest) (.entry c key val rest) []
  | stop {c c' k v rest released} (hk : key < k) (hc : Update c c' released) :
      UpdateBody (.entry c k v rest) (.entry c' k v rest) released

end

variable {key val}

mutual

theorem update_of_updateNode :
  ∀ {c c' : Child} {released : List Cid},
    updateNode key val c = .ok (c', released) → Update key val c c' released
  | .absent, _, _, h => by cases h
  | .stub _ _, _, _, h => by cases h
  | .node _ _ _, _, _, h => by
      rw [updateNode] at h
      obtain ⟨⟨_, _⟩, hbody, h⟩ := bind_eq_ok.mp h
      cases h
      apply Update.node (updateBody_of_updateBody hbody)

theorem updateBody_of_updateBody :
  ∀ {b b' : Body} {released : List Cid},
    updateBody key val b = .ok (b', released) → UpdateBody key val b b' released
  | .edge _, _, _, h => by
      rw [updateBody] at h
      obtain ⟨⟨_, _⟩, hc, h⟩ := bind_eq_ok.mp h
      cases h
      apply UpdateBody.edge (update_of_updateNode hc)
  | .entry _ k _ _, _, _, h => by
      rw [updateBody] at h
      split at h
      · rename_i hk
        obtain ⟨⟨_, _⟩, hrest, h⟩ := bind_eq_ok.mp h
        cases h
        apply UpdateBody.skip hk (updateBody_of_updateBody hrest)
      · rename_i hlt
        split at h
        · rename_i hk
          obtain rfl := hk
          cases h
          apply UpdateBody.same
        · rename_i hne
          obtain ⟨⟨_, _⟩, hc, h⟩ := bind_eq_ok.mp h
          cases h
          apply UpdateBody.stop (lt_of_le_of_ne (not_lt.mp hlt) (Ne.symm hne))
            (update_of_updateNode hc)

end

end Update

/-! ### Removal -/

section Remove

variable (key : Key)

mutual

/-- `Remove key c c' val released`: taking the key, with its value `val`, out of the node
`c` leaves `c'`. -/
inductive Remove : Child → Child → Cid → List Cid → Prop
  | node {cid : Option Cid} {h body body' val released}
      (hbody : RemoveBody body body' val released) :
      Remove (.node cid h body) (trimNode h body') val (released ++ cid.toList)

/-- `RemoveBody key b b' val released`: taking the key, with its value `val`, out of the
contents `b` leaves `b'`. -/
inductive RemoveBody : Body → Body → Cid → List Cid → Prop
  | edge {c c' val released} (hc : Remove c c' val released) :
      RemoveBody (.edge c) (.edge c') val released
  | skip {c k v rest rest' val released}
      (hk : k < key) (hrest : RemoveBody rest rest' val released) :
      RemoveBody (.entry c k v rest) (.entry c k v rest') val released
  | same {c n v} {rest : Body} {released} (hmerge : Merge c rest.first n released) :
      RemoveBody (.entry c key v rest) (rest.setFirst n) v released
  | stop {c c' k v rest val released} (hk : key < k) (hc : Remove c c' val released) :
      RemoveBody (.entry c k v rest) (.entry c' k v rest) val released

end

variable {key}

theorem pruneEmpty_none (h : ℕ) (b : Body) :
  pruneEmpty none h b = (trimNode h b, [])
  := by
  unfold pruneEmpty trimNode
  split <;> rfl

mutual

theorem remove_of_removeNode :
  ∀ {c c' : Child} {val : Cid} {released : List Cid},
    removeNode key c = .ok (c', some val, released) → Remove key c c' val released
  | .absent, _, _, _, h => by cases h
  | .stub _ _, _, _, _, h => by cases h
  | .node _ _ _, _, _, _, h => by
      rw [removeNode] at h
      obtain ⟨res, hbody, h⟩ := bind_eq_ok.mp h
      split at h
      · cases h
      · cases h
      · rw [pruneEmpty_none] at h
        cases h
        rw [List.append_nil]
        apply Remove.node (removeBody_of_removeBody hbody)

theorem removeBody_of_removeBody :
  ∀ {b b' : Body} {val : Cid} {released : List Cid},
    removeBody key b = .ok (some (b', some val, released)) → RemoveBody key b b' val released
  | .edge _, _, _, _, h => by
      rw [removeBody] at h
      split at h
      · cases h
      · obtain ⟨⟨_, _, _⟩, hc, h⟩ := bind_eq_ok.mp h
        cases h
        apply RemoveBody.edge (remove_of_removeNode hc)
  | .entry c _ _ _, _, _, _, h => by
      rw [removeBody] at h
      split at h
      · rename_i hk
        obtain rfl := hk
        obtain ⟨⟨_, _⟩, hmerge, h⟩ := bind_eq_ok.mp h
        cases h
        apply RemoveBody.same (merge_of_mergeNodes hmerge)
      · rename_i hne
        split at h
        · rename_i hk
          split at h
          · cases h
          · obtain ⟨⟨_, _, _⟩, hc, h⟩ := bind_eq_ok.mp h
            cases h
            apply RemoveBody.stop hk (remove_of_removeNode hc)
        · rename_i hge
          obtain ⟨res, hrest, h⟩ := bind_eq_ok.mp h
          split at h
          · cases h
          · cases h
            apply RemoveBody.skip (lt_of_le_of_ne (not_lt.mp hge) (Ne.symm hne))
              (removeBody_of_removeBody hrest)

end

/-- `Trim c c' released`: collapsing the chain of nodes without entries from `c` down
leaves `c'`. -/
inductive Trim : Child → Child → List Cid → Prop
  | absent : Trim .absent .absent []
  | stub {cid} : Trim (.stub cid 0) (.stub cid 0) []
  | down {cid : Option Cid} {h c c' released}
      (hc : Trim c c' released) : Trim (.node cid h (.edge c)) c' (cid.toList ++ released)
  | stop {cid h c k v rest} :
      Trim (.node cid h (.entry c k v rest)) (.node cid h (.entry c k v rest)) []

theorem trim_of_trimTop :
  ∀ {c c' : Child} {released : List Cid}, trimTop c = .ok (c', released) → Trim c c' released
  | .absent, _, _, h => by
      cases h
      apply Trim.absent
  | .stub _ _, _, _, h => by
      rw [trimTop] at h
      split at h
      · rename_i hh
        obtain rfl := hh
        cases h
        apply Trim.stub
      · cases h
  | .node _ _ (.edge _), _, _, h => by
      rw [trimTop] at h
      obtain ⟨⟨_, _⟩, hc, h⟩ := bind_eq_ok.mp h
      cases h
      apply Trim.down (trim_of_trimTop hc)
  | .node _ _ (.entry _ _ _ _), _, _, h => by
      cases h
      apply Trim.stop

/-- What a removal from the root does: it takes out the key, then collapses the chain it
may leave. -/
theorem remove_trim_of_removeFromRoot {c c' : Child} {val : Cid} {released : List Cid}
    (h : removeFromRoot c key = .ok (c', some val, released)) :
  ∃ n dropped trimmed, Remove key c n val dropped ∧ Trim n c' trimmed
    ∧ released = dropped ++ trimmed
  := by
  rw [removeFromRoot] at h
  obtain ⟨⟨n, removed, dropped⟩, hremove, h⟩ := bind_eq_ok.mp h
  obtain ⟨⟨n', trimmed⟩, htrim, h⟩ := bind_eq_ok.mp h
  cases h
  use n, dropped, trimmed, remove_of_removeNode hremove, trim_of_trimTop htrim

end Remove

end Shrike.Mst
