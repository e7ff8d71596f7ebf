import Shrike.Mst.Flush

/-!
# Trees that are written alike

A flush writes the changed nodes of a tree and changes nothing else. Two trees of which one is the
other with some changed nodes written are written to the same tree, and a mutation does the same to
both.
-/

namespace Except

variable {ε : Type*} {α α' β β' : Type}

/-- Two results that are the same error, or related values. -/
inductive Both (R : α → α' → Prop) : Except ε α → Except ε α' → Prop where
  | error {e} : Both R (.error e) (.error e)
  | ok {a a'} (h : R a a') : Both R (.ok a) (.ok a')

theorem Both.bind {R : α → α' → Prop} {S : β → β' → Prop} {x : Except ε α} {x' : Except ε α'}
    {f : α → Except ε β} {f' : α' → Except ε β'} (h : Both R x x')
    (hf : ∀ a a', R a a' → Both S (f a) (f' a')) :
  Both S (x >>= f) (x' >>= f')
  := by
  cases h with
  | error => exact .error
  | ok h => exact hf _ _ h

theorem Both.of_eq {R : α → α' → Prop} {x : Except ε α} {x' : Except ε α'} (h : Both R x x') :
  Both (fun a a' => R a a' ∧ x = .ok a) x x'
  := by
  cases h with
  | error => exact .error
  | ok h => exact .ok ⟨h, rfl⟩

end Except

namespace Shrike.Mst

open Cbor Except

/-! ### Written nodes -/

mutual

/-- A subtree whose loaded nodes are all written. -/
def Child.Clean : Child → Prop
  | .absent => True
  | .stub _ _ => True
  | .node cid _ body => cid ≠ none ∧ body.Clean

/-- The contents of a node whose subtrees are written. -/
def Body.Clean : Body → Prop
  | .edge c => c.Clean
  | .entry c _ _ rest => c.Clean ∧ rest.Clean

end

/-- A subtree in which everything below a written node is written. -/
abbrev Child.Tidy (c : Child) : Prop := c.Cached fun _ b => b.Clean

/-- The contents of a node in which everything below a written node is written. -/
abbrev Body.Tidy (b : Body) : Prop := b.Cached fun _ b => b.Clean

mutual

theorem Child.Clean.tidy :
  ∀ {c : Child}, c.Clean → c.Tidy
  | .absent, _ => trivial
  | .stub _ _, _ => trivial
  | .node _ _ _, ⟨_, hb⟩ => ⟨fun _ _ => hb, Body.Clean.tidy hb⟩

theorem Body.Clean.tidy :
  ∀ {b : Body}, b.Clean → b.Tidy
  | .edge _, hc => Child.Clean.tidy hc
  | .entry _ _ _ _, ⟨hc, hrest⟩ => ⟨Child.Clean.tidy hc, Body.Clean.tidy hrest⟩

end

theorem stubAt_clean (h : ℕ) (c : Option Cid) :
  (stubAt h c).Clean
  := by
  cases c with
  | none => trivial
  | some c => trivial

theorem stubBody_clean (h : ℕ) :
  ∀ (es : List (Key × EntryData)) (left : Option Cid), (stubBody h left es).Clean
  | [], left => stubAt_clean h left
  | (_, ed) :: es, left => ⟨stubAt_clean h left, stubBody_clean h es ed.right⟩

variable [Hashing]

/-! ### The links of a tree once it is written -/

mutual

/-- The CID that a subtree is linked by once it is written. -/
def Child.writtenLink : Child → Option Cid
  | .absent => none
  | .stub cid _ => some cid
  | .node cid _ body =>
      let (left, links) := body.writtenLinks
      some (cid.getD
        (Cid.compute .drisl (encodeNodeData { left, entries := compress [] links })))

/-- The links of a node once its subtrees are written: that of its left subtree, and its entries
with those of their right subtrees. -/
def Body.writtenLinks : Body → Option Cid × List (Key × Cid × Option Cid)
  | .edge c => (c.writtenLink, [])
  | .entry c key val rest =>
      (c.writtenLink, (key, val, rest.writtenLinks.1) :: rest.writtenLinks.2)

end

mutual

/-- `Alike c c'`: two subtrees that differ only in which of their nodes are written, and are written
with the same links. -/
inductive Alike : Child → Child → Prop
  | absent : Alike .absent .absent
  | stub {cid h} : Alike (.stub cid h) (.stub cid h)
  | node {cid cid' h b b'} (hbody : AlikeBody b b')
      (hlink : (Child.node cid h b).writtenLink = (Child.node cid' h b').writtenLink) :
      Alike (.node cid h b) (.node cid' h b')

/-- `AlikeBody b b'`: the contents of two nodes whose subtrees are alike. -/
inductive AlikeBody : Body → Body → Prop
  | edge {c c'} (hc : Alike c c') : AlikeBody (.edge c) (.edge c')
  | entry {c c' k v rest rest'} (hc : Alike c c')
      (hrest : AlikeBody rest rest') : AlikeBody (.entry c k v rest) (.entry c' k v rest')

end

mutual

theorem Alike.refl :
  ∀ c : Child, Alike c c
  | .absent => .absent
  | .stub _ _ => .stub
  | .node _ _ b => .node (AlikeBody.refl b) rfl

theorem AlikeBody.refl :
  ∀ b : Body, AlikeBody b b
  | .edge c => .edge (Alike.refl c)
  | .entry c _ _ rest => .entry (Alike.refl c) (AlikeBody.refl rest)

end

mutual

theorem Alike.symm :
  ∀ {c c' : Child}, Alike c c' → Alike c' c
  | _, _, .absent => .absent
  | _, _, .stub => .stub
  | _, _, .node hbody hlink => .node hbody.symm hlink.symm

theorem AlikeBody.symm :
  ∀ {b b' : Body}, AlikeBody b b' → AlikeBody b' b
  | _, _, .edge hc => .edge hc.symm
  | _, _, .entry hc hrest => .entry hc.symm hrest.symm

end

mutual

theorem Alike.trans :
  ∀ {c d e : Child}, Alike c d → Alike d e → Alike c e
  | _, _, _, .absent, .absent => .absent
  | _, _, _, .stub, .stub => .stub
  | _, _, _, .node hbody hlink, .node hbody' hlink' =>
      .node (hbody.trans hbody') (hlink.trans hlink')

theorem AlikeBody.trans :
  ∀ {b d e : Body}, AlikeBody b d → AlikeBody d e → AlikeBody b e
  | _, _, _, .edge hc, .edge hc' => .edge (hc.trans hc')
  | _, _, _, .entry hc hrest, .entry hc' hrest' => .entry (hc.trans hc') (hrest.trans hrest')

end

theorem Alike.writtenLink {c c' : Child} (h : Alike c c') :
  c.writtenLink = c'.writtenLink
  := by
  cases h with
  | absent => rfl
  | stub => rfl
  | node hbody hlink => exact hlink

theorem AlikeBody.writtenLinks :
  ∀ {b b' : Body}, AlikeBody b b' → b.writtenLinks = b'.writtenLinks
  | _, _, .edge hc => by rw [Body.writtenLinks, Body.writtenLinks, hc.writtenLink]
  | _, _, .entry hc hrest => by
      rw [Body.writtenLinks, Body.writtenLinks, hc.writtenLink, hrest.writtenLinks]

/-- Nodes are alike whose contents are, if they carry the same CID or none. -/
theorem AlikeBody.node {b b' : Body} (hb : AlikeBody b b') (cid : Option Cid) (h : ℕ) :
  Alike (.node cid h b) (.node cid h b')
  := by
  refine .node hb ?_
  rw [Child.writtenLink, Child.writtenLink, hb.writtenLinks]

/-! ### Parts of a node -/

section Parts

variable {c c' : Child} {b b' : Body}

theorem Alike.isAbsent (h : Alike c c') :
  c'.isAbsent = c.isAbsent
  := by
  cases h <;> rfl

theorem Alike.height (h : Alike c c') :
  c'.height = c.height
  := by
  cases h <;> rfl

mutual

theorem Alike.depth :
  ∀ {c c' : Child}, Alike c c' → c'.depth = c.depth
  | _, _, .absent => rfl
  | _, _, .stub => rfl
  | _, _, .node hbody _ => by rw [Child.depth, Child.depth, hbody.depth]

theorem AlikeBody.depth :
  ∀ {b b' : Body}, AlikeBody b b' → b'.depth = b.depth
  | _, _, .edge hc => hc.depth
  | _, _, .entry hc hrest => by rw [Body.depth, Body.depth, hc.depth, hrest.depth]

end

theorem Alike.reach (h : Alike c c') :
  c'.reach = c.reach
  := by rw [Child.reach, Child.reach, h.depth]

theorem AlikeBody.size {b b' : Body} (h : AlikeBody b b') :
  b'.size = b.size
  := by
  induction b using Body.spine generalizing b' with
  | edge c =>
      cases h
      rfl
  | entry c k v rest ih =>
      cases h with
      | entry hc hrest => rw [Body.size, Body.size, ih hrest]

theorem AlikeBody.search (key : Key) {b b' : Body} (h : AlikeBody b b') :
  b'.search key = b.search key
  := by
  induction b using Body.spine generalizing b' with
  | edge c =>
      cases h
      rfl
  | entry c k v rest ih =>
      cases h with
      | entry hc hrest => rw [Body.search, Body.search, ih hrest]

theorem AlikeBody.valueAt :
  ∀ {b b' : Body} (i : ℕ), AlikeBody b b' → b'.valueAt i = b.valueAt i
  | _, _, _, .edge _ => rfl
  | _, _, 0, .entry _ _ => rfl
  | _, _, i + 1, .entry _ hrest => hrest.valueAt i

theorem AlikeBody.childAt :
  ∀ {b b' : Body} (i : ℕ) (pl : Place), AlikeBody b b' →
    Alike (b.childAt i pl).1 (b'.childAt i pl).1 ∧ (b'.childAt i pl).2 = (b.childAt i pl).2
  | _, _, _, _, .edge hc => ⟨hc, rfl⟩
  | _, _, 0, _, .entry hc _ => ⟨hc, rfl⟩
  | .entry _ k _ _, _, i + 1, pl, .entry _ hrest => hrest.childAt i (pl.after k)

theorem AlikeBody.setChildAt (hc : Alike c c') :
  ∀ {b b' : Body} (i : ℕ), AlikeBody b b' → AlikeBody (b.setChildAt c i) (b'.setChildAt c' i)
  | _, _, _, .edge _ => .edge hc
  | _, _, 0, .entry _ hrest => .entry hc hrest
  | _, _, i + 1, .entry hd hrest => .entry hd (AlikeBody.setChildAt hc i hrest)

theorem AlikeBody.first (h : AlikeBody b b') :
  Alike b.first b'.first
  := by
  cases h with
  | edge hc => exact hc
  | entry hc hrest => exact hc

theorem AlikeBody.setFirst (h : AlikeBody b b') (hc : Alike c c') :
  AlikeBody (b.setFirst c) (b'.setFirst c')
  := by
  cases h with
  | edge _ => exact .edge hc
  | entry _ hrest => exact .entry hc hrest

theorem AlikeBody.trimNode (h : AlikeBody b b') (n : ℕ) :
  Alike (trimNode n b) (trimNode n b')
  := by
  cases h with
  | entry hc hrest => exact (AlikeBody.entry hc hrest).node none n
  | edge hc =>
      cases hc with
      | absent => exact .absent
      | stub => exact (AlikeBody.edge .stub).node none n
      | node hbody hlink => exact (AlikeBody.edge (.node hbody hlink)).node none n

theorem Alike.wrap (h : Alike c c') (n : ℕ) :
  Alike (wrap c n) (wrap c' n)
  := by
  induction n with
  | zero => exact h
  | succ n ih =>
      rw [Mst.wrap, Mst.wrap, h.height]
      exact (AlikeBody.edge ih).node none _

end Parts

/-! ### Mutations -/

/-- Two splits with the same outcome, but for the CIDs given up. -/
abbrev SplitAlike {α : Type} (R : α → α → Prop) (x y : Except MstError (α × α × List Cid)) : Prop :=
  Both (fun p q => R p.1 q.1 ∧ R p.2.1 q.2.1) x y

/-- Two changes with the same outcome, but for the CIDs given up. -/
abbrev ChangeAlike {α : Type} (R : α → α → Prop) (x y : Except MstError (α × List Cid)) : Prop :=
  Both (fun p q => R p.1 q.1) x y

mutual

theorem Alike.split {key : Key} :
  ∀ {c c' : Child}, Alike c c' → SplitAlike Alike (splitNode key c) (splitNode key c')
  | _, _, .absent => .ok ⟨.absent, .absent⟩
  | _, _, .stub => .error
  | _, _, .node hbody _ => by
      rw [splitNode, splitNode]
      exact hbody.split.bind fun _ _ h => .ok ⟨h.1.trimNode _, h.2.trimNode _⟩

theorem AlikeBody.split {key : Key} :
  ∀ {b b' : Body}, AlikeBody b b' → SplitAlike AlikeBody (splitBody key b) (splitBody key b')
  | _, _, .edge hc => by
      rw [splitBody, splitBody]
      exact hc.split.bind fun _ _ h => .ok ⟨.edge h.1, .edge h.2⟩
  | .entry _ k _ _, _, .entry hc hrest => by
      rw [splitBody, splitBody]
      by_cases hk : k < key
      · rw [if_pos hk, if_pos hk]
        exact hrest.split.bind fun _ _ h => .ok ⟨.entry hc h.1, h.2⟩
      · rw [if_neg hk, if_neg hk]
        exact hc.split.bind fun _ _ h => .ok ⟨.edge h.1, .entry h.2 hrest⟩

end

mutual

theorem Alike.merge :
  ∀ {l l' r r' : Child}, Alike l l' → Alike r r' →
    ChangeAlike Alike (mergeNodes l r) (mergeNodes l' r')
  | _, _, _, _, .absent, hr => .ok hr
  | _, _, _, _, .stub, .absent => .ok .stub
  | _, _, _, _, .stub, .stub => .error
  | _, _, _, _, .stub, .node _ _ => .error
  | _, _, _, _, .node hl hlink, .absent => .ok (.node hl hlink)
  | _, _, _, _, .node _ _, .stub => .error
  | _, _, _, _, .node hl _, .node hr _ => by
      rw [mergeNodes, mergeNodes]
      exact (hl.merge hr).bind fun _ _ h => .ok (h.node none _)

theorem AlikeBody.merge :
  ∀ {l l' r r' : Body}, AlikeBody l l' → AlikeBody r r' →
    ChangeAlike AlikeBody (mergeBody l r) (mergeBody l' r')
  | _, _, _, _, .edge hc, hr => by
      rw [mergeBody, mergeBody]
      exact (hc.merge hr.first).bind fun _ _ h => .ok (hr.setFirst h)
  | _, _, _, _, .entry hc hrest, hr => by
      rw [mergeBody, mergeBody]
      exact (hrest.merge hr).bind fun _ _ h => .ok (.entry hc h)

end

section Write

variable {key : Key} {val : Cid} {height : ℕ}

theorem AlikeBody.insertAt {b b' : Body} (h : AlikeBody b b') :
  ChangeAlike AlikeBody (insertAtLevel key val b) (insertAtLevel key val b')
  := by
  induction b using Body.spine generalizing b' with
  | edge c =>
      cases h with
      | edge hc =>
          rw [insertAtLevel, insertAtLevel]
          exact hc.split.bind fun _ _ h => .ok (.entry h.1 (.edge h.2))
  | entry c k v rest ih =>
      cases h with
      | entry hc hrest =>
          rw [insertAtLevel, insertAtLevel]
          by_cases hk : k < key
          · rw [if_pos hk, if_pos hk]
            exact (ih hrest).bind fun _ _ h => .ok (.entry hc h)
          · rw [if_neg hk, if_neg hk]
            by_cases heq : k = key
            · rw [if_pos heq, if_pos heq]
              exact .ok (.entry hc hrest)
            · rw [if_neg heq, if_neg heq]
              exact hc.split.bind fun _ _ h => .ok (.entry h.1 (.entry h.2 hrest))

mutual

theorem Alike.insert :
  ∀ {c c' : Child}, Alike c c' →
    ChangeAlike Alike (insertNode key val height c) (insertNode key val height c')
  | _, _, .absent => .ok (Alike.refl _)
  | _, _, .stub => .error
  | .node _ h _, _, .node hbody hlink => by
      rw [insertNode, insertNode]
      by_cases hh : h < height
      · rw [if_pos hh, if_pos hh]
        have hwrap := (Alike.node hbody hlink).wrap (height - h - 1)
        exact (AlikeBody.edge hwrap).insertAt.bind fun _ _ h => .ok (h.node none _)
      · rw [if_neg hh, if_neg hh]
        by_cases hh' : height < h
        · rw [if_pos hh', if_pos hh']
          exact hbody.insertBelow.bind fun _ _ h => .ok (h.node none _)
        · rw [if_neg hh', if_neg hh']
          exact hbody.insertAt.bind fun _ _ h => .ok (h.node none _)

theorem AlikeBody.insertBelow {n : ℕ} :
  ∀ {b b' : Body}, AlikeBody b b' →
    ChangeAlike AlikeBody (insertBelow key val height n b) (insertBelow key val height n b')
  | .edge c, .edge _, .edge hc => by
      rw [Mst.insertBelow, Mst.insertBelow, hc.isAbsent]
      by_cases habsent : c.isAbsent
      · rw [if_pos habsent, if_pos habsent]
        exact .ok (AlikeBody.refl _)
      · rw [if_neg habsent, if_neg habsent]
        exact hc.insert.bind fun _ _ h => .ok (.edge h)
  | .entry c k _ _, .entry _ _ _ _, .entry hc hrest => by
      rw [Mst.insertBelow, Mst.insertBelow, hc.isAbsent]
      by_cases hk : k < key
      · rw [if_pos hk, if_pos hk]
        exact hrest.insertBelow.bind fun _ _ h => .ok (.entry hc h)
      · rw [if_neg hk, if_neg hk]
        by_cases habsent : c.isAbsent
        · rw [if_pos habsent, if_pos habsent]
          exact .ok (.entry (Alike.refl _) hrest)
        · rw [if_neg habsent, if_neg habsent]
          exact hc.insert.bind fun _ _ h => .ok (.entry h hrest)

end

mutual

theorem Alike.update :
  ∀ {c c' : Child}, Alike c c' → ChangeAlike Alike (updateNode key val c) (updateNode key val c')
  | _, _, .absent => .error
  | _, _, .stub => .error
  | _, _, .node hbody _ => by
      rw [updateNode, updateNode]
      exact hbody.update.bind fun _ _ h => .ok (h.node none _)

theorem AlikeBody.update :
  ∀ {b b' : Body}, AlikeBody b b' →
    ChangeAlike AlikeBody (updateBody key val b) (updateBody key val b')
  | _, _, .edge hc => by
      rw [updateBody, updateBody]
      exact hc.update.bind fun _ _ h => .ok (.edge h)
  | .entry _ k _ _, _, .entry hc hrest => by
      rw [updateBody, updateBody]
      by_cases hk : k < key
      · rw [if_pos hk, if_pos hk]
        exact hrest.update.bind fun _ _ h => .ok (.entry hc h)
      · rw [if_neg hk, if_neg hk]
        by_cases heq : k = key
        · rw [if_pos heq, if_pos heq]
          exact .ok (.entry hc hrest)
        · rw [if_neg heq, if_neg heq]
          exact hc.update.bind fun _ _ h => .ok (.entry h hrest)

end

/-- What is left of two subtrees by the removal of a key: the same value was removed, and if there was
one, what is left is related. -/
def RemoveAlike {α : Type} (R : α → α → Prop) (p q : α × Option Cid × List Cid) : Prop :=
  p.2.1 = q.2.1 ∧ (p.2.1 ≠ none → R p.1 q.1)

mutual

theorem Alike.remove :
  ∀ {c c' : Child}, Alike c c' → Both (RemoveAlike Alike) (removeNode key c) (removeNode key c')
  | _, _, .absent => .ok ⟨rfl, fun _ => .absent⟩
  | _, _, .stub => .error
  | _, _, .node hbody _ => by
      rw [removeNode, removeNode]
      refine hbody.remove.bind fun x x' h => ?_
      cases h with
      | none => exact .ok ⟨rfl, fun h => absurd rfl h⟩
      | @some p q h =>
          obtain ⟨b, removed, released⟩ := p
          obtain ⟨b', removed', released'⟩ := q
          obtain ⟨rfl, hb⟩ := h
          cases removed with
          | none => exact .ok ⟨rfl, fun h => absurd rfl h⟩
          | some val =>
              dsimp only
              rw [pruneEmpty_none, pruneEmpty_none]
              exact .ok ⟨rfl, fun h => (hb h).trimNode _⟩

theorem AlikeBody.remove :
  ∀ {b b' : Body}, AlikeBody b b' →
    Both (Option.Rel (RemoveAlike AlikeBody)) (removeBody key b) (removeBody key b')
  | .edge c, .edge _, .edge hc => by
      rw [removeBody, removeBody, hc.isAbsent]
      by_cases habsent : c.isAbsent
      · rw [if_pos habsent, if_pos habsent]
        exact .ok .none
      · rw [if_neg habsent, if_neg habsent]
        exact hc.remove.bind fun _ _ h => .ok (.some ⟨h.1, fun hne => .edge (h.2 hne)⟩)
  | .entry c k _ _, .entry _ _ _ _, .entry hc hrest => by
      rw [removeBody, removeBody, hc.isAbsent]
      by_cases heq : key = k
      · rw [if_pos heq, if_pos heq]
        exact (hc.merge hrest.first).bind fun _ _ h =>
          .ok (.some ⟨rfl, fun _ => hrest.setFirst h⟩)
      · rw [if_neg heq, if_neg heq]
        by_cases hk : key < k
        · rw [if_pos hk, if_pos hk]
          by_cases habsent : c.isAbsent
          · rw [if_pos habsent, if_pos habsent]
            exact .ok .none
          · rw [if_neg habsent, if_neg habsent]
            exact hc.remove.bind fun _ _ h => .ok (.some ⟨h.1, fun hne => .entry (h.2 hne) hrest⟩)
        · rw [if_neg hk, if_neg hk]
          refine hrest.remove.bind fun x x' h => ?_
          cases h with
          | none => exact .ok .none
          | some h => exact .ok (.some ⟨h.1, fun hne => .entry hc (h.2 hne)⟩)

end

end Write

theorem Alike.trim {c c' : Child} (h : Alike c c') :
  ChangeAlike Alike (trimTop c) (trimTop c')
  := by
  induction c using trimTop.induct generalizing c' with
  | case1 =>
      cases h
      exact .ok .absent
  | case2 cid =>
      cases h
      rw [trimTop, if_pos rfl]
      exact .ok .stub
  | case3 cid height hheight =>
      cases h
      rw [trimTop, if_neg hheight]
      exact .error
  | case4 cid height c ih =>
      cases h with
      | node hbody hlink =>
          cases hbody with
          | edge hc =>
              rw [trimTop, trimTop]
              exact (ih hc).bind fun _ _ h => .ok h
  | case5 cid height c k v rest =>
      cases h with
      | node hbody hlink =>
          cases hbody with
          | entry hc hrest => exact .ok (.node (.entry hc hrest) hlink)

/-- A key that a search finds is removed from alike trees alike. -/
theorem Alike.removeFromRoot {key : Key} {val : Cid} {c c' : Child} (h : Alike c c')
    (hfind : c.find key = .inl (some val)) :
  Both (fun p q => p.2.1 = q.2.1 ∧ Alike p.1 q.1) (removeFromRoot c key) (removeFromRoot c' key)
  := by
  rw [Mst.removeFromRoot, Mst.removeFromRoot]
  refine h.remove.of_eq.bind fun p q hpq => ?_
  obtain ⟨⟨heq, hroot⟩, hremove⟩ := hpq
  have hfound : p.2.1 ≠ none := by
    rw [removeNode_found hfind hremove]
    simp
  exact (hroot hfound).trim.bind fun _ _ h => .ok ⟨heq, h⟩

/-! ### Written trees -/

mutual

/-- Written trees that are alike are the same. -/
theorem Alike.eq_of_clean :
  ∀ {c c' : Child}, Alike c c' → c.Clean → c'.Clean → c = c'
  | _, _, .absent, _, _ => rfl
  | _, _, .stub, _, _ => rfl
  | .node (some cid) _ _, .node (some cid') _ _, .node hbody hlink, ⟨_, hb⟩, ⟨_, hb'⟩ => by
      have hcid : cid = cid' := Option.some.inj hlink
      rw [hbody.eq_of_clean hb hb', hcid]
  | .node none _ _, _, _, ⟨hcid, _⟩, _ => absurd rfl hcid
  | .node (some _) _ _, .node none _ _, _, _, ⟨hcid, _⟩ => absurd rfl hcid

theorem AlikeBody.eq_of_clean :
  ∀ {b b' : Body}, AlikeBody b b' → b.Clean → b'.Clean → b = b'
  | _, _, .edge hc, hb, hb' => by rw [hc.eq_of_clean hb hb']
  | _, _, .entry hc hrest, ⟨hb, hbrest⟩, ⟨hb', hbrest'⟩ => by
      rw [hc.eq_of_clean hb hb', hrest.eq_of_clean hbrest hbrest']

end

mutual

/-- A subtree is written with the link that it is said to have then. -/
theorem Write.link :
  ∀ {c c' : Child} {out : List (Cid × Bytes)}, Write c c' out → c'.link = .ok c.writtenLink
  | _, _, _, .absent => rfl
  | _, _, _, .stub => rfl
  | _, _, _, .clean => rfl
  | _, _, _, .node hbody hdata => by
      obtain ⟨hfirst, hlinks⟩ := hbody.links
      rw [encodeNode, hfirst, hlinks] at hdata
      cases hdata
      rfl

theorem WriteBody.links :
  ∀ {b b' : Body} {out : List (Cid × Bytes)}, WriteBody b b' out →
    b'.first.link = .ok b.writtenLinks.1 ∧ b'.links = .ok b.writtenLinks.2
  | _, _, _, .edge hc => ⟨hc.link, rfl⟩
  | _, _, _, .entry hc hrest => by
      obtain ⟨hfirst, hlinks⟩ := hrest.links
      refine ⟨hc.link, ?_⟩
      rw [Body.links, hfirst, hlinks]
      rfl

end

mutual

/-- Writing a tree leaves one that is alike. -/
theorem Write.alike :
  ∀ {c c' : Child} {out : List (Cid × Bytes)}, Write c c' out → Alike c c'
  | _, _, _, .absent => .absent
  | _, _, _, .stub => .stub
  | _, _, _, .clean => Alike.refl _
  | .node none h _, _, _, .node hbody hdata => by
      have hlink := (@Write.node _ h _ _ _ _ hbody hdata).link
      exact .node hbody.alike (Except.ok.inj hlink).symm

theorem WriteBody.alike :
  ∀ {b b' : Body} {out : List (Cid × Bytes)}, WriteBody b b' out → AlikeBody b b'
  | _, _, _, .edge hc => .edge hc.alike
  | _, _, _, .entry hc hrest => .entry hc.alike hrest.alike

end

mutual

/-- A tidy tree is written as a whole. -/
theorem Write.clean_of_tidy :
  ∀ {c c' : Child} {out : List (Cid × Bytes)}, Write c c' out → c.Tidy → c'.Clean
  | _, _, _, .absent, _ => trivial
  | _, _, _, .stub, _ => trivial
  | _, _, _, .clean, ⟨hb, _⟩ => ⟨by simp, hb _ rfl⟩
  | _, _, _, .node hbody _, ⟨_, hb⟩ => ⟨by simp, hbody.clean_of_tidy hb⟩

theorem WriteBody.clean_of_tidy :
  ∀ {b b' : Body} {out : List (Cid × Bytes)}, WriteBody b b' out → b.Tidy → b'.Clean
  | _, _, _, .edge hc, hb => hc.clean_of_tidy hb
  | _, _, _, .entry hc hrest, ⟨hb, hbrest⟩ => ⟨hc.clean_of_tidy hb, hrest.clean_of_tidy hbrest⟩

end

/-! ### Reading -/

theorem Reads.clean {src : BlockSource} {pl : Place} {cid : Cid} {h h' : ℕ} {body : Body}
    (hread : Reads src pl cid h h' body) :
  body.Clean
  := by
  obtain ⟨data, nd, -, -, hpopulate⟩ := hread
  rw [populateNode] at hpopulate
  obtain ⟨ks, hks, hpopulate⟩ := Except.bind_eq_ok.mp hpopulate
  split at hpopulate
  · cases hpopulate
  · cases hpopulate
    exact stubBody_clean _ _ _

mutual

theorem Loads.clean {src : BlockSource} :
  ∀ {pl : Place} {c c' : Child}, Loads src pl c c' → c.Clean → c'.Clean
  | _, _, _, .refl, h => h
  | _, _, _, .read hread hbody, _ => ⟨by simp, hbody.clean hread.clean⟩
  | _, _, _, .node hbody, ⟨hcid, hb⟩ => ⟨hcid, hbody.clean hb⟩

theorem LoadsBody.clean {src : BlockSource} :
  ∀ {pl : Place} {b b' : Body}, LoadsBody src pl b b' → b.Clean → b'.Clean
  | _, _, _, .edge hc, h => hc.clean h
  | _, _, _, .entry hc hrest, ⟨h, hr⟩ => ⟨hc.clean h, hrest.clean hr⟩

end

mutual

/-- Reading keeps a tree tidy. -/
theorem Loads.tidy {src : BlockSource} :
  ∀ {pl : Place} {c c' : Child}, Loads src pl c c' → c.Tidy → c'.Tidy
  | _, _, _, .refl, h => h
  | _, _, _, .read hread hbody, _ =>
      have hclean := hbody.clean hread.clean
      ⟨fun _ _ => hclean, hclean.tidy⟩
  | _, _, _, .node hbody, ⟨hcid, hb⟩ => ⟨fun x hx => hbody.clean (hcid x hx), hbody.tidy hb⟩

theorem LoadsBody.tidy {src : BlockSource} :
  ∀ {pl : Place} {b b' : Body}, LoadsBody src pl b b' → b.Tidy → b'.Tidy
  | _, _, _, .edge hc, h => hc.tidy h
  | _, _, _, .entry hc hrest, ⟨h, hr⟩ => ⟨hc.tidy h, hrest.tidy hr⟩

end

end Shrike.Mst
