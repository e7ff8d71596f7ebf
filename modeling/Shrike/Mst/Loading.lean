import Shrike.Mst.Contents
import Mathlib.Data.List.Count

/-!
# What traversals do

A traversal only reads stubs: the tree it leaves is the tree it was given with some stubs
replaced by the nodes their blocks decode to, each in its place. The counts of links stay
those of the CIDs that the nodes in memory carry.
-/

namespace Shrike.Mst

open Holed

/-! ### The CIDs nodes carry -/

mutual

/-- The CIDs that the nodes of a subtree carry. -/
def Child.cids : Child → List Cid
  | .absent => []
  | .stub cid _ => [cid]
  | .node cid _ body => cid.toList ++ body.cids

/-- The CIDs that the nodes in the contents of a node carry. -/
def Body.cids : Body → List Cid
  | .edge c => c.cids
  | .entry c _ _ rest => c.cids ++ rest.cids

end

/-- The CIDs in a node are those in one of its subtrees and others, which replacing the
subtree keeps. -/
theorem Body.cids_childAt (pl : Place) :
  ∀ (b : Body) (i : ℕ), ∃ m, b.cids.Perm ((b.childAt i pl).1.cids ++ m)
    ∧ ∀ c, (b.setChildAt c i).cids.Perm (c.cids ++ m)
  | .edge _, _ => by
      use []
      simp [Body.cids, childAt, setChildAt]
  | .entry _ _ _ rest, 0 => by
      use rest.cids
      simp [Body.cids, childAt, setChildAt]
  | .entry c k _ rest, i + 1 => by
      obtain ⟨m, hm, hset⟩ := Body.cids_childAt (pl.after k) rest i
      use c.cids ++ m
      constructor
      · apply (hm.append_left c.cids).trans
        apply List.perm_append_comm_assoc
      · intro d
        apply ((hset d).append_left c.cids).trans
        apply List.perm_append_comm_assoc

/-- `refs` counts the CIDs in a list. -/
def Counted (refs : Refs) (l : List Cid) : Prop :=
  ∀ c, refs c = if l.count c = 0 then none else some (l.count c)

variable {l m : List Cid}

theorem Counted.perm {refs : Refs} (h : Counted refs l) (hp : l.Perm m) :
  Counted refs m
  := by
  intro c
  rw [h c, hp.count_eq]

theorem Counted.not_mem {refs : Refs} (h : Counted refs l) {c : Cid} (hc : (refs c).getD 0 = 0) :
  l.count c = 0
  := by
  rw [h c] at hc
  split at hc
  · assumption
  · apply hc

theorem Counted.cons {refs : Refs} (h : Counted refs l) {c : Cid} (hc : l.count c = 0) :
  Counted (Function.update refs c (some 1)) (c :: l)
  := by
  intro x
  rcases eq_or_ne x c with rfl | hx
  · simp [hc]
  · rw [Function.update_of_ne hx, h x, List.count_cons_of_ne (Ne.symm hx)]

theorem forget_counted {refs : Refs} {c : Cid} (h : Counted refs (c :: l)) (hc : l.count c = 0) :
  Counted (forget refs [c]) l
  := by
  intro x
  rcases eq_or_ne x c with rfl | hx
  · simp [forget, hc]
  · rw [forget, if_neg (by simpa using hx), h x, List.count_cons_of_ne (Ne.symm hx)]

theorem forget_cons (refs : Refs) (c : Cid) (cs : List Cid) :
  forget refs (c :: cs) = forget (forget refs cs) [c]
  := by
  funext x
  by_cases hx : x = c <;> simp [forget, hx]

/-- Forgetting the links just counted restores the counts. -/
theorem countLinks_forget :
  ∀ (cs : List Cid) {refs : Refs} {l : List Cid}, Counted refs l →
    Counted (forget (countLinks refs cs).2.2 (countLinks refs cs).2.1) l
  | [], refs, l, h => by
      intro x
      simpa [countLinks, forget] using h x
  | c :: cs, refs, l, h => by
      rw [countLinks]
      split
      · intro x
        simpa [forget] using h x
      · rename_i hc
        have hcount := h.not_mem (Nat.eq_zero_of_not_pos hc)
        have ih := countLinks_forget cs (h.cons hcount)
        rw [forget_cons]
        apply forget_counted ih hcount

/-- Links counted without meeting one that was there already are all counted. -/
theorem countLinks_counted :
  ∀ (cs : List Cid) {refs : Refs} {l : List Cid}, Counted refs l →
    (countLinks refs cs).1 = none → Counted (countLinks refs cs).2.2 (cs ++ l)
  | [], _, _, h, _ => h
  | c :: cs, refs, l, h, hnone => by
      rw [countLinks] at hnone ⊢
      split at hnone
      · cases hnone
      · rename_i hc
        rw [if_neg hc]
        have hcount := h.not_mem (Nat.eq_zero_of_not_pos hc)
        have ih := countLinks_counted cs (h.cons hcount) hnone
        apply ih.perm List.perm_middle

/-! ### Reading a stub -/

theorem stubAt_cids (h : ℕ) (c : Option Cid) :
  (stubAt h c).cids = c.toList
  := by
  cases c with
  | none => rfl
  | some c => rfl

theorem stubBody_cids (h : ℕ) :
  ∀ (es : List EntryData) (left : Option Cid) (ks : List Key), ks.length = es.length →
    (stubBody h left (ks.zip es)).cids = left.toList ++ es.filterMap EntryData.right
  | [], left, [], _ => by
      rw [List.zip_nil_right, stubBody, Body.cids, stubAt_cids, List.filterMap_nil, List.append_nil]
  | ed :: es, left, k :: ks, hlen => by
      have ih := stubBody_cids h es ed.right ks (Nat.succ.inj hlen)
      rw [List.zip_cons_cons, stubBody, Body.cids, stubAt_cids, ih]
      cases hr : ed.right <;> simp [hr]

variable [Hashing]

/-- `Reads src pl cid h h' body`: the block `cid` decodes to a node that fits the place
`pl`, with height `h'` and contents `body` when it was seeded with the height `h`. -/
def Reads (src : BlockSource) (pl : Place) (cid : Cid) (h h' : ℕ) (body : Body) : Prop :=
  ∃ data nd, src cid = .ok (some data) ∧ decodeNodeData data = .ok nd
    ∧ populateNode h nd pl = .ok (h', body)

mutual

/-- `Loads src pl c c'`: the subtree `c'` is `c`, at the place `pl`, with some stubs
read. -/
inductive Loads (src : BlockSource) : Place → Child → Child → Prop
  | refl {pl c} : Loads src pl c c
  | read {pl cid h h' body body'}
      (hread : Reads src pl cid h h' body) (hbody : LoadsBody src pl body body') :
      Loads src pl (.stub cid h) (.node (some cid) h' body')
  | node {pl cid h body body'} (hbody : LoadsBody src pl body body') :
      Loads src pl (.node cid h body) (.node cid h body')

/-- `LoadsBody src pl b b'`: the contents `b'` are `b`, of a node at the place `pl`, with
some stubs read. -/
inductive LoadsBody (src : BlockSource) : Place → Body → Body → Prop
  | edge {pl : Place} {c c'} (hc : Loads src pl.below c c') :
      LoadsBody src pl (.edge c) (.edge c')
  | entry {pl : Place} {c c' k v rest rest'}
      (hc : Loads src (pl.before k).below c c') (hrest : LoadsBody src (pl.after k) rest rest') :
      LoadsBody src pl (.entry c k v rest) (.entry c' k v rest')

end

theorem LoadsBody.refl {src : BlockSource} :
  ∀ {pl : Place} {b : Body}, LoadsBody src pl b b
  | _, .edge _ => .edge .refl
  | _, .entry _ _ _ _ => .entry .refl LoadsBody.refl

mutual

theorem Loads.trans {src : BlockSource} :
  ∀ {pl : Place} {c d e : Child}, Loads src pl c d → Loads src pl d e → Loads src pl c e
  | _, _, _, _, .refl, h => h
  | _, _, _, _, .read hread hbody, .refl => .read hread hbody
  | _, _, _, _, .read hread hbody, .node hbody' => .read hread (hbody.trans hbody')
  | _, _, _, _, .node hbody, .refl => .node hbody
  | _, _, _, _, .node hbody, .node hbody' => .node (hbody.trans hbody')

theorem LoadsBody.trans {src : BlockSource} :
  ∀ {pl : Place} {b d e : Body}, LoadsBody src pl b d → LoadsBody src pl d e → LoadsBody src pl b e
  | _, _, _, _, .edge hc, .edge hc' => .edge (hc.trans hc')
  | _, _, _, _, .entry hc hrest, .entry hc' hrest' => .entry (hc.trans hc') (hrest.trans hrest')

end

/-- `Traversed src pl c refs c' refs'`: a traversal of `c` at the place `pl` leaves `c'`,
and counts the links it has seen. -/
structure Traversed (src : BlockSource) (pl : Place) (c : Child) (refs : Refs) (c' : Child)
    (refs' : Refs) : Prop where
  loads : Loads src pl c c'
  counted : ∀ l, Counted refs (c.cids ++ l) → Counted refs' (c'.cids ++ l)

/-- `TraversedBody src pl b refs b' refs'`: a traversal of the contents `b` of a node at
the place `pl` leaves `b'`, and counts the links it has seen. -/
structure TraversedBody (src : BlockSource) (pl : Place) (b : Body) (refs : Refs) (b' : Body)
    (refs' : Refs) : Prop where
  loads : LoadsBody src pl b b'
  counted : ∀ l, Counted refs (b.cids ++ l) → Counted refs' (b'.cids ++ l)

section Traversed

variable {src : BlockSource} {pl : Place} {refs refs' refs'' : Refs}

variable {b b' body rest rest' lbody rbody : Body} {lpl rpl : Place} {c c' d e : Child}
  {h h' i j lh rh : ℕ}

theorem Traversed.refl :
  Traversed src pl c refs c refs
  where
  loads := .refl
  counted _ h := h

theorem TraversedBody.refl :
  TraversedBody src pl b refs b refs
  where
  loads := .refl
  counted _ h := h

theorem Traversed.trans (h : Traversed src pl c refs d refs')
    (h' : Traversed src pl d refs' e refs'') :
  Traversed src pl c refs e refs''
  where
  loads := h.loads.trans h'.loads
  counted l hl := h'.counted l (h.counted l hl)

theorem TraversedBody.trans {b d e : Body} (h : TraversedBody src pl b refs d refs')
    (h' : TraversedBody src pl d refs' e refs'') :
  TraversedBody src pl b refs e refs''
  where
  loads := h.loads.trans h'.loads
  counted l hl := h'.counted l (h.counted l hl)

theorem Traversed.node {cid : Option Cid} (hb : TraversedBody src pl b refs b' refs') :
  Traversed src pl (.node cid h b) refs (.node cid h b') refs'
  where
  loads := .node hb.loads
  counted l hl := by
    rw [Child.cids, List.append_assoc] at hl ⊢
    have hswap := hl.perm (List.perm_append_comm_assoc _ _ _)
    apply (hb.counted _ hswap).perm (List.perm_append_comm_assoc _ _ _)

theorem TraversedBody.edge (hc : Traversed src pl.below c refs c' refs') :
  TraversedBody src pl (.edge c) refs (.edge c') refs'
  where
  loads := .edge hc.loads
  counted := hc.counted

theorem TraversedBody.entry {k : Key} {v : Cid}
    (hc : Traversed src (pl.before k).below c refs c' refs')
    (hrest : TraversedBody src (pl.after k) rest refs' rest' refs'') :
  TraversedBody src pl (.entry c k v rest) refs (.entry c' k v rest') refs''
  where
  loads := .entry hc.loads hrest.loads
  counted l hl := by
    rw [Body.cids, List.append_assoc] at hl ⊢
    have hswap := (hc.counted _ hl).perm (List.perm_append_comm_assoc _ _ _)
    apply (hrest.counted _ hswap).perm (List.perm_append_comm_assoc _ _ _)

/-- A traversal of one subtree of a node is one of the node. -/
theorem TraversedBody.child :
  ∀ {b : Body} {i : ℕ} {pl : Place} {c' : Child},
    Traversed src (b.childAt i pl).2 (b.childAt i pl).1 refs c' refs' →
    TraversedBody src pl b refs (b.setChildAt c' i) refs'
  | .edge _, _, _, _, h => .edge h
  | .entry _ _ _ _, 0, _, _, h => .entry h .refl
  | .entry _ _ _ _, _ + 1, _, _, h => .entry .refl (TraversedBody.child h)

theorem populateNode_cids {nd : NodeData} (hp : populateNode h nd pl = .ok (h', body)) :
  body.cids = nd.children
  := by
  rw [populateNode] at hp
  obtain ⟨ks, hks, hp⟩ := Except.bind_eq_ok.mp hp
  split at hp
  · cases hp
  · cases hp
    apply stubBody_cids _ _ _ _ (keysFrom_length hks)

theorem load_traversed :
  ∀ n : Child, Traversed src pl n refs (load src refs n pl).2.1 (load src refs n pl).2.2
  | .absent => .refl
  | .node _ _ _ => .refl
  | .stub cid h => by
      rw [load]
      split
      · apply Traversed.refl
      · split
        · apply Traversed.refl
        · apply Traversed.refl
        · rename_i data hsrc
          split
          · apply Traversed.refl
          · rename_i nd hdecode
            split
            · rename_i twice linked refs' hcount
              use .refl
              intro l hl
              have hforget := countLinks_forget nd.children hl
              rw [hcount] at hforget
              apply hforget
            · rename_i linked refs' hcount
              split
              · use .refl
                intro l hl
                have hforget := countLinks_forget nd.children hl
                rw [hcount] at hforget
                apply hforget
              · rename_i h' body hpopulate
                use .read ⟨data, nd, hsrc, hdecode, hpopulate⟩ .refl
                intro l hl
                have hlinks := countLinks_counted nd.children hl (by rw [hcount])
                rw [hcount] at hlinks
                rw [Child.cids, populateNode_cids hpopulate]
                apply hlinks.perm
                apply List.perm_append_comm_assoc

/-- `TraversedPair`: a traversal of two subtrees leaves two subtrees, and counts the links
it has seen. -/
structure TraversedPair (src : BlockSource) (lpl rpl : Place) (l r : Child) (refs : Refs)
    (l' r' : Child) (refs' : Refs) : Prop where
  left : Loads src lpl l l'
  right : Loads src rpl r r'
  counted : ∀ m, Counted refs (l.cids ++ (r.cids ++ m)) → Counted refs' (l'.cids ++ (r'.cids ++ m))

theorem TraversedPair.of_left {l l' r : Child} (h : Traversed src lpl l refs l' refs') :
  TraversedPair src lpl rpl l r refs l' r refs'
  where
  left := h.loads
  right := .refl
  counted m := h.counted (r.cids ++ m)

theorem TraversedPair.of_right {l r r' : Child} (h : Traversed src rpl r refs r' refs') :
  TraversedPair src lpl rpl l r refs l r' refs'
  where
  left := .refl
  right := h.loads
  counted m hm := by
    have hswap := hm.perm (List.perm_append_comm_assoc _ _ _)
    apply (h.counted _ hswap).perm (List.perm_append_comm_assoc _ _ _)

theorem TraversedPair.trans {l l' l'' r r' r'' : Child}
    (h : TraversedPair src lpl rpl l r refs l' r' refs')
    (h' : TraversedPair src lpl rpl l' r' refs' l'' r'' refs'') :
  TraversedPair src lpl rpl l r refs l'' r'' refs''
  where
  left := h.left.trans h'.left
  right := h.right.trans h'.right
  counted m hm := h'.counted m (h.counted m hm)

theorem LoadsBody.child (h : Loads src (b.childAt i pl).2 (b.childAt i pl).1 c') :
  LoadsBody src pl b (b.setChildAt c' i)
  := by
  induction b, i, pl using Body.childAt.induct with
  | case1 pl c i => apply LoadsBody.edge h
  | case2 pl c k v rest => apply LoadsBody.entry h LoadsBody.refl
  | case3 pl c k v rest i ih => apply LoadsBody.entry Loads.refl (ih h)

/-- A traversal of a subtree of each of two nodes is one of the two nodes. -/
theorem TraversedPair.nodes {lcid rcid : Option Cid} {l r : Child}
    (h : TraversedPair src (lbody.childAt i lpl).2 (rbody.childAt j rpl).2
      (lbody.childAt i lpl).1 (rbody.childAt j rpl).1 refs l r refs') :
  TraversedPair src lpl rpl (.node lcid lh lbody) (.node rcid rh rbody) refs
    (.node lcid lh (lbody.setChildAt l i)) (.node rcid rh (rbody.setChildAt r j)) refs'
  where
  left := .node (.child h.left)
  right := .node (.child h.right)
  counted m hm := by
    obtain ⟨lo, hlo, hlset⟩ := lbody.cids_childAt lpl i
    obtain ⟨ro, hro, hrset⟩ := rbody.cids_childAt rpl j
    have hpair := h.counted (lcid.toList ++ lo ++ rcid.toList ++ ro ++ m) (hm.perm (by
      rw [List.perm_iff_count]
      intro x
      have hl := hlo.count_eq x
      have hr := hro.count_eq x
      simp only [Child.cids, List.count_append] at hl hr ⊢
      omega))
    apply hpair.perm
    rw [List.perm_iff_count]
    intro x
    have hl := (hlset l).count_eq x
    have hr := (hrset r).count_eq x
    simp only [Child.cids, List.count_append] at hl hr ⊢
    omega

/-- A traversal of two neighbouring subtrees of a node is one of the node. -/
theorem TraversedBody.pair :
  ∀ {b : Body} {i : ℕ} {pl : Place} {l r : Child}, i < b.size →
    TraversedPair src (b.childAt i pl).2 (b.childAt (i + 1) pl).2 (b.childAt i pl).1
      (b.childAt (i + 1) pl).1 refs l r refs' →
    TraversedBody src pl b refs ((b.setChildAt l i).setChildAt r (i + 1)) refs'
  | .edge _, _, _, _, _, hi, _ => absurd hi (Nat.not_lt_zero _)
  | .entry c k v rest, 0, pl, l, r, _, h => by
      constructor
      · apply LoadsBody.entry h.left (LoadsBody.child h.right)
      · intro m hm
        obtain ⟨others, hothers, hset⟩ := rest.cids_childAt (pl.after k) 0
        rw [Body.cids, List.append_assoc] at hm
        have hrest := (hothers.append_right m).trans (.of_eq (List.append_assoc _ _ _))
        have hpair := h.counted _ (hm.perm (hrest.append_left c.cids))
        rw [← List.append_assoc r.cids] at hpair
        have hafter := hpair.perm (((hset r).symm.append_right m).append_left l.cids)
        rw [← List.append_assoc] at hafter
        apply hafter
  | .entry c k v rest, i + 1, pl, l, r, hi, h =>
      .entry .refl (TraversedBody.pair (Nat.lt_of_succ_lt_succ hi) h)

end Traversed

/-! ### The traversals -/

section Traversals

variable (src : BlockSource)

theorem ensureLoaded_traversed (refs : Refs) (n : Child) (pl : Place) :
  Traversed src pl n refs (ensureLoaded src refs n pl).2.1 (ensureLoaded src refs n pl).2.2
  := by
  have hload := @load_traversed _ src pl refs n
  rw [ensureLoaded]
  split <;> (rename_i heq; rw [heq] at hload; apply hload)

theorem visitRootChain_traversed :
  ∀ (fuel : ℕ) (refs : Refs) (n : Child) (pl : Place) (chain : Bool),
    Traversed src pl n refs (visitRootChain src fuel refs n pl chain).2.1
      (visitRootChain src fuel refs n pl chain).2.2
  | 0, _, _, _, _ => .refl
  | fuel + 1, refs, n, pl, chain => by
      have hload := @load_traversed _ src pl refs n
      rw [visitRootChain]
      split
      · apply Traversed.refl
      · split
        · rename_i heq
          rw [heq] at hload
          apply hload
        · rename_i heq
          rw [heq] at hload
          apply hload
        · rename_i refs' heq
          rw [heq] at hload
          dsimp only
          split
          · apply hload
          · apply hload.trans
            apply Traversed.node
            apply TraversedBody.child
            apply visitRootChain_traversed fuel
        · rename_i heq
          rw [heq] at hload
          apply hload

theorem visitMerge_traversed :
  ∀ (fuel : ℕ) (refs : Refs) (l r : Child × Place) (chain : Bool),
    TraversedPair src l.2 r.2 l.1 r.1 refs (visitMerge src fuel refs l r chain).2.1
      (visitMerge src fuel refs l r chain).2.2.1 (visitMerge src fuel refs l r chain).2.2.2
  | 0, _, _, _, _ => .of_left .refl
  | fuel + 1, refs, (l, lpl), (r, rpl), chain => by
      rw [visitMerge]
      split
      · apply TraversedPair.of_left (visitRootChain_traversed src (fuel + 1) refs l lpl chain)
      · split
        · apply TraversedPair.of_right (visitRootChain_traversed src (fuel + 1) refs r rpl chain)
        · have hl := @load_traversed _ src lpl refs l
          split
          · rename_i heq
            rw [heq] at hl
            apply TraversedPair.of_left hl
          · rename_i refs1 heq
            rw [heq] at hl
            have hr := @load_traversed _ src rpl refs1 r
            split
            · rename_i heq'
              rw [heq'] at hr
              apply (TraversedPair.of_left hl).trans (TraversedPair.of_right hr)
            · rename_i heq'
              rw [heq'] at hr
              have hpair : TraversedPair src lpl rpl l r refs _ _ _ :=
                (TraversedPair.of_left hl).trans (TraversedPair.of_right hr)
              split
              · apply hpair.trans
                apply TraversedPair.nodes
                apply visitMerge_traversed fuel
              · apply hpair

theorem visitKeyPath_traversed (key : Key) (visit : Visit) :
  ∀ (fuel : ℕ) (refs : Refs) (n : Child) (top : Bool) (pl : Place),
    Traversed src pl n refs (visitKeyPath src key visit fuel refs n top pl).2.1
      (visitKeyPath src key visit fuel refs n top pl).2.2
  | 0, _, _, _, _ => .refl
  | fuel + 1, refs, n, top, pl => by
      have hload := @load_traversed _ src pl refs n
      rw [visitKeyPath]
      split
      · rename_i heq
        rw [heq] at hload
        apply hload
      · rename_i heq
        rw [heq] at hload
        apply hload
      · rename_i heq
        rw [heq] at hload
        split
        · apply hload
        · rename_i hsearch
          apply hload.trans
          apply Traversed.node
          apply TraversedBody.pair (Body.search_lt hsearch)
          apply visitMerge_traversed src fuel
        · dsimp only
          split
          · apply hload
          · apply hload.trans
            apply Traversed.node
            apply TraversedBody.child
            apply visitKeyPath_traversed key _ fuel
      · rename_i heq
        rw [heq] at hload
        apply hload

theorem getNode_traversed (key : Key) :
  ∀ (fuel : ℕ) (refs : Refs) (n : Child) (pl : Place),
    Traversed src pl n refs (getNode src key fuel refs n pl).2.1
      (getNode src key fuel refs n pl).2.2
  | 0, _, _, _ => .refl
  | fuel + 1, refs, n, pl => by
      have hload := ensureLoaded_traversed src refs n pl
      rw [getNode]
      split
      · rename_i heq
        rw [heq] at hload
        apply hload
      · rename_i heq
        rw [heq] at hload
        split
        · apply hload
        · dsimp only
          split
          · apply hload
          · apply hload.trans
            apply Traversed.node
            apply TraversedBody.child
            apply getNode_traversed key fuel
      · rename_i heq
        rw [heq] at hload
        apply hload

section Walk

variable {σ : Type} (f : σ → Key → Cid → Except MstError σ)

theorem walkBody_traversed
    {walk : σ → Refs → Child → Place → Except MstError σ × Child × Refs}
    (hwalk : ∀ s refs n pl,
      Traversed src pl n refs (walk s refs n pl).2.1 (walk s refs n pl).2.2) :
  ∀ (s : σ) (refs : Refs) (b : Body) (pl : Place),
    TraversedBody src pl b refs (walkBody f walk s refs b pl).2.1 (walkBody f walk s refs b pl).2.2
  | s, refs, .edge c, pl => .edge (hwalk s refs c pl.below)
  | s, refs, .entry c k v rest, pl => by
      have hc := hwalk s refs c (pl.before k).below
      rw [walkBody]
      split
      · rename_i heq
        rw [heq] at hc
        apply TraversedBody.entry hc .refl
      · rename_i heq
        rw [heq] at hc
        split
        · apply TraversedBody.entry hc .refl
        · apply TraversedBody.entry hc
          apply walkBody_traversed hwalk

theorem walkNode_traversed :
  ∀ (fuel : ℕ) (s : σ) (refs : Refs) (n : Child) (pl : Place),
    Traversed src pl n refs (walkNode src f fuel s refs n pl).2.1
      (walkNode src f fuel s refs n pl).2.2
  | 0, _, _, _, _ => .refl
  | fuel + 1, s, refs, n, pl => by
      have hload := ensureLoaded_traversed src refs n pl
      rw [walkNode]
      split
      · rename_i heq
        rw [heq] at hload
        apply hload
      · rename_i heq
        rw [heq] at hload
        apply hload.trans
        apply Traversed.node
        apply walkBody_traversed src f (walkNode_traversed fuel)
      · rename_i heq
        rw [heq] at hload
        apply hload

theorem walkReachableNode_traversed :
  ∀ (fuel : ℕ) (s : σ) (refs : Refs) (n : Child) (pl : Place),
    Traversed src pl n refs (walkReachableNode src f fuel s refs n pl).2.1
      (walkReachableNode src f fuel s refs n pl).2.2
  | 0, _, _, _, _ => .refl
  | fuel + 1, s, refs, n, pl => by
      have hload := @load_traversed _ src pl refs n
      rw [walkReachableNode]
      split
      · rename_i heq
        rw [heq] at hload
        apply hload
      · rename_i heq
        rw [heq] at hload
        apply hload.trans
        apply Traversed.node
        apply walkBody_traversed src f (walkReachableNode_traversed fuel)
      · rename_i heq
        rw [heq] at hload
        apply hload

end Walk

theorem visitKeys_traversed (visit : Visit) :
  ∀ (keys : List Key) (refs : Refs) (root : Child),
    Traversed src .root root refs (DetachedTree.visitKeys src visit keys refs root).2.1
      (DetachedTree.visitKeys src visit keys refs root).2.2
  | [], _, _ => .refl
  | key :: keys, refs, root => by
      have hkey := visitKeyPath_traversed src key visit root.reach refs root true .root
      rw [DetachedTree.visitKeys]
      split
      · rename_i heq
        rw [heq] at hkey
        apply hkey
      · rename_i root' refs' heq
        rw [heq] at hkey
        have ih := visitKeys_traversed visit keys refs' root'
        split
        · rename_i heq'
          rw [heq'] at ih
          apply hkey.trans ih
        · rename_i heq'
          rw [heq'] at ih
          apply hkey.trans ih

end Traversals

end Shrike.Mst
