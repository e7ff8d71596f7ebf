import Shrike.Mst.Reachable

/-!
# Trees read from some of their blocks

A tree that loads completely from a store answers every lookup. A lookup that succeeds over
some of the blocks of the tree finds what a lookup over all of them finds, and the entries that
a walk over some of the blocks reaches are entries of the tree.
-/

namespace Shrike.Mst

open Holed Except

/-- The source of the blocks of a store. -/
def Blocks.source (store : Blocks) : BlockSource := fun cid => .ok (store cid)

/-- More blocks can be read from `src'` than from `src`. -/
def Within (src src' : BlockSource) : Prop :=
  ∀ cid data, src cid = .ok (some data) → src' cid = .ok (some data)

/-- A block that is read holds the same items in a larger source. -/
theorem Within.blockItems {src src' : BlockSource} (h : Within src src') (cid : Cid)
    (l : List Item) (hl : blockItems src cid = some l) :
  Mst.blockItems src' cid = some l
  := by
  rw [Mst.blockItems] at hl ⊢
  split at hl
  · rename_i data hsrc
    rw [h cid data hsrc]
    apply hl
  · cases hl

theorem stubAt_depth (h : ℕ) (c : Option Cid) :
  (stubAt h c).depth = 0
  := by
  cases c with
  | none => rfl
  | some c => rfl

theorem stubBody_depth (h : ℕ) :
  ∀ (es : List (Key × EntryData)) (left : Option Cid), (stubBody h left es).depth = 0
  | [], left => stubAt_depth h left
  | (_, ed) :: es, left => by
      rw [stubBody, Body.depth, stubAt_depth, stubBody_depth h es ed.right, max_self]

/-! ### Complete loading -/

section Expands

variable [Hashing] (src : BlockSource)

mutual

/-- `Expands src pl c c'`: the unread subtree `c`, at the place `pl`, reads completely, as
`c'`. -/
inductive Expands : Place → Child → Child → Prop
  | absent {pl} : Expands pl .absent .absent
  | read {pl : Place} {cid h h' body body'} (hdepth : pl.depth ≤ maxLevels)
      (hread : Reads src pl cid h h' body) (hbody : ExpandsBody pl body body') :
      Expands pl (.stub cid h) (.node (some cid) h' body')

/-- `ExpandsBody src pl b b'`: the subtrees of the contents `b` of a node at the place `pl`
read completely, and leave `b'`. -/
inductive ExpandsBody : Place → Body → Body → Prop
  | edge {pl : Place} {c c'} (hc : Expands pl.below c c') :
      ExpandsBody pl (.edge c) (.edge c')
  | entry {pl : Place} {c c' k v rest rest'}
      (hc : Expands (pl.before k).below c c') (hrest : ExpandsBody (pl.after k) rest rest') :
      ExpandsBody pl (.entry c k v rest) (.entry c' k v rest')

end

variable {src}

mutual

/-- The CIDs of an unread subtree are among those it reads as. -/
theorem Expands.cids_sublist :
  ∀ {pl : Place} {c c' : Child}, Expands src pl c c' → c.cids.Sublist c'.cids
  | _, _, _, .absent => .slnil
  | _, _, _, .read _ _ _ => List.singleton_sublist.mpr List.mem_cons_self

theorem ExpandsBody.cids_sublist :
  ∀ {pl : Place} {b b' : Body}, ExpandsBody src pl b b' → b.cids.Sublist b'.cids
  | _, _, _, .edge hc => hc.cids_sublist
  | _, _, _, .entry hc hrest => hc.cids_sublist.append hrest.cids_sublist

end

variable {pl : Place}

/-- The CIDs of contents and of what they read as are those of one subtree and of what it
reads as, and others. -/
theorem ExpandsBody.childAt {b b' : Body} (h : ExpandsBody src pl b b') (i : ℕ) :
  ∃ c' m m', Expands src (b.childAt i pl).2 (b.childAt i pl).1 c'
    ∧ b.cids.Perm ((b.childAt i pl).1.cids ++ m) ∧ b'.cids.Perm (c'.cids ++ m')
    ∧ m.Sublist m'
  := by
  induction b using Body.spine generalizing pl b' i with
  | edge c =>
      cases h with
      | @edge _ _ c' hc =>
          exact ⟨c', [], [], hc, by simp [Body.cids, Body.childAt], by simp [Body.cids], .slnil⟩
  | entry c k v rest ih =>
      cases h with
      | @entry _ _ c' _ _ _ rest' hc hrest =>
          cases i with
          | zero => exact ⟨c', rest.cids, rest'.cids, hc, .refl _, .refl _, hrest.cids_sublist⟩
          | succ i =>
              obtain ⟨d, m, m', hd, hm, hm', hsub⟩ := ih hrest i
              refine ⟨d, c.cids ++ m, c'.cids ++ m', hd, ?_, ?_, hc.cids_sublist.append hsub⟩
              · apply (hm.append_left c.cids).trans
                apply List.perm_append_comm_assoc
              · apply (hm'.append_left c'.cids).trans
                apply List.perm_append_comm_assoc

/-- A stub is read, where its place is not too deep and nothing below it is counted. -/
theorem Reads.load_ok {cid : Cid} {h h' : ℕ} {body : Body} {refs : Refs}
    (hread : Reads src pl cid h h' body) (hdepth : pl.depth ≤ maxLevels)
    (hfresh : ∀ x ∈ body.cids, refs x = none) (hnodup : body.cids.Nodup) :
  ∃ refs', load src refs (.stub cid h) pl = (.ok none, .node (some cid) h' body, refs')
  := by
  obtain ⟨data, nd, hsrc, hdecode, hpopulate⟩ := hread
  rw [populateNode_cids hpopulate] at hfresh hnodup
  have hcount := countLinks_ok hfresh hnodup
  rcases hlinks : countLinks refs nd.children with ⟨twice, linked, refs'⟩
  rw [hlinks] at hcount
  obtain rfl : twice = none := hcount
  use refs'
  rw [load, if_neg (Nat.not_lt.mpr hdepth), hsrc]
  simp only [hdecode, hlinks, hpopulate]

/-- A lookup below an unread node that reads completely succeeds, if no CID is carried twice. -/
theorem Expands.getNode_ok {key : Key} :
  ∀ {fuel : ℕ} {refs : Refs} {pl : Place} {c c' : Child} {l : List Cid}, Expands src pl c c' →
    c ≠ .absent → Counted refs (c.cids ++ l) → (c'.cids ++ l).Nodup →
    maxLevels + 2 ≤ pl.depth + fuel →
    ∃ a n refs', getNode src key fuel refs c pl = (.ok a, n, refs')
  | _, _, _, _, _, _, .absent, hne, _, _, _ => absurd rfl hne
  | 0, _, _, _, _, _, .read hdepth _ _, _, _, _, hfuel => by omega
  | fuel + 1, refs, pl, .stub cid h, .node _ h' body', l, @Expands.read _ _ _ _ _ _ body _
      hdepth hread hbody, _, hcounted, hnodup, hfuel => by
      have hsub := ((hbody.cids_sublist.cons_cons cid).append_right l)
      have hbelow := hnodup.sublist hsub
      rw [List.cons_append, List.nodup_cons, List.nodup_append] at hbelow
      obtain ⟨hcid, hnodupBody, -, hdisjoint⟩ := hbelow
      obtain ⟨refs₁, hload⟩ := @Reads.load_ok _ _ _ _ _ _ _ refs hread hdepth (by
        intro x hx
        rw [hcounted x, if_pos]
        apply List.count_eq_zero_of_not_mem
        simp only [Child.cids, List.singleton_append, List.mem_cons, not_or]
        constructor
        · rintro rfl
          exact hcid (List.mem_append_left _ hx)
        · intro hl
          exact hdisjoint x hx x hl rfl) hnodupBody
      have htraversed := @load_traversed _ src pl refs (.stub cid h)
      rw [hload] at htraversed
      have hcounted₁ := htraversed.counted l hcounted
      rw [getNode, ensureLoaded, hload]
      dsimp only
      split
      · exact ⟨_, _, _, rfl⟩
      · rename_i i _
        split
        · exact ⟨_, _, _, rfl⟩
        · rename_i hchild
          obtain ⟨d, m, m', hd, hm, hm', hsub'⟩ := hbody.childAt i
          obtain ⟨a, n, refs₂, hget⟩ := (@Expands.getNode_ok _ fuel refs₁ _ _ _
            (cid :: m ++ l)) hd (mt Child.isAbsent_iff.mpr hchild)
            (hcounted₁.perm (by
              rw [List.perm_iff_count]
              intro x
              have hx := hm.count_eq x
              simp only [Child.cids, Option.toList_some, List.count_append, List.count_cons,
                List.count_nil] at hx ⊢
              omega))
            (by
              have hperm : ((Child.node (some cid) h' body').cids ++ l).Perm
                  (d.cids ++ (cid :: m' ++ l)) := by
                rw [List.perm_iff_count]
                intro x
                have hx := hm'.count_eq x
                simp only [Child.cids, Option.toList_some, List.count_append, List.count_cons,
                  List.count_nil] at hx ⊢
                omega
              have hrest := (hsub'.cons_cons cid).append_right l
              apply (hperm.nodup_iff.mp hnodup).sublist (hrest.append_left d.cids))
            (by
              rw [Body.childAt_depth]
              omega)
          rw [hget]
          exact ⟨_, _, _, rfl⟩

/-! ### Complete walks -/

omit [Hashing] in
/-- No link is counted twice. -/
theorem countLinks_nodup :
  ∀ {cs : List Cid} {refs : Refs} {l : List Cid}, (countLinks refs cs).1 = none →
    Counted refs l → l.Nodup → (cs ++ l).Nodup
  | [], _, _, _, _, hl => hl
  | c :: cs, refs, l, hnone, hcounted, hl => by
      rw [countLinks] at hnone
      split at hnone
      · cases hnone
      · rename_i hc
        have hcount := hcounted.not_mem (Nat.eq_zero_of_not_pos hc)
        have hcons : (c :: l).Nodup :=
          List.nodup_cons.mpr ⟨List.count_eq_zero.mp hcount, hl⟩
        have ih := countLinks_nodup hnone (hcounted.cons hcount) hcons
        apply List.perm_middle.nodup_iff.mp ih

variable (src) in
/-- `Expanded src pl c refs c' refs'`: the unread subtree `c` was read completely, as `c'`, and
no link was met twice. -/
structure Expanded (pl : Place) (c : Child) (refs : Refs) (c' : Child) (refs' : Refs) : Prop where
  expands : Expands src pl c c'
  traversed : Traversed src pl c refs c' refs'
  nodup : ∀ l, Counted refs (c.cids ++ l) → (c.cids ++ l).Nodup → (c'.cids ++ l).Nodup

variable (src) in
/-- `ExpandedBody src pl b refs b' refs'`: the subtrees of the contents `b` were read completely,
and no link was met twice. -/
structure ExpandedBody (pl : Place) (b : Body) (refs : Refs) (b' : Body) (refs' : Refs) :
    Prop where
  expands : ExpandsBody src pl b b'
  traversed : TraversedBody src pl b refs b' refs'
  nodup : ∀ l, Counted refs (b.cids ++ l) → (b.cids ++ l).Nodup → (b'.cids ++ l).Nodup

/-- What reading a stub does. -/
theorem load_stub_ok {cid : Cid} {h : ℕ} {refs refs' : Refs} {n : Child}
    (hload : load src refs (.stub cid h) pl = (.ok none, n, refs')) :
  ∃ h' body, n = .node (some cid) h' body ∧ body.depth = 0 ∧ pl.depth ≤ maxLevels
    ∧ Reads src pl cid h h' body
    ∧ ∀ l, Counted refs l → l.Nodup → (body.cids ++ l).Nodup
  := by
  rw [load] at hload
  split at hload
  · cases hload
  · rename_i hdepth
    split at hload
    · cases hload
    · cases hload
    · rename_i data hsrc
      split at hload
      · cases hload
      · rename_i nd hdecode
        split at hload
        · cases hload
        · rename_i linked refs₁ hcount
          split at hload
          · cases hload
          · rename_i h' body hpopulate
            cases hload
            refine ⟨h', body, rfl, ?_, Nat.not_lt.mp hdepth, ⟨data, nd, hsrc, hdecode, hpopulate⟩,
              ?_⟩
            · obtain ⟨ks, -, rfl, -⟩ := populateNode_ok hpopulate
              apply stubBody_depth
            · intro l hl hnodup
              rw [populateNode_cids hpopulate]
              apply countLinks_nodup (by rw [hcount]) hl hnodup

section Walk

variable {σ : Type} {f : σ → Key → Cid → Except MstError σ}

theorem walkBody_expanded
    {walk : σ → Refs → Child → Place → Except MstError σ × Child × Refs}
    (hwalk : ∀ {s s' refs refs' n n' pl}, n.depth = 0 → walk s refs n pl = (.ok s', n', refs') →
      Expanded src pl n refs n' refs') :
  ∀ {s s' : σ} {refs refs' : Refs} {b b' : Body} {pl : Place}, b.depth = 0 →
    walkBody f walk s refs b pl = (.ok s', b', refs') → ExpandedBody src pl b refs b' refs'
  | s, s', refs, refs', .edge c, b', pl, hb, heq => by
      rw [walkBody] at heq
      rcases hc : walk s refs c pl.below with ⟨r, c', refs₁⟩
      rw [hc] at heq
      cases heq
      have h := hwalk hb hc
      exact ⟨.edge h.expands, .edge h.traversed, h.nodup⟩
  | s, s', refs, refs', .entry c k v rest, b', pl, hb, heq => by
      obtain ⟨hdepth, hdepth'⟩ := Nat.max_eq_zero_iff.mp hb
      rw [walkBody] at heq
      split at heq
      · cases heq
      · rename_i s₁ c' refs₁ hc
        have hchild := hwalk hdepth hc
        split at heq
        · cases heq
        · rename_i s₂ hentry
          rcases hwalkRest : walkBody f walk s₂ refs₁ rest (pl.after k) with ⟨r, rest', refs₂⟩
          rw [hwalkRest] at heq
          cases heq
          have hrest := walkBody_expanded hwalk hdepth' hwalkRest
          constructor
          · exact .entry hchild.expands hrest.expands
          · exact .entry hchild.traversed hrest.traversed
          · intro l hl hnodup
            rw [Body.cids, List.append_assoc] at hl hnodup ⊢
            have hswap := List.perm_append_comm_assoc c'.cids rest.cids l
            have hl' := (hchild.traversed.counted _ hl).perm hswap
            have hnodup' := hswap.nodup_iff.mp (hchild.nodup _ hl hnodup)
            apply (List.perm_append_comm_assoc c'.cids rest'.cids l).nodup_iff.mpr
            apply hrest.nodup _ hl' hnodup'

/-- A walk that succeeds has read the whole of an unread subtree. -/
theorem walkNode_expanded :
  ∀ {fuel : ℕ} {s s' : σ} {refs refs' : Refs} {n n' : Child} {pl : Place}, n.depth = 0 →
    walkNode src f fuel s refs n pl = (.ok s', n', refs') → Expanded src pl n refs n' refs'
  | 0, _, _, _, _, _, _, _, _, heq => by cases heq
  | _ + 1, _, _, _, _, .node _ _ _, _, _, hn, _ => absurd hn (Nat.succ_ne_zero _)
  | _ + 1, _, _, _, _, .absent, _, _, _, heq => by
      cases heq
      exact ⟨.absent, .refl, fun _ _ h => h⟩
  | fuel + 1, s, s', refs, refs', .stub cid h, n', pl, _, heq => by
      have htraversed := walkNode_traversed src f (fuel + 1) s refs (.stub cid h) pl
      rw [heq] at htraversed
      rw [walkNode, ensureLoaded] at heq
      rcases hload : load src refs (.stub cid h) pl with ⟨r, n, refs₁⟩
      rw [hload] at heq
      rcases r with e | x | x
      · cases heq
      · obtain ⟨h', body, rfl, hbody, hdepth, hread, hnodup⟩ := load_stub_ok hload
        dsimp only at heq
        rcases hwalk : walkBody f (walkNode src f fuel) s refs₁ body pl with ⟨r, body', refs₂⟩
        rw [hwalk] at heq
        cases heq
        have hexpanded := walkBody_expanded walkNode_expanded hbody hwalk
        refine ⟨.read hdepth hread hexpanded.expands, htraversed, ?_⟩
        intro l hl hnodup'
        have hloaded := @load_traversed _ src pl refs (.stub cid h)
        rw [hload] at hloaded
        have hl' := hloaded.counted l hl
        have hswap := List.perm_append_comm_assoc [cid] body.cids l
        apply (List.perm_append_comm_assoc [cid] body'.cids l).nodup_iff.mpr
        apply hexpanded.nodup _ (hl'.perm (by simpa [Child.cids] using hswap))
        apply hnodup _ hl hnodup'
      · cases heq

end Walk

end Expands

/-! ### Walks over the blocks at hand -/

section Reach

variable {f : List (Key × Cid) → Key → Cid → Except MstError (List (Key × Cid))}

variable [Hashing] {src : BlockSource}

/-- A walk over the blocks at hand records only entries of nodes it has read. -/
theorem walkReachableNode_reached (hf : ∀ {s k v s'}, f s k v = .ok s' → s' = s ++ [(k, v)]) :
  ∀ {fuel : ℕ} {s s' : List (Key × Cid)} {refs refs' : Refs} {n n' : Child} {pl : Place},
    walkReachableNode src f fuel s refs n pl = (.ok s', n', refs') →
    ∃ l, (∀ e ∈ l, .entry e.1 e.2 ∈ n'.items) ∧ s' = s ++ l
  | 0, _, _, _, _, _, _, _, heq => by cases heq
  | fuel + 1, s, s', refs, refs', n, n', pl, heq => by
      rw [walkReachableNode] at heq
      split at heq
      · cases heq
      · rename_i cid h body refs₁ hload
        rcases hbody : walkBody f (walkReachableNode src f fuel) s refs₁ body pl
          with ⟨r, body', refs₂⟩
        rw [hbody] at heq
        cases heq
        apply walkBody_records (Q := fun b l => ∀ e ∈ l, .entry e.1 e.2 ∈ b.items) hf
          (walkReachableNode_reached hf) id _ hbody
        intro c k v rest l m hl hm e he
        simp only [Body.items, List.mem_append, List.mem_cons] at he ⊢
        rcases he with he | rfl | he
        · exact .inl (hl e he)
        · exact .inr (.inl rfl)
        · exact .inr (.inr (hm e he))
      · cases heq
        use []
        simp

/-- What a walk over the blocks at hand records. -/
theorem DetachedTree.walkReachable_entries {t t' : DetachedTree} {l : List (Key × Cid)}
    (h : t.walkReachable src (fun result key val => .ok (result ++ [(key, val)])) []
      = (.ok l, t')) :
  Loads src .root t.root t'.root ∧ ∀ e ∈ l, .entry e.1 e.2 ∈ t'.root.items
  := by
  rw [walkReachable] at h
  split at h
  · cases h
  · split at h
    · cases h
      use .refl
      simp
    · have hload := ensureLoaded_traversed src t.refs t.root .root
      split at h
      · cases h
      · rename_i root refs heq
        rw [heq] at hload
        have hwalk := walkReachableNode_traversed src
          (fun (result : List (Key × Cid)) key val => .ok (result ++ [(key, val)])) root.reach []
          refs root .root
        rcases hnode : walkReachableNode src
          (fun (result : List (Key × Cid)) key val => .ok (result ++ [(key, val)])) root.reach []
          refs root .root with ⟨r, root', refs'⟩
        rw [hnode] at h hwalk
        cases h
        use hload.loads.trans hwalk.loads
        obtain ⟨l', hmem, hl⟩ := walkReachableNode_reached (by
          intro s k v s' hs
          cases hs
          rfl) hnode
        rw [List.nil_append] at hl
        rw [hl]
        apply hmem

end Reach

section Store

variable [Hashing] {store blocks : Blocks} {root : Cid} {items : List (Key × Cid)}

omit [Hashing] in
theorem ordered_hole (root : Cid) :
  Ordered .root (DetachedTree.load root).root.items
  where
  sorted := List.Pairwise.nil
  admitted k hk := by cases hk
  valid k hk := by cases hk

variable {key : Key}

variable {t t' : DetachedTree}

/-- What a lookup finds in a tree of which only some nodes are read. -/
theorem DetachedTree.get_finds {src : BlockSource}
    {a : Option Cid} (ht : Loads src .root (DetachedTree.load root).root t.root)
    (hget : t.get src key = (.ok a, t')) :
  Finds (blockItems src) (DetachedTree.load root).root.items key a
    ∧ Loads src .root (DetachedTree.load root).root t'.root
  := by
  have hreading := t.get_reading src key
  rw [hget] at hreading
  have hloads := ht.trans hreading.root.loads
  refine ⟨?_, hloads⟩
  have hordered := hloads.ordered (ordered_hole root)
  apply hloads.finds (ordered_hole root)
  apply Finds.here
  rw [← t'.root.find_eq_seek key hordered.sorted, get_find hget]

/-- `LoadsAll store root items`: the tree with the given root loads completely and without error
from the blocks of a store, and its entries are `items`. -/
def LoadsAll (store : Blocks) (root : Cid) (items : List (Key × Cid)) : Prop :=
  ((DetachedTree.load root).entries store.source).1 = .ok items

omit [Hashing] in
theorem counted_load (root : Cid) :
  Counted (DetachedTree.load root).refs ((DetachedTree.load root).root.cids ++ [])
  := by
  intro c
  by_cases hc : c = root
  · subst hc
    simp [DetachedTree.load, Child.cids]
  · have hne : root ≠ c := Ne.symm hc
    simp [DetachedTree.load, Child.cids, Function.update_of_ne hc, hne]

/-- A walk through a tree that loads completely reads the whole of it. -/
theorem LoadsAll.expanded (h : LoadsAll store root items) :
  ∃ c refs, Expanded store.source .root (DetachedTree.load root).root (DetachedTree.load root).refs
      c refs
    ∧ c.items = items.map (fun e => .entry e.1 e.2)
  := by
  rw [LoadsAll, DetachedTree.entries] at h
  rcases hwalk : (DetachedTree.load root).walk store.source
    (fun result key val => .ok (result ++ [(key, val)])) [] with ⟨r, t⟩
  rw [hwalk] at h
  obtain rfl : r = .ok items := h
  have hitems := DetachedTree.walk_items (by
    intro s k v s' hs
    cases hs
    rfl) hwalk
  rw [DetachedTree.walk, if_neg (by simp [DetachedTree.load, DetachedTree.new]),
    if_neg (by simp [DetachedTree.load, Child.isAbsent])] at hwalk
  rcases hnode : walkNode store.source (fun result key val => .ok (result ++ [(key, val)]))
    (DetachedTree.load root).root.reach [] (DetachedTree.load root).refs (DetachedTree.load root).root
    .root with ⟨r, c, refs⟩
  rw [hnode] at hwalk
  cases hwalk
  exact ⟨c, refs, walkNode_expanded rfl hnode, hitems⟩

/-- The search for a key in a tree that loads completely finds what its entries say. -/
theorem LoadsAll.finds (h : LoadsAll store root items) (key : Key) :
  Finds (blockItems store.source) (DetachedTree.load root).root.items key (items.lookup key)
  := by
  obtain ⟨c, refs, hexpanded, hitems⟩ := h.expanded
  have hloads := hexpanded.traversed.loads
  apply hloads.finds (ordered_hole root)
  have hsorted := (hloads.ordered (ordered_hole root)).sorted
  rw [Sorted, hitems, keys_entries] at hsorted
  rw [hitems]
  apply Finds.here (seek_entries key hsorted)

/-- A lookup in a tree that loads completely succeeds, and finds what its entries say. -/
theorem LoadsAll.get (h : LoadsAll store root items) (key : Key) :
  ((DetachedTree.load root).get store.source key).1 = .ok (items.lookup key)
  := by
  obtain ⟨c, refs, hexpanded, -⟩ := h.expanded
  have hnodup := hexpanded.nodup [] (counted_load root) (by simp [DetachedTree.load, Child.cids])
  obtain ⟨a, n, refs', hnode⟩ := (@Expands.getNode_ok _ _ key (DetachedTree.load root).root.reach)
    hexpanded.expands (by simp [DetachedTree.load]) (counted_load root) hnodup
    (by simp [DetachedTree.load, Child.reach, Child.depth, Place.root])
  have hget : (DetachedTree.load root).get store.source key
      = (.ok a, { DetachedTree.load root with root := n, refs := refs' }) := by
    rw [DetachedTree.get, if_neg (by simp [DetachedTree.load, DetachedTree.new]),
      if_neg (by simp [DetachedTree.load, Child.isAbsent]), hnode]
  have hfinds := (DetachedTree.get_finds .refl hget).1
  rw [hget, hfinds.unique (h.finds key)]

/-! ### Some of the blocks -/

/-- Two stores have the same block under every CID that both have. -/
def Blocks.Agree (blocks store : Blocks) : Prop :=
  ∀ cid x y, blocks cid = some x → store cid = some y → x = y

omit [Hashing] in
/-- Searches over stores that agree find the same. -/
theorem Blocks.Agree.finds_unique {l : List Item} {a b : Option Cid}
    (h : blocks.Agree store) (ha : Finds (blockItems blocks.source) l key a)
    (hb : Finds (blockItems store.source) l key b) :
  a = b
  := by
  let all : Blocks := fun cid => (blocks cid).or (store cid)
  have hblocks : Within blocks.source all.source := by
    intro cid data hdata
    have hdata' : blocks cid = some data := Except.ok.inj hdata
    show Except.ok ((blocks cid).or (store cid)) = _
    rw [hdata', Option.some_or]
  have hstore : Within store.source all.source := by
    intro cid data hdata
    have hdata' : store cid = some data := Except.ok.inj hdata
    show Except.ok ((blocks cid).or (store cid)) = _
    cases hcid : blocks cid with
    | none => rw [Option.none_or, hdata']
    | some x => rw [Option.some_or, h cid x data hcid hdata']
  apply (ha.mono hblocks.blockItems).unique (hb.mono hstore.blockItems)

/-- A lookup that succeeds over blocks that agree with those of a complete tree finds what the
tree has. -/
theorem LoadsAll.get_agrees {a : Option Cid}
    (h : LoadsAll store root items) (hagree : blocks.Agree store)
    (ht : Loads blocks.source .root (DetachedTree.load root).root t.root)
    (hget : t.get blocks.source key = (.ok a, t')) :
  ((DetachedTree.load root).get store.source key).1 = .ok a
  := by
  rw [h.get, hagree.finds_unique (DetachedTree.get_finds ht hget).1 (h.finds key)]

/-- The entries that a walk reaches over blocks that agree with those of a complete tree are
entries of the tree. -/
theorem LoadsAll.walkReachable_mem {l : List (Key × Cid)}
    (h : LoadsAll store root items) (hagree : blocks.Agree store)
    (hwalk : (DetachedTree.load root).walkReachable blocks.source
      (fun result key val => .ok (result ++ [(key, val)])) [] = (.ok l, t)) :
  ∀ e ∈ l, e ∈ items
  := by
  rintro ⟨k, v⟩ he
  obtain ⟨hloads, hmem⟩ := DetachedTree.walkReachable_entries hwalk
  have hordered := hloads.ordered (ordered_hole root)
  have hseek : seek t.root.items k = .inl (some v) := by
    obtain ⟨p, q, hitems⟩ := List.append_of_mem (hmem (k, v) he)
    have hsorted := hordered.sorted
    rw [hitems] at hsorted ⊢
    apply seek_entry v q hsorted.lt_of_append
  have hfinds := hloads.finds (ordered_hole root) (.here hseek)
  have hlookup := hagree.finds_unique hfinds (h.finds k)
  apply List.mem_of_lookup hlookup.symm

end Store

end Shrike.Mst
