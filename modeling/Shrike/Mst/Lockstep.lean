import Shrike.Mst.Alike
import Shrike.Mst.Canonical

/-!
# Trees in lockstep

Two alike trees, whose counts agree but for some CIDs, do the same in every operation, as long as no
block that is read links one of these. A flush leaves a tree that is alike, and leaves the same tree
of both.
-/

namespace Shrike.Mst

open Except

theorem eq_mk_of_snd {α β : Type} {p : α × β} {b : β} (h : p.2 = b) :
  p = (p.1, b)
  := by rw [← h]

/-! ### Counts -/

/-- Counts that agree on which CIDs are linked, but for the given ones. -/
def AgreeBut (X : List Cid) (refs refs' : Refs) : Prop :=
  ∀ c ∉ X, 0 < (refs c).getD 0 ↔ 0 < (refs' c).getD 0

mutual

/-- The CIDs of the nodes of a subtree that have not been read. -/
def Child.stubs : Child → List Cid
  | .absent => []
  | .stub cid _ => [cid]
  | .node _ _ body => body.stubs

def Body.stubs : Body → List Cid
  | .edge c => c.stubs
  | .entry c _ _ rest => c.stubs ++ rest.stubs

end

/-- The CIDs of the blocks that can be read when those of the given CIDs can. -/
inductive BlockSource.Reaches (src : BlockSource) (cids : List Cid) : Cid → Prop where
  | start {x} (hx : x ∈ cids) : Reaches src cids x
  | link {x y data} {nd : NodeData} (hx : Reaches src cids x)
      (hdata : src x = .ok (some data)) (hdecode : decodeNodeData data = .ok nd)
      (hy : y ∈ nd.children) : Reaches src cids y

/-- No block that can be read from a subtree on links one of the given CIDs. -/
def BlockSource.Apart (src : BlockSource) (X : List Cid) (n : Child) : Prop :=
  ∀ x data nd, src.Reaches n.stubs x → src x = .ok (some data) → decodeNodeData data = .ok nd →
    ∀ y ∈ nd.children, y ∉ X

section Apart

variable {src : BlockSource} {X : List Cid}

theorem BlockSource.Reaches.trans {cids cids' : List Cid} {x : Cid} (h : src.Reaches cids' x)
    (hsub : ∀ y ∈ cids', src.Reaches cids y) :
  src.Reaches cids x
  := by
  induction h with
  | start hx => exact hsub _ hx
  | link _ hdata hdecode hy ih => exact .link ih hdata hdecode hy

theorem BlockSource.Apart.mono {n d : Child} (h : src.Apart X n)
    (hsub : ∀ x ∈ d.stubs, src.Reaches n.stubs x) :
  src.Apart X d
  := fun x data nd hx => h x data nd (hx.trans hsub)

theorem noBlocks_apart (X : List Cid) (n : Child) :
  noBlocks.Apart X n
  := by
  intro x data nd _ hdata
  cases hdata

theorem Body.stubs_childAt {x : Cid} :
  ∀ {b : Body} {i : ℕ} {pl : Place}, x ∈ (b.childAt i pl).1.stubs → x ∈ b.stubs
  | .edge _, _, _, h => h
  | .entry _ _ _ _, 0, _, h => List.mem_append_left _ h
  | .entry _ _ _ _, _ + 1, _, h => List.mem_append_right _ (Body.stubs_childAt h)

theorem BlockSource.Apart.childAt {cid : Option Cid} {hh i : ℕ} {b : Body} {pl : Place}
    (h : src.Apart X (.node cid hh b)) :
  src.Apart X (b.childAt i pl).1
  := h.mono fun _ hx => .start (Body.stubs_childAt hx)

mutual

theorem Child.stubs_mem_cids {x : Cid} :
  ∀ {c : Child}, x ∈ c.stubs → x ∈ c.cids
  | .stub _ _, h => h
  | .node _ _ _, h => List.mem_append_right _ (Body.stubs_mem_cids h)

theorem Body.stubs_mem_cids {x : Cid} :
  ∀ {b : Body}, x ∈ b.stubs → x ∈ b.cids
  | .edge _, h => Child.stubs_mem_cids h
  | .entry _ _ _ _, h => by
      rcases List.mem_append.mp h with h | h
      · exact List.mem_append_left _ (Child.stubs_mem_cids h)
      · exact List.mem_append_right _ (Body.stubs_mem_cids h)

end

variable [Hashing]

mutual

/-- What has been read of a subtree leaves what can be read. -/
theorem Loads.reaches {x : Cid} :
  ∀ {pl : Place} {c c' : Child}, Loads src pl c c' → x ∈ c'.stubs → src.Reaches c.stubs x
  | _, _, _, .refl, hx => .start hx
  | _, _, _, .node hbody, hx => hbody.reaches hx
  | _, _, _, .read ⟨data, nd, hdata, hdecode, hpopulate⟩ hbody, hx => by
      apply (hbody.reaches hx).trans
      intro y hy
      have hlink := Body.stubs_mem_cids hy
      rw [populateNode_cids hpopulate] at hlink
      exact .link (.start List.mem_cons_self) hdata hdecode hlink

theorem LoadsBody.reaches {x : Cid} :
  ∀ {pl : Place} {b b' : Body}, LoadsBody src pl b b' → x ∈ b'.stubs → src.Reaches b.stubs x
  | _, _, _, .edge hc, hx => hc.reaches hx
  | _, _, _, .entry hc hrest, hx => by
      rcases List.mem_append.mp hx with hx | hx
      · exact (hc.reaches hx).trans fun y hy => .start (List.mem_append_left _ hy)
      · exact (hrest.reaches hx).trans fun y hy => .start (List.mem_append_right _ hy)

end

theorem BlockSource.Apart.loads {pl : Place} {n d : Child} (h : src.Apart X n)
    (hloads : Loads src pl n d) :
  src.Apart X d
  := h.mono fun _ hx => hloads.reaches hx

theorem BlockSource.Apart.load {pl : Place} {n d : Child} {refs refs' : Refs}
    {r : Except MstError (Option Cid)} (h : src.Apart X n)
    (hload : Mst.load src refs n pl = (r, d, refs')) :
  src.Apart X d
  := by
  have hloads := (@load_traversed _ src pl refs n).loads
  rw [hload] at hloads
  exact h.loads hloads

theorem BlockSource.Apart.ensureLoaded {pl : Place} {n d : Child} {refs refs' : Refs}
    {r : Except MstError Unit} (h : src.Apart X n)
    (hload : Mst.ensureLoaded src refs n pl = (r, d, refs')) :
  src.Apart X d
  := by
  have hloads := (ensureLoaded_traversed src refs n pl).loads
  rw [hload] at hloads
  exact h.loads hloads

end Apart

section Counts

variable {X : List Cid} {refs refs' : Refs}

theorem AgreeBut.refl (X : List Cid) (refs : Refs) :
  AgreeBut X refs refs
  := fun _ _ => Iff.rfl

theorem AgreeBut.update (h : AgreeBut X refs refs') (c : Cid) (n : Option ℕ) :
  AgreeBut X (Function.update refs c n) (Function.update refs' c n)
  := by
  intro x hx
  rcases eq_or_ne x c with rfl | hne
  · rw [Function.update_self, Function.update_self]
  · rw [Function.update_of_ne hne, Function.update_of_ne hne]
    exact h x hx

theorem AgreeBut.forget (h : AgreeBut X refs refs') (cids : List Cid) :
  AgreeBut X (forget refs cids) (forget refs' cids)
  := by
  intro x hx
  rw [Mst.forget, Mst.forget]
  split
  · exact Iff.rfl
  · exact h x hx

/-- Links are counted alike, if the counts agree on them. -/
theorem AgreeBut.countLinks :
  ∀ {cs : List Cid} {refs refs' : Refs}, AgreeBut X refs refs' → (∀ c ∈ cs, c ∉ X) →
    (countLinks refs' cs).1 = (countLinks refs cs).1
      ∧ (countLinks refs' cs).2.1 = (countLinks refs cs).2.1
      ∧ AgreeBut X (countLinks refs cs).2.2 (countLinks refs' cs).2.2
  | [], _, _, h, _ => ⟨rfl, rfl, h⟩
  | c :: cs, refs, refs', h, hcs => by
      have hc := h c (hcs c List.mem_cons_self)
      rw [Mst.countLinks, Mst.countLinks]
      by_cases hlinked : 0 < (refs c).getD 0
      · rw [if_pos hlinked, if_pos (hc.mp hlinked)]
        exact ⟨rfl, rfl, h⟩
      · rw [if_neg hlinked, if_neg (mt hc.mpr hlinked)]
        obtain ⟨htwice, hcounted, hrefs⟩ := (h.update c (some 1)).countLinks
          (fun x hx => hcs x (List.mem_cons_of_mem _ hx))
        exact ⟨htwice, congrArg (c :: ·) hcounted, hrefs⟩

end Counts

/-! ### Traversals -/

variable [Hashing]

/-- What two traversals do that go alike: they return the same, and leave alike subtrees with the
link of the one that was traversed. -/
structure Alongside {α : Type} (X : List Cid) (n : Child)
    (r r' : Except MstError α × Child × Refs) : Prop where
  result : r'.1 = r.1
  tree : Alike r.2.1 r'.2.1
  link : r.2.1.writtenLink = n.writtenLink
  refs : AgreeBut X r.2.2 r'.2.2

/-- A subtree with the same link in its place leaves the links of a node. -/
theorem Body.writtenLinks_setChildAt {d : Child} :
  ∀ {b : Body} {i : ℕ} {pl : Place}, d.writtenLink = (b.childAt i pl).1.writtenLink →
    (b.setChildAt d i).writtenLinks = b.writtenLinks
  | .edge _, _, _, h => by
      rw [setChildAt, writtenLinks, writtenLinks]
      exact congrArg (·, []) h
  | .entry _ _ _ _, 0, _, h => by
      rw [setChildAt, writtenLinks, writtenLinks]
      exact congrArg (·, _) h
  | .entry _ k _ rest, i + 1, pl, h => by
      have ih := @Body.writtenLinks_setChildAt d rest i (pl.after k) h
      rw [setChildAt, writtenLinks, writtenLinks, ih]

theorem Body.writtenLink_node {b b' : Body} (h : b'.writtenLinks = b.writtenLinks)
    (cid : Option Cid) (n : ℕ) :
  (Child.node cid n b').writtenLink = (Child.node cid n b).writtenLink
  := by rw [Child.writtenLink, Child.writtenLink, h]

/-- A subtree with the same link in its place leaves the links of the subtrees of a node. -/
theorem Body.writtenLink_setChildAt {d : Child} :
  ∀ {b : Body} {i : ℕ} (j : ℕ) {pl : Place}, d.writtenLink = (b.childAt i pl).1.writtenLink →
    ((b.setChildAt d i).childAt j pl).1.writtenLink = (b.childAt j pl).1.writtenLink
  | .edge _, _, _, _, h => h
  | .entry _ _ _ _, 0, 0, _, h => h
  | .entry _ _ _ _, 0, _ + 1, _, _ => rfl
  | .entry _ _ _ _, _ + 1, 0, _, _ => rfl
  | .entry _ k _ rest, i + 1, j + 1, pl, h =>
      @Body.writtenLink_setChildAt d rest i j (pl.after k) h

/-- Nodes stay alike when the contents of both keep their links. -/
theorem Alike.node_of_links {cid cid' : Option Cid} {n : ℕ} {b b' d d' : Body}
    (hlink : (Child.node cid n b).writtenLink = (Child.node cid' n b').writtenLink)
    (hd : AlikeBody d d') (hkeep : d.writtenLinks = b.writtenLinks)
    (hb : AlikeBody b b') :
  Alike (.node cid n d) (.node cid' n d')
  := by
  refine .node hd ?_
  have hkeep' : d'.writtenLinks = b'.writtenLinks := by
    rw [← hd.writtenLinks, hkeep, hb.writtenLinks]
  rw [Body.writtenLink_node hkeep, Body.writtenLink_node hkeep', hlink]

section Traversals

variable {X : List Cid} {src : BlockSource} {pl : Place} {n n' : Child} {refs refs' : Refs}

theorem Alongside.refl {α : Type} (r : Except MstError α) (h : Alike n n')
    (hrefs : AgreeBut X refs refs') :
  Alongside X n (r, n, refs) (r, n', refs')
  := ⟨rfl, h, rfl, hrefs⟩

theorem Alongside.cases {α : Type} {x x' : Except MstError α × Child × Refs}
    (h : Alongside X n x x') :
  ∃ r d d' refs₁ refs₁', x = (r, d, refs₁) ∧ x' = (r, d', refs₁') ∧ Alike d d'
    ∧ d.writtenLink = n.writtenLink ∧ AgreeBut X refs₁ refs₁'
  := ⟨_, _, x'.2.1, _, x'.2.2, rfl, Prod.ext h.result rfl, h.tree, h.link, h.refs⟩

/-- Loading goes alike. -/
theorem Alike.load (pl : Place) (h : Alike n n') (hsrc : src.Apart X n)
    (hrefs : AgreeBut X refs refs') :
  Alongside X n (load src refs n pl) (load src refs' n' pl)
  := by
  cases h with
  | absent => exact .refl _ .absent hrefs
  | node hbody hlink => exact .refl _ (.node hbody hlink) hrefs
  | @stub cid h =>
      rw [Mst.load, Mst.load]
      split
      · exact .refl _ .stub hrefs
      · split
        · exact .refl _ .stub hrefs
        · exact .refl _ .stub hrefs
        · rename_i data hdata
          split
          · exact .refl _ .stub hrefs
          · rename_i nd hdecode
            obtain ⟨htwice, hcounted, hafter⟩ :=
              hrefs.countLinks (hsrc cid data nd (.start List.mem_cons_self) hdata hdecode)
            rcases hcount : countLinks refs nd.children with ⟨twice, linked, refs₁⟩
            rcases hcount' : countLinks refs' nd.children with ⟨twice', linked', refs₁'⟩
            rw [hcount, hcount'] at htwice hcounted hafter
            cases htwice
            cases hcounted
            cases twice with
            | some child => exact .refl _ .stub (hafter.forget linked)
            | none =>
                dsimp only
                split
                · exact .refl _ .stub (hafter.forget linked)
                · exact ⟨rfl, Alike.refl _, rfl, hafter⟩

theorem Alike.ensureLoaded (pl : Place) (h : Alike n n') (hsrc : src.Apart X n)
    (hrefs : AgreeBut X refs refs') :
  Alongside X n (ensureLoaded src refs n pl) (ensureLoaded src refs' n' pl)
  := by
  rw [Mst.ensureLoaded, Mst.ensureLoaded]
  obtain ⟨r, d, d', refs₁, refs₁', hload, hload', htree, hlink, hafter⟩ :=
    (h.load pl hsrc hrefs).cases
  rw [hload, hload']
  rcases r with e | ⟨_ | cid⟩
  · exact ⟨rfl, htree, hlink, hafter⟩
  · exact ⟨rfl, htree, hlink, hafter⟩
  · exact ⟨rfl, htree, hlink, hafter⟩

/-- A traversal of a subtree of two nodes goes alike for the nodes. -/
theorem Alongside.child {α : Type} {cid cid' : Option Cid} {h i : ℕ} {b b' : Body}
    {r r' : Except MstError α × Child × Refs}
    (hr : Alongside X (b.childAt i pl).1 r r') (hb : AlikeBody b b')
    (hlink : (Child.node cid h b).writtenLink = (Child.node cid' h b').writtenLink) :
  Alongside X (.node cid h b) (r.1, .node cid h (b.setChildAt r.2.1 i), r.2.2)
    (r'.1, .node cid' h (b'.setChildAt r'.2.1 i), r'.2.2)
  := by
  have hkeep := Body.writtenLinks_setChildAt hr.link
  exact ⟨hr.result, .node_of_links hlink (hb.setChildAt hr.tree i) hkeep hb,
    Body.writtenLink_node hkeep cid h, hr.refs⟩

/-- What follows a traversal goes alike, if the traversal does. -/
theorem Alongside.trans_link {α : Type} {m : Child} {r r' : Except MstError α × Child × Refs}
    (h : Alongside X m r r') (hlink : m.writtenLink = n.writtenLink) :
  Alongside X n r r'
  := ⟨h.result, h.tree, h.link.trans hlink, h.refs⟩

/-- Lookups go alike. -/
theorem Alike.getNode (key : Key) :
  ∀ (fuel : ℕ) {n n' : Child} {refs refs' : Refs} (pl : Place), Alike n n' → src.Apart X n →
    AgreeBut X refs refs' →
    Alongside X n (getNode src key fuel refs n pl) (getNode src key fuel refs' n' pl)
  | 0, _, _, _, _, _, h, _, hrefs => .refl _ h hrefs
  | fuel + 1, n, n', refs, refs', pl, h, hsrc, hrefs => by
      rw [Mst.getNode, Mst.getNode]
      obtain ⟨r, d, d', refs₁, refs₁', hload, hload', htree, hlink, hafter⟩ :=
        (h.ensureLoaded pl hsrc hrefs).cases
      have hsrc := hsrc.ensureLoaded hload
      rw [hload, hload']
      cases r with
      | error e => exact ⟨rfl, htree, hlink, hafter⟩
      | ok u =>
          cases htree with
          | absent => exact ⟨rfl, .absent, hlink, hafter⟩
          | stub => exact ⟨rfl, .stub, hlink, hafter⟩
          | @node cid cid' hh b b' hb hcid =>
              dsimp only
              rw [hb.search key]
              rcases hsearch : b.search key with ⟨_ | _, i⟩
              · dsimp only
                obtain ⟨hchild, hplace⟩ := hb.childAt i pl
                rw [hplace, hchild.isAbsent]
                split
                · exact ⟨rfl, .node hb hcid, hlink, hafter⟩
                · have hget := hchild.getNode key fuel (b.childAt i pl).2 hsrc.childAt hafter
                  exact (hget.child hb hcid).trans_link hlink
              · dsimp only
                rw [hb.valueAt]
                exact ⟨rfl, .node hb hcid, hlink, hafter⟩

/-- Loading the chain at the root goes alike. -/
theorem Alike.visitRootChain :
  ∀ (fuel : ℕ) {n n' : Child} {refs refs' : Refs} (pl : Place) (chain : Bool), Alike n n' →
    src.Apart X n → AgreeBut X refs refs' →
    Alongside X n (visitRootChain src fuel refs n pl chain)
      (visitRootChain src fuel refs' n' pl chain)
  | 0, _, _, _, _, _, _, h, _, hrefs => .refl _ h hrefs
  | fuel + 1, n, n', refs, refs', pl, chain, h, hsrc, hrefs => by
      rw [Mst.visitRootChain, Mst.visitRootChain]
      split
      · exact .refl _ h hrefs
      · obtain ⟨r, d, d', refs₁, refs₁', hload, hload', htree, hlink, hafter⟩ :=
          (h.load pl hsrc hrefs).cases
        have hsrc := hsrc.load hload
        rw [hload, hload']
        rcases r with e | ⟨_ | cid⟩
        · exact ⟨rfl, htree, hlink, hafter⟩
        · cases htree with
          | absent => exact ⟨rfl, .absent, hlink, hafter⟩
          | stub => exact ⟨rfl, .stub, hlink, hafter⟩
          | @node cid cid' hh b b' hb hcid =>
              dsimp only
              obtain ⟨hchild, hplace⟩ := hb.childAt 0 pl
              rw [hplace, hchild.isAbsent, hb.size]
              split
              · exact ⟨rfl, .node hb hcid, hlink, hafter⟩
              · have hchain := hchild.visitRootChain fuel (b.childAt 0 pl).2 (decide (b.size = 0))
                  hsrc.childAt hafter
                exact (hchain.child hb hcid).trans_link hlink
        · dsimp only
          rw [htree.height]
          exact ⟨rfl, htree, hlink, hafter⟩

/-- What two traversals of two subtrees do that go alike. -/
structure AlongsidePair {α : Type} (X : List Cid) (l r : Child)
    (x x' : Except MstError α × Child × Child × Refs) : Prop where
  result : x'.1 = x.1
  left : Alike x.2.1 x'.2.1
  right : Alike x.2.2.1 x'.2.2.1
  leftLink : x.2.1.writtenLink = l.writtenLink
  rightLink : x.2.2.1.writtenLink = r.writtenLink
  refs : AgreeBut X x.2.2.2 x'.2.2.2

/-- A traversal of a subtree of each of two nodes goes alike for the nodes. -/
theorem AlongsidePair.nodes {α : Type} {lcid lcid' rcid rcid' : Option Cid} {lh rh i j : ℕ}
    {lb lb' rb rb' : Body} {lpl rpl : Place} {x x' : Except MstError α × Child × Child × Refs}
    (hx : AlongsidePair X (lb.childAt i lpl).1 (rb.childAt j rpl).1 x x') (hlb : AlikeBody lb lb')
    (hrb : AlikeBody rb rb')
    (hl : (Child.node lcid lh lb).writtenLink = (Child.node lcid' lh lb').writtenLink)
    (hr : (Child.node rcid rh rb).writtenLink = (Child.node rcid' rh rb').writtenLink) :
  AlongsidePair X (.node lcid lh lb) (.node rcid rh rb)
    (x.1, .node lcid lh (lb.setChildAt x.2.1 i), .node rcid rh (rb.setChildAt x.2.2.1 j), x.2.2.2)
    (x'.1, .node lcid' lh (lb'.setChildAt x'.2.1 i), .node rcid' rh (rb'.setChildAt x'.2.2.1 j),
      x'.2.2.2)
  := by
  have hlkeep := Body.writtenLinks_setChildAt hx.leftLink
  have hrkeep := Body.writtenLinks_setChildAt hx.rightLink
  exact ⟨hx.result, .node_of_links hl (hlb.setChildAt hx.left i) hlkeep hlb,
    .node_of_links hr (hrb.setChildAt hx.right j) hrkeep hrb,
    Body.writtenLink_node hlkeep lcid lh, Body.writtenLink_node hrkeep rcid rh, hx.refs⟩

/-- A traversal of two subtrees of a node goes alike for the node. -/
theorem AlongsidePair.body {α : Type} {cid cid' : Option Cid} {h i j : ℕ} {b b' : Body}
    {x x' : Except MstError α × Child × Child × Refs}
    (hx : AlongsidePair X (b.childAt i pl).1 (b.childAt j pl).1 x x') (hb : AlikeBody b b')
    (hlink : (Child.node cid h b).writtenLink = (Child.node cid' h b').writtenLink) :
  Alongside X (.node cid h b)
    (x.1, .node cid h ((b.setChildAt x.2.1 i).setChildAt x.2.2.1 j), x.2.2.2)
    (x'.1, .node cid' h ((b'.setChildAt x'.2.1 i).setChildAt x'.2.2.1 j), x'.2.2.2)
  := by
  have hright := hx.rightLink.trans (Body.writtenLink_setChildAt j hx.leftLink).symm
  have hkeep := (Body.writtenLinks_setChildAt hright).trans
    (Body.writtenLinks_setChildAt hx.leftLink)
  exact ⟨hx.result, .node_of_links hlink ((hb.setChildAt hx.left i).setChildAt hx.right j) hkeep hb,
    Body.writtenLink_node hkeep cid h, hx.refs⟩

theorem AlongsidePair.trans_links {α : Type} {l l' r r' : Child}
    {x x' : Except MstError α × Child × Child × Refs} (h : AlongsidePair X l r x x')
    (hl : l.writtenLink = l'.writtenLink) (hr : r.writtenLink = r'.writtenLink) :
  AlongsidePair X l' r' x x'
  := ⟨h.result, h.left, h.right, h.leftLink.trans hl, h.rightLink.trans hr, h.refs⟩

/-- Loading what a merge reads goes alike. -/
theorem Alike.visitMerge :
  ∀ (fuel : ℕ) {l l' r r' : Child} {refs refs' : Refs} (lpl rpl : Place) (chain : Bool),
    Alike l l' → Alike r r' → src.Apart X l → src.Apart X r → AgreeBut X refs refs' →
    AlongsidePair X l r (visitMerge src fuel refs (l, lpl) (r, rpl) chain)
      (visitMerge src fuel refs' (l', lpl) (r', rpl) chain)
  | 0, _, _, _, _, _, _, _, _, _, hl, hr, _, _, hrefs => ⟨rfl, hl, hr, rfl, rfl, hrefs⟩
  | fuel + 1, l, l', r, r', refs, refs', lpl, rpl, chain, hl, hr, hlsrc, hrsrc, hrefs => by
      rw [Mst.visitMerge, Mst.visitMerge, hl.isAbsent, hr.isAbsent]
      split
      · obtain ⟨hresult, htree, hlink, hafter⟩ :=
          hl.visitRootChain (fuel + 1) lpl chain hlsrc hrefs
        exact ⟨hresult, htree, hr, hlink, rfl, hafter⟩
      · split
        · obtain ⟨hresult, htree, hlink, hafter⟩ :=
            hr.visitRootChain (fuel + 1) rpl chain hrsrc hrefs
          exact ⟨hresult, hl, htree, rfl, hlink, hafter⟩
        · obtain ⟨x, d, d', refs₁, refs₁', hload, hload', htree, hlink, hafter⟩ :=
            (hl.load lpl hlsrc hrefs).cases
          have hlsrc := hlsrc.load hload
          rw [hload, hload']
          cases x with
          | error e => exact ⟨rfl, htree, hr, hlink, rfl, hafter⟩
          | ok lmissing =>
              dsimp only
              obtain ⟨y, g, g', refs₂, refs₂', hloadr, hloadr', htree', hlink', hafter'⟩ :=
                (hr.load rpl hrsrc hafter).cases
              have hrsrc := hrsrc.load hloadr
              rw [hloadr, hloadr']
              cases y with
              | error e => exact ⟨rfl, htree, htree', hlink, hlink', hafter'⟩
              | ok rmissing =>
                  cases htree with
                  | absent => exact ⟨rfl, .absent, htree', hlink, hlink', hafter'⟩
                  | stub => exact ⟨rfl, .stub, htree', hlink, hlink', hafter'⟩
                  | @node lcid lcid' lh lb lb' hlb hlcid =>
                      cases htree' with
                      | absent => exact ⟨rfl, .node hlb hlcid, .absent, hlink, hlink', hafter'⟩
                      | stub => exact ⟨rfl, .node hlb hlcid, .stub, hlink, hlink', hafter'⟩
                      | @node rcid rcid' rh rb rb' hrb hrcid =>
                          dsimp only
                          rw [hlb.size, hrb.size]
                          obtain ⟨hlc, hlplace⟩ := hlb.childAt lb.size lpl
                          obtain ⟨hrc, hrplace⟩ := hrb.childAt 0 rpl
                          have hpair := Alike.visitMerge fuel (lb.childAt lb.size lpl).2
                            (rb.childAt 0 rpl).2
                            (chain && decide (lb.size = 0) && decide (rb.size = 0)) hlc hrc
                            hlsrc.childAt hrsrc.childAt hafter'
                          rw [← eq_mk_of_snd hlplace, ← eq_mk_of_snd hrplace] at hpair
                          exact (hpair.nodes hlb hrb hlcid hrcid).trans_links hlink hlink'

/-- Loading the path of a key goes alike. -/
theorem Alike.visitKeyPath (key : Key) (visit : Visit) :
  ∀ (fuel : ℕ) {n n' : Child} {refs refs' : Refs} (top : Bool) (pl : Place), Alike n n' →
    src.Apart X n → AgreeBut X refs refs' →
    Alongside X n (visitKeyPath src key visit fuel refs n top pl)
      (visitKeyPath src key visit fuel refs' n' top pl)
  | 0, _, _, _, _, _, _, h, _, hrefs => .refl _ h hrefs
  | fuel + 1, n, n', refs, refs', top, pl, h, hsrc, hrefs => by
      rw [Mst.visitKeyPath, Mst.visitKeyPath]
      obtain ⟨r, d, d', refs₁, refs₁', hload, hload', htree, hlink, hafter⟩ :=
        (h.load pl hsrc hrefs).cases
      have hsrc := hsrc.load hload
      rw [hload, hload']
      rcases r with e | ⟨_ | cid⟩
      · exact ⟨rfl, htree, hlink, hafter⟩
      · cases htree with
        | absent => exact ⟨rfl, .absent, hlink, hafter⟩
        | stub => exact ⟨rfl, .stub, hlink, hafter⟩
        | @node cid cid' hh b b' hb hcid =>
            dsimp only
            rw [hb.search key, hb.size]
            rcases hsearch : b.search key with ⟨_ | _, i⟩
            · dsimp only
              obtain ⟨hchild, hplace⟩ := hb.childAt i pl
              rw [hplace, hchild.isAbsent]
              split
              · exact ⟨rfl, .node hb hcid, hlink, hafter⟩
              · have hvisit := hchild.visitKeyPath key visit fuel (top && decide (b.size = 0))
                  (b.childAt i pl).2 hsrc.childAt hafter
                exact (hvisit.child hb hcid).trans_link hlink
            · cases visit with
              | lookup => exact ⟨rfl, .node hb hcid, hlink, hafter⟩
              | remove =>
                  dsimp only
                  obtain ⟨hl, hlplace⟩ := hb.childAt i pl
                  obtain ⟨hr, hrplace⟩ := hb.childAt (i + 1) pl
                  have hpair := Alike.visitMerge fuel (b.childAt i pl).2 (b.childAt (i + 1) pl).2
                    (top && decide (b.size = 1)) hl hr hsrc.childAt hsrc.childAt hafter
                  rw [← eq_mk_of_snd hlplace, ← eq_mk_of_snd hrplace] at hpair
                  exact (hpair.body hb hcid).trans_link hlink
      · exact ⟨rfl, htree, hlink, hafter⟩

end Traversals

/-! ### Operations -/

/-- `Lockstep X t t'`: two alike trees whose counts agree but for the given CIDs. -/
structure Lockstep (X : List Cid) (t t' : DetachedTree) : Prop where
  poisoned : t'.poisoned = t.poisoned
  root : Alike t.root t'.root
  refs : AgreeBut X t.refs t'.refs

/-- Two operations that return the same, and leave trees in lockstep. -/
structure SameStep {α : Type} (X : List Cid) (r r' : Except MstError α × DetachedTree) : Prop where
  result : r'.1 = r.1
  trees : Lockstep X r.2 r'.2

theorem SameStep.cases {α : Type} {X : List Cid} {x x' : Except MstError α × DetachedTree}
    (h : SameStep X x x') :
  ∃ r t t', x = (r, t) ∧ x' = (r, t') ∧ Lockstep X t t'
  := ⟨_, _, x'.2, rfl, Prod.ext h.result rfl, h.trees⟩

namespace Lockstep

variable {X : List Cid} {t t' : DetachedTree} {src : BlockSource}

theorem refl (X : List Cid) (t : DetachedTree) :
  Lockstep X t t
  := ⟨rfl, Alike.refl _, .refl _ _⟩

/-- A traversal from the root that goes alike leaves trees in lockstep. -/
theorem traversal {α : Type} (h : Lockstep X t t') {r r' : Except MstError α}
    {root root' : Child} {refs refs' : Refs}
    (hr : Alongside X t.root (r, root, refs) (r', root', refs')) :
  SameStep X (r, { t with root, refs }) (r', { t' with root := root', refs := refs' })
  := ⟨hr.result, h.poisoned, hr.tree, hr.refs⟩

theorem get (h : Lockstep X t t') (hsrc : src.Apart X t.root) (key : Key) :
  SameStep X (t.get src key) (t'.get src key)
  := by
  rw [DetachedTree.get, DetachedTree.get, h.poisoned, h.root.isAbsent, h.root.reach]
  split
  · exact ⟨rfl, h⟩
  · split
    · exact ⟨rfl, h⟩
    · have hget := h.root.getNode key t.root.reach .root hsrc h.refs
      generalize getNode src key t.root.reach t.refs t.root .root = x at hget ⊢
      generalize getNode src key t.root.reach t'.refs t'.root .root = x' at hget ⊢
      exact ⟨hget.result, rfl, hget.tree, hget.refs⟩

theorem loadKeyPath (h : Lockstep X t t') (hsrc : src.Apart X t.root) (key : Key) (visit : Visit) :
  SameStep X (t.loadKeyPath src key visit) (t'.loadKeyPath src key visit)
  := by
  rw [DetachedTree.loadKeyPath, DetachedTree.loadKeyPath, h.root.isAbsent, h.root.reach]
  split
  · exact ⟨rfl, h⟩
  · obtain ⟨r, root, root', refs, refs', hvisit, hvisit', htree, -, hrefs⟩ :=
      (h.root.visitKeyPath key visit t.root.reach true .root hsrc h.refs).cases
    rw [hvisit, hvisit']
    rcases r with e | ⟨_ | ⟨cid, cids⟩⟩
    · exact ⟨rfl, h.poisoned, htree, hrefs⟩
    · dsimp only
      rw [htree.reach]
      have hloaded : Lockstep X { t with root, refs } { t' with root := root', refs := refs' } :=
        ⟨h.poisoned, htree, hrefs⟩
      have hget := htree.getNode key root.reach .root (noBlocks_apart X root) hrefs
      generalize getNode noBlocks key root.reach refs root .root = x at hget ⊢
      generalize getNode noBlocks key root.reach refs' root' .root = x' at hget ⊢
      exact hloaded.traversal hget
    · exact ⟨rfl, h.poisoned, htree, hrefs⟩

theorem dropEmptyRoot (h : Lockstep X t t') :
  Lockstep X t.dropEmptyRoot t'.dropEmptyRoot
  := by
  rw [DetachedTree.dropEmptyRoot, DetachedTree.dropEmptyRoot, h.root.isAbsent]
  split
  · exact ⟨h.poisoned, h.root, h.refs⟩
  · exact h

theorem poison (h : Lockstep X t t') :
  Lockstep X t.poison t'.poison
  := ⟨rfl, .absent, h.refs⟩

theorem insert (h : Lockstep X t t') (hsrc : src.Apart X t.root) (key : Key) (val : Cid) :
  SameStep X (t.insert src key val) (t'.insert src key val)
  := by
  rw [DetachedTree.insert, DetachedTree.insert, h.poisoned]
  split
  · exact ⟨rfl, h⟩
  · split
    · exact ⟨rfl, h⟩
    · obtain ⟨r, t₁, t₁', hload, hload', htrees⟩ := (h.loadKeyPath hsrc key .lookup).cases
      rw [hload, hload']
      rcases r with e | ⟨_ | prev⟩
      · exact ⟨rfl, htrees⟩
      · dsimp only
        have hchange : ChangeAlike Alike (insertNode key val (heightForKey key) t₁.root)
          (insertNode key val (heightForKey key) t₁'.root) := htrees.root.insert
        generalize insertNode key val (heightForKey key) t₁.root = x at hchange ⊢
        generalize insertNode key val (heightForKey key) t₁'.root = x' at hchange ⊢
        cases hchange with
        | error => exact ⟨rfl, htrees.dropEmptyRoot.poison⟩
        | ok hroot => exact ⟨rfl, htrees.dropEmptyRoot.poisoned, hroot, htrees.dropEmptyRoot.refs⟩
      · dsimp only
        split
        · exact ⟨rfl, htrees⟩
        · have hchange : ChangeAlike Alike (updateNode key val t₁.root)
            (updateNode key val t₁'.root) := htrees.root.update
          generalize updateNode key val t₁.root = x at hchange ⊢
          generalize updateNode key val t₁'.root = x' at hchange ⊢
          cases hchange with
          | error => exact ⟨rfl, htrees.poison⟩
          | ok hroot => exact ⟨rfl, htrees.poisoned, hroot, htrees.refs⟩

theorem remove (h : Lockstep X t t') (hsrc : src.Apart X t.root) (key : Key) :
  SameStep X (t.remove src key) (t'.remove src key)
  := by
  rw [DetachedTree.remove, DetachedTree.remove, h.poisoned]
  split
  · exact ⟨rfl, h⟩
  · obtain ⟨r, t₁, t₁', hload, hload', htrees⟩ := (h.loadKeyPath hsrc key .remove).cases
    rw [hload, hload']
    rcases r with e | ⟨_ | val⟩
    · exact ⟨rfl, htrees⟩
    · exact ⟨rfl, htrees⟩
    · dsimp only
      have hchange := Alike.removeFromRoot htrees.root (DetachedTree.loadKeyPath_find hload)
      generalize removeFromRoot t₁.root key = x at hchange ⊢
      generalize removeFromRoot t₁'.root key = x' at hchange ⊢
      cases hchange with
      | error => exact ⟨rfl, htrees.poison⟩
      | ok hroot =>
          obtain ⟨hremoved, hroot⟩ := hroot
          refine ⟨?_, htrees.poisoned, hroot, htrees.refs⟩
          dsimp only
          rw [hremoved]

end Lockstep

/-! ### Flushes -/

omit [Hashing] in
theorem Counted.linked {refs : Refs} {l : List Cid} (h : Counted refs l) (c : Cid) :
  refs c ≠ none ↔ c ∈ l
  := by
  rw [h c, ← List.count_pos_iff]
  split
  · rename_i hzero
    simp [hzero]
  · rename_i hzero
    simp [Nat.pos_of_ne_zero hzero]

omit [Hashing] in
theorem Counted.pos {refs : Refs} {l : List Cid} (h : Counted refs l) (c : Cid) :
  0 < (refs c).getD 0 ↔ refs c ≠ none
  := by
  rw [h c]
  split
  · simp
  · rename_i hzero
    simp [Nat.pos_of_ne_zero hzero]

omit [Hashing] in
theorem Counted.unique {refs refs' : Refs} {l : List Cid} (h : Counted refs l)
    (h' : Counted refs' l) :
  refs = refs'
  := by
  funext c
  rw [h c, h' c]

mutual

/-- Blocks are written under their CIDs. -/
theorem Write.hashed :
  ∀ {c c' : Child} {out : List (Cid × Bytes)}, Write c c' out →
    ∀ p ∈ out, p.1 = Cid.compute .drisl p.2
  | _, _, _, .absent, _, hp => by cases hp
  | _, _, _, .stub, _, hp => by cases hp
  | _, _, _, .clean, _, hp => by cases hp
  | _, _, _, .node hbody hdata, p, hp => by
      rcases List.mem_append.mp hp with hp | hp
      · exact hbody.hashed p hp
      · rw [List.mem_singleton.mp hp]

theorem WriteBody.hashed :
  ∀ {b b' : Body} {out : List (Cid × Bytes)}, WriteBody b b' out →
    ∀ p ∈ out, p.1 = Cid.compute .drisl p.2
  | _, _, _, .edge hc, p, hp => hc.hashed p hp
  | _, _, _, .entry hc hrest, p, hp => by
      rcases List.mem_append.mp hp with hp | hp
      · exact hc.hashed p hp
      · exact hrest.hashed p hp

end

namespace DetachedTree

variable {t t' : DetachedTree} {src : BlockSource} {key : Key} {val : Cid}

/-- What holds of every tree that is usable: its counts are those of the CIDs that its nodes carry
or have given up, it has the node of the empty tree only if it is empty, and everything below a
written node is written. -/
structure Sound (t : DetachedTree) : Prop where
  counted : Counted t.refs (t.root.cids ++ (t.released ++ t.emptyRoot.toList))
  emptyRoot : t.emptyRoot = none ∨ t.root = .absent
  tidy : t.root.Tidy

omit [Hashing] in
theorem sound_new :
  new.Sound
  := by
  refine ⟨?_, .inl rfl, trivial⟩
  intro c
  rfl

omit [Hashing] in
theorem sound_load (root : Cid) :
  (load root).Sound
  := by
  refine ⟨?_, .inl rfl, trivial⟩
  have hnone : Counted (fun _ => none) [] := fun _ => rfl
  exact @Counted.cons _ _ hnone root rfl

theorem Sound.reading (h : t.Sound) (hr : Reading src t t') :
  t'.Sound
  := by
  refine ⟨?_, ?_, hr.root.loads.tidy h.tidy⟩
  · rw [hr.released, hr.emptyRoot]
    exact hr.root.counted _ h.counted
  · rw [hr.emptyRoot]
    refine h.emptyRoot.imp_right fun habsent => ?_
    have hloads := hr.root.loads
    rw [habsent] at hloads
    generalize t'.root = root at hloads
    cases hloads
    rfl

omit [Hashing] in
theorem Sound.dropEmptyRoot (h : t.Sound) :
  t.dropEmptyRoot.Sound ∧ t.dropEmptyRoot.emptyRoot = none ∧ t.dropEmptyRoot.root = t.root
  := by
  rw [DetachedTree.dropEmptyRoot]
  split
  · refine ⟨⟨?_, .inl rfl, h.tidy⟩, rfl, rfl⟩
    rw [Option.toList_none, List.append_nil]
    exact h.counted
  · rename_i hroot
    exact ⟨h, h.emptyRoot.resolve_right (mt Child.isAbsent_iff.mpr hroot), rfl⟩

omit [Hashing] in
/-- A change that gives up the CIDs it stops carrying keeps a tree sound. -/
theorem Sound.write (h : t.Sound) (hempty : t.emptyRoot = none) {root : Child}
    {released : List Cid} (htidy : root.Tidy)
    (hcids : ∀ x, t.root.cids.count x = root.cids.count x + released.count x) :
  { t with root, released := t.released ++ released }.Sound
  := by
  refine ⟨?_, .inl hempty, htidy⟩
  apply h.counted.perm
  rw [List.perm_iff_count]
  intro x
  have hx := hcids x
  simp only [List.count_append]
  omega

theorem Sound.insert {r : Except MstError (Option Cid)} (h : t.Sound)
    (hinsert : t.insert src key val = (r, t')) :
  t'.poisoned = true ∨ t'.Sound
  := by
  rcases insert_cases hinsert with ⟨e, -, hr | hp⟩ | ⟨-, -, t₁, a, -, hr, -, hcase⟩
  · exact .inr (h.reading hr)
  · exact .inl hp
  · right
    have h₁ := h.reading hr
    rcases hcase with ⟨-, rfl⟩ | ⟨root, released, -, hupdate, rfl⟩ | ⟨root, released, -, hput, rfl⟩
    · exact h₁
    · have hempty : t₁.emptyRoot = none := by
        refine h₁.emptyRoot.resolve_right fun habsent => ?_
        rw [habsent] at hupdate
        cases hupdate
      exact h₁.write hempty (hupdate.cached h₁.tidy) hupdate.cids
    · obtain ⟨h₂, hempty, hroot⟩ := h₁.dropEmptyRoot
      rw [← hroot] at hput
      exact h₂.write hempty (hput.cached h₂.tidy) hput.cids

theorem Sound.remove {r : Except MstError (Option Cid)} (h : t.Sound)
    (hremove : t.remove src key = (r, t')) :
  t'.poisoned = true ∨ t'.Sound
  := by
  rcases remove_cases hremove with ⟨e, -, hr | hp⟩ | ⟨-, t₁, a, -, hr, hfind, hcase⟩
  · exact .inr (h.reading hr)
  · exact .inl hp
  · right
    have h₁ := h.reading hr
    rcases hcase with ⟨-, -, rfl⟩ | ⟨val, root, removed, released, rfl, hroot, -, rfl⟩
    · exact h₁
    · obtain rfl := removeFromRoot_found hfind hroot
      obtain ⟨n, dropped, trimmed, hn, htrim, rfl⟩ := remove_trim_of_removeFromRoot hroot
      have hempty : t₁.emptyRoot = none := by
        refine h₁.emptyRoot.resolve_right fun habsent => ?_
        rw [habsent] at hn
        cases hn
      refine h₁.write hempty (htrim.cached (hn.cached h₁.tidy)) fun x => ?_
      rw [hn.cids x, htrim.cids x, List.count_append]
      omega

/-- What a flush of a tree does that succeeds. -/
structure FlushedTo (t : DetachedTree) (w : TreeWrite) (t' : DetachedTree) : Prop where
  flush : t.flush = (.ok w, t')
  poisoned : t'.poisoned = false
  alike : Alike t.root t'.root
  clean : t'.root.Clean
  released : t'.released = []
  emptyRoot : t'.emptyRoot = if t'.root.isAbsent then some emptyNodeBlock.1 else none
  root : w.root = t'.root.writtenLink.getD emptyNodeBlock.1
  counted : Counted t'.refs (t'.root.cids ++ t'.emptyRoot.toList)
  newBlocks : ∀ p ∈ w.newBlocks, p.1 = Cid.compute .drisl p.2
  written : ∀ p ∈ t.written, t.refs p.1 ≠ none ∨ p.1 ∈ w.newBlocks.map Prod.fst
  grows : ∀ c, t'.refs c ≠ none → t.refs c ≠ none ∨ c ∈ w.newBlocks.map Prod.fst
  retires : ∀ c, t.refs c ≠ none → t'.refs c ≠ none ∨ c ∈ w.retired

omit [Hashing] in
/-- The counts before and after a flush differ in the blocks that are new and those retired. -/
theorem counts_of_settle {refs refs' : Refs} {kept released : List Cid} {out : List (Cid × Bytes)}
    {w : TreeWrite} (hold : Counted refs (kept ++ released))
    (hnew : Counted refs' (kept ++ out.map Prod.fst))
    (hall : ∀ p ∈ out, p.1 ∉ kept ++ released → ∃ q ∈ w.newBlocks, q.1 = p.1)
    (hretired : ∀ c, c ∈ w.retired ↔ c ∈ released ∧ c ∉ kept ∧ c ∉ out.map Prod.fst) :
  (∀ p ∈ out, refs p.1 ≠ none ∨ p.1 ∈ w.newBlocks.map Prod.fst)
    ∧ (∀ c, refs' c ≠ none → refs c ≠ none ∨ c ∈ w.newBlocks.map Prod.fst)
    ∧ ∀ c, refs c ≠ none → refs' c ≠ none ∨ c ∈ w.retired
  := by
  have hwritten : ∀ p ∈ out, refs p.1 ≠ none ∨ p.1 ∈ w.newBlocks.map Prod.fst := by
    intro p hp
    rw [hold.linked]
    by_cases hmem : p.1 ∈ kept ++ released
    · exact .inl hmem
    · obtain ⟨q, hq, heq⟩ := hall p hp hmem
      exact .inr (heq ▸ List.mem_map_of_mem hq)
  refine ⟨hwritten, ?_, ?_⟩
  · intro c hc
    rcases List.mem_append.mp ((hnew.linked c).mp hc) with hmem | hmem
    · exact .inl ((hold.linked c).mpr (List.mem_append_left _ hmem))
    · obtain ⟨p, hp, rfl⟩ := List.mem_map.mp hmem
      exact hwritten p hp
  · intro c hc
    rw [hnew.linked, hretired]
    rw [hold.linked, List.mem_append] at hc
    by_cases hmem : c ∈ kept ++ out.map Prod.fst
    · exact .inl hmem
    · rw [List.mem_append, not_or] at hmem
      exact .inr ⟨hc.resolve_left hmem.1, hmem⟩

theorem Sound.flush_absent (h : t.Sound) (hp : t.poisoned = false) (hroot : t.root = .absent) :
  ∃ w t', t.FlushedTo w t'
  := by
  have hcounted := h.counted
  rw [hroot] at hcounted
  have hwritten : t.written = [emptyNodeBlock] := by
    rw [DetachedTree.written, if_pos (Child.isAbsent_iff.mpr hroot)]
  obtain ⟨w, refs, hsettle, hw, hcounted', hnew, hall, hretired⟩ :=
    @settle_counted { t with released := t.released ++ t.emptyRoot.toList,
                             emptyRoot := some emptyNodeBlock.1 }
      [emptyNodeBlock] emptyNodeBlock.1 [] hcounted
  obtain ⟨hblocks, hgrows, hretires⟩ := counts_of_settle hcounted hcounted' hall hretired
  refine ⟨w, { t with released := [], emptyRoot := some emptyNodeBlock.1, refs }, ?_, hp,
    Alike.refl _, ?_, rfl, ?_, ?_, ?_, ?_, ?_, hgrows, hretires⟩
  · rw [DetachedTree.flush, if_neg (by simp [hp]), if_pos (Child.isAbsent_iff.mpr hroot)]
    exact hsettle
  · rw [hroot]
    trivial
  · rw [hroot]
    rfl
  · rw [hw, hroot]
    rfl
  · rw [hroot]
    exact hcounted'
  · intro p hmem
    rw [List.mem_singleton.mp (hnew p hmem).1]
    rfl
  · rw [hwritten]
    exact hblocks

theorem Sound.flush_present (h : t.Sound) (hp : t.poisoned = false) (hroot : t.root ≠ .absent) :
  ∃ w t', t.FlushedTo w t'
  := by
  obtain ⟨root, out, hwrite, hrel, -⟩ := writeNode_ok t.root
  have hwritten : t.written = out := by
    rw [DetachedTree.written, if_neg (mt Child.isAbsent_iff.mp hroot), hwrite]
  have hpresent : root ≠ .absent := mt hrel.absent_iff.mp hroot
  obtain ⟨cid, hcid⟩ : ∃ cid, t.root.writtenLink = some cid := by
    cases hr : t.root with
    | absent => exact absurd hr hroot
    | stub cid n => exact ⟨cid, rfl⟩
    | node tag n b => exact ⟨_, rfl⟩
  have hlink := hrel.link
  rw [hcid] at hlink
  have hempty : t.emptyRoot = none := h.emptyRoot.resolve_right hroot
  have hcounted := h.counted
  rw [hempty, Option.toList_none, List.append_nil] at hcounted
  obtain ⟨w, refs, hsettle, hw, hcounted', hnew, hall, hretired⟩ :=
    @settle_counted { t with root } out cid t.root.cids hcounted
  obtain ⟨hblocks, hgrows, hretires⟩ := counts_of_settle hcounted hcounted' hall hretired
  refine ⟨w, { t with root, refs, released := [] }, ?_, hp, hrel.alike,
    hrel.clean_of_tidy h.tidy, rfl, ?_, ?_, ?_, ?_, ?_, hgrows, hretires⟩
  · rw [DetachedTree.flush, if_neg (by simp [hp]), if_neg (mt Child.isAbsent_iff.mp hroot), hwrite]
    simp only [hlink]
    exact hsettle
  · rw [if_neg (mt Child.isAbsent_iff.mp hpresent)]
    exact hempty
  · rw [hw, ← hrel.alike.writtenLink, hcid]
    rfl
  · rw [hempty]
    apply hcounted'.perm
    rw [List.perm_iff_count]
    intro x
    have hx := hrel.cids x
    simp only [List.count_append, Option.toList_none, List.append_nil]
    omega
  · intro p hmem
    exact hrel.hashed p (hnew p hmem).1
  · rw [hwritten]
    exact hblocks

/-- A flush of a sound tree succeeds. -/
theorem Sound.flush (h : t.Sound) (hp : t.poisoned = false) :
  ∃ w t', t.FlushedTo w t'
  := by
  by_cases hroot : t.root = .absent
  · exact h.flush_absent hp hroot
  · exact h.flush_present hp hroot

/-- A flush leaves a sound tree. -/
theorem FlushedTo.sound {w : TreeWrite} (h : t.FlushedTo w t') :
  t'.Sound
  := by
  refine ⟨?_, ?_, h.clean.tidy⟩
  · rw [h.released]
    exact h.counted
  · rw [h.emptyRoot]
    split
    · rename_i hroot
      exact .inr (Child.isAbsent_iff.mp hroot)
    · exact .inl rfl

/-- A tree and what a flush leaves of it are in lockstep, but for the blocks that are new and those
that are retired. -/
theorem FlushedTo.lockstep {w : TreeWrite} (h : t.FlushedTo w t') (hsound : t.Sound)
    (hp : t.poisoned = false) :
  Lockstep (w.newBlocks.map Prod.fst ++ w.retired) t t'
  := by
  refine ⟨h.poisoned.trans hp.symm, h.alike, ?_⟩
  intro c hc
  rw [List.mem_append, not_or] at hc
  rw [hsound.counted.pos, h.counted.pos]
  exact ⟨fun hold => (h.retires c hold).resolve_right hc.2,
    fun hnew => (h.grows c hnew).resolve_right hc.1⟩

/-- A flush leaves the same of two trees in lockstep, and returns the same root. -/
theorem FlushedTo.unique {X : List Cid} {u u' : DetachedTree} {w v : TreeWrite}
    (h : t.FlushedTo w t') (h' : u.FlushedTo v u') (hlock : Lockstep X t u) :
  t' = u' ∧ w.root = v.root
  := by
  have halike := (h.alike.symm.trans hlock.root).trans h'.alike
  have hroot : t'.root = u'.root := halike.eq_of_clean h.clean h'.clean
  have hempty : t'.emptyRoot = u'.emptyRoot := by
    rw [h.emptyRoot, h'.emptyRoot, hroot]
  have hcounted := h.counted
  rw [hroot, hempty] at hcounted
  have hrefs : t'.refs = u'.refs := hcounted.unique h'.counted
  constructor
  · cases t'
    cases u'
    have hreleased := h.released.trans h'.released.symm
    have hpoisoned := h.poisoned.trans h'.poisoned.symm
    cases hroot
    cases hempty
    cases hrefs
    cases hreleased
    cases hpoisoned
    rfl
  · rw [h.root, h'.root, hroot]

end DetachedTree

end Shrike.Mst
