import Shrike.Mst.Success

/-!
# Operations of a tree succeed when its blocks are available

A tree over a flushed tree answers a lookup, takes an insert or a remove, and lists its
entries, when the source has the blocks of the nodes concerned.
-/

namespace Shrike.Mst

open Holed

theorem Body.search_setChildAt (key : Key) (c : Child) :
  ∀ (b : Body) (i : ℕ), (b.setChildAt c i).search key = b.search key
  | .edge _, _ => rfl
  | .entry _ _ _ _, 0 => rfl
  | .entry _ k _ rest, i + 1 => by
      rw [setChildAt, search, search, Body.search_setChildAt key c rest i]

variable [Hashing]

/-- Once the path of a key is loaded, the search for the key ends among the loaded
nodes. -/
theorem visitKeyPath_find {src : BlockSource} {key : Key} {visit : Visit} :
  ∀ {fuel : ℕ} {refs refs' : Refs} {n n' : Child} {top : Bool} {pl : Place},
    visitKeyPath src key visit fuel refs n top pl = (.ok [], n', refs') →
    ∃ a, n'.find key = .inl a
  | 0, _, _, _, _, _, _, heq => by cases heq
  | fuel + 1, refs, refs', n, n', top, pl, heq => by
      rw [visitKeyPath] at heq
      split at heq
      · cases heq
      · cases heq
      · rename_i cid h body refs₁ hload
        split at heq
        · rename_i hsearch
          cases heq
          obtain ⟨v, -, hfind⟩ := Body.find_of_hit hsearch
          exact ⟨some v, hfind⟩
        · rename_i i hsearch
          rcases hvisit : visitMerge src fuel refs₁ (body.childAt i pl) (body.childAt (i + 1) pl)
            (top && decide (body.size = 1)) with ⟨res, l, r, refs₂⟩
          rw [hvisit] at heq
          cases heq
          have hsearch' : ((body.setChildAt l i).setChildAt r (i + 1)).search key = (true, i) := by
            rw [Body.search_setChildAt, Body.search_setChildAt, hsearch]
          obtain ⟨v, -, hfind⟩ := Body.find_of_hit hsearch'
          exact ⟨some v, hfind⟩
        · rename_i visit' _ _ i hsearch
          dsimp only at heq
          split at heq
          · rename_i hchild
            cases heq
            use none
            rw [Child.find, (Body.find_of_miss hsearch .absent pl).1, Child.isAbsent_iff.mp hchild]
            rfl
          · rcases hvisit : visitKeyPath src key visit' fuel refs₁ (body.childAt i pl).1
              (top && decide (body.size = 0)) (body.childAt i pl).2 with ⟨res, child, refs₂⟩
            rw [hvisit] at heq
            cases heq
            obtain ⟨a, hfind⟩ := visitKeyPath_find hvisit
            use a
            rw [Child.find, (Body.find_of_miss hsearch child pl).2, hfind]
      · rename_i hnode hload
        cases heq
        cases n' with
        | absent => exact ⟨none, rfl⟩
        | stub cid h => exact absurd rfl (load_ne_stub hload cid h)
        | node cid h body => exact absurd rfl (hnode cid h body)

/-! ### The root -/

section Tracks

variable {F : Child} {m : Key → Option Cid} {t : DetachedTree} {src : BlockSource}

theorem Tracks.ordered (h : Tracks F m t) :
  Ordered .root (t.full F).items
  := ordered_of_maps h.sorted h.maps h.valid

theorem Tracks.nodup (h : Tracks F m t) :
  ((t.full F).cids ++ (t.released ++ t.emptyRoot.toList)).Nodup
  := h.carried.nodup_iff.mpr h.ground.nodup

/-- A root with entries can be read on. -/
theorem Tracks.ready (h : Tracks F m t) {cid : Option Cid} {hh : ℕ} {b : Body}
    (hroot : t.root = .node cid hh b) (hentry : b.HasEntry) (hb : b.Shaped (Known F) hh) :
  Ready F .root (hh + 1) t.refs (t.released ++ t.emptyRoot.toList) t.root ∧ hh ≤ 128
  := by
  have hle : hh ≤ 128 := by
    obtain ⟨c, k, v, rest, rfl⟩ := hentry
    rw [← hb.2.1]
    apply heightForKey_le
  constructor
  · refine ⟨?_, h.ordered, h.nodup, h.counted, ?_⟩
    · rw [hroot]
      exact ⟨rfl, hb, hentry.nonempty⟩
    · show 0 + (hh + 1) ≤ 128 + 1
      omega
  · apply hle

/-- An unread root is loaded, if its block is held. -/
theorem Tracks.load_root (h : Tracks F m t) {x : Cid} {h₀ : ℕ} (hroot : t.root = .stub x h₀)
    (hheld : ∀ q ∈ (t.full F).parts .root, q.1 = .root → Held src F q.2.1) :
  ∃ hh b refs, load src t.refs t.root .root = (.ok none, .node (some x) hh b, refs)
  := by
  have hrooted := h.rooted
  rw [hroot] at hrooted
  cases hrooted with
  | @unread _ hh b hknown hb =>
      have hfull : t.full F = .node (some x) hh b := by
        rw [DetachedTree.full, hroot, Child.fill, hknown]
      have hnodup := h.nodup
      have hordered := h.ordered
      have hcounted := h.counted
      rw [hfull] at hnodup hordered hheld
      rw [hroot] at hcounted
      obtain ⟨hb', hfresh⟩ := hcounted.below hnodup
      have hheldx : Held src F x := by
        apply hheld (.root, x, hh, b) _ rfl
        simp [Child.parts]
      obtain ⟨refs, hload⟩ := (@Ground.load_ok _ _ _ h.ground .root t.refs _ _ 0) hheldx
        hknown (hb.imp_right fun h => h.1.symm) (Nat.zero_le _) hordered.admitted hb'
        hfresh
      rw [hroot]
      exact ⟨hh, b.stubbed, refs, hload⟩

/-- The root of a tree is loaded, if its block is held, and is then empty or can be read
on. -/
theorem Tracks.loaded (h : Tracks F m t) (hsrc : Faithful src F) (hroot : t.root ≠ .absent)
    (hheld : ∀ q ∈ (t.full F).parts .root, q.1 = .root → Held src F q.2.1) :
  ∃ cid hh b refs, load src t.refs t.root .root = (.ok none, .node cid hh b, refs)
    ∧ (Child.node cid hh b).fill (knownNode F) = t.full F
    ∧ (b = .edge .absent ∨ hh + 1 < t.root.reach
      ∧ Ready F .root (hh + 1) refs (t.released ++ t.emptyRoot.toList) (.node cid hh b))
  := by
  have hnode : ∃ cid hh b refs, load src t.refs t.root .root = (.ok none, .node cid hh b, refs) := by
    cases hcase : t.root with
    | absent => exact absurd hcase hroot
    | node cid hh b => exact ⟨cid, hh, b, t.refs, rfl⟩
    | stub x h₀ =>
        obtain ⟨hh, b, refs, hload⟩ := h.load_root hcase hheld
        rw [hcase] at hload
        exact ⟨some x, hh, b, refs, hload⟩
  obtain ⟨cid, hh, b, refs, hload⟩ := hnode
  have ht := @load_traversed _ src .root t.refs t.root
  rw [hload] at ht
  have h₁ := h.reading hsrc (Reading.of_traversed ht)
  obtain ⟨hrooted, hfill⟩ := h.rooted.loads h.ground hsrc ht.loads
  refine ⟨cid, hh, b, refs, hload, hfill, ?_⟩
  cases hrooted with
  | empty => exact .inl rfl
  | node hentry hb =>
      right
      obtain ⟨hready, hle⟩ := h₁.ready rfl hentry hb
      refine ⟨?_, hready⟩
      rw [Child.reach, maxLevels]
      omega

omit [Hashing] in
theorem held_root (hheld : ∀ q ∈ (t.full F).parts .root, q.1.touches key → Held src F q.2.1) :
  ∀ q ∈ (t.full F).parts .root, q.1 = .root → Held src F q.2.1
  := by
  intro q hq hroot
  apply hheld q hq
  rw [hroot]
  apply Place.touches_root

variable {key : Key}

/-- A lookup of a key succeeds. -/
theorem Tracks.getNode (h : Tracks F m t) (hsrc : Faithful src F) (hroot : t.root ≠ .absent)
    (hheld : ∀ q ∈ (t.full F).parts .root, q.1.touches key → Held src F q.2.1) :
  ∃ a root refs, getNode src key t.root.reach t.refs t.root .root = (.ok a, root, refs)
  := by
  obtain ⟨cid, hh, b, refs, hload, hfill, hcase⟩ := h.loaded hsrc hroot (held_root hheld)
  have hsame : Mst.getNode src key t.root.reach t.refs t.root .root
      = Mst.getNode src key t.root.reach refs (.node cid hh b) .root := by
    rw [Child.reach]
    rw [Mst.getNode, Mst.getNode, ensureLoaded, hload]
    rfl
  rw [hsame]
  rcases hcase with rfl | ⟨hfuel, hready⟩
  · exact ⟨none, _, _, rfl⟩
  · apply hready.getNode h.ground hsrc (by simp) hfuel (Place.touches_root key)
    rw [hfill]
    apply hheld

/-- Loading the path of a key succeeds. -/
theorem Tracks.visitKeyPath (h : Tracks F m t) (hsrc : Faithful src F) (visit : Visit)
    (hroot : t.root ≠ .absent)
    (hheld : ∀ q ∈ (t.full F).parts .root, q.1.touches key → Held src F q.2.1) :
  ∃ root refs, visitKeyPath src key visit t.root.reach t.refs t.root true .root
    = (.ok [], root, refs)
  := by
  obtain ⟨cid, hh, b, refs, hload, hfill, hcase⟩ := h.loaded hsrc hroot (held_root hheld)
  have hsame : Mst.visitKeyPath src key visit t.root.reach t.refs t.root true .root
      = Mst.visitKeyPath src key visit t.root.reach refs (.node cid hh b) true .root := by
    rw [Child.reach]
    rw [Mst.visitKeyPath, Mst.visitKeyPath, hload]
    rfl
  rw [hsame]
  rcases hcase with rfl | ⟨hfuel, hready⟩
  · exact ⟨_, _, rfl⟩
  · apply hready.visitKeyPath h.ground hsrc visit true (by simp) hfuel (Place.touches_root key)
    rw [hfill]
    apply hheld

/-! ### The operations -/

/-- A lookup returns the value, if the nodes whose places touch the key are held. -/
theorem Tracks.get_ok (h : Tracks F m t) (hsrc : Faithful src F)
    (hheld : ∀ q ∈ (t.full F).parts .root, q.1.touches key → Held src F q.2.1) :
  (t.get src key).1 = .ok (m key)
  := by
  have hok : ∃ a t', t.get src key = (.ok a, t') := by
    rw [DetachedTree.get, h.usable, if_neg Bool.false_ne_true]
    split
    · exact ⟨_, _, rfl⟩
    · rename_i hroot
      obtain ⟨a, root, refs, hget⟩ := h.getNode hsrc (mt Child.isAbsent_iff.mpr hroot) hheld
      rw [hget]
      exact ⟨_, _, rfl⟩
  obtain ⟨a, t', hget⟩ := hok
  rw [hget, ← h.get hsrc hget]

/-- The path of a key is loaded, if the nodes whose places touch the key are held. -/
theorem Tracks.loadKeyPath (h : Tracks F m t) (hsrc : Faithful src F) (visit : Visit)
    (hheld : ∀ q ∈ (t.full F).parts .root, q.1.touches key → Held src F q.2.1) :
  ∃ a t', t.loadKeyPath src key visit = (.ok a, t')
  := by
  rw [DetachedTree.loadKeyPath]
  split
  · exact ⟨_, _, rfl⟩
  · rename_i hroot
    obtain ⟨root, refs, hvisit⟩ := h.visitKeyPath hsrc visit (mt Child.isAbsent_iff.mpr hroot) hheld
    obtain ⟨a, hfind⟩ := visitKeyPath_find hvisit
    have hget := (@getNode_loaded _ noBlocks _ _ root.reach refs _ .root)
      hfind (by rw [Child.reach, maxLevels]; omega)
    rw [hvisit]
    dsimp only
    rcases hres : Mst.getNode noBlocks key root.reach refs root .root with ⟨r, root', refs'⟩
    rw [hres] at hget
    obtain rfl : r = .ok a := hget
    exact ⟨_, _, rfl⟩

/-- An insert of a valid key returns the value it replaces, if the nodes whose places touch
the key are held. -/
theorem Tracks.insert_ok (h : Tracks F m t) (hsrc : Faithful src F) (val : Cid)
    (hkey : isValidKey key = true)
    (hheld : ∀ q ∈ (t.full F).parts .root, q.1.touches key → Held src F q.2.1) :
  (t.insert src key val).1 = .ok (m key)
  := by
  obtain ⟨a, t₁, hload⟩ := h.loadKeyPath hsrc .lookup hheld
  have hfind := DetachedTree.loadKeyPath_find hload
  have hok : ∃ a t', t.insert src key val = (.ok a, t') := by
    rw [DetachedTree.insert, h.usable, if_neg Bool.false_ne_true, hkey, Bool.not_true,
      if_neg Bool.false_ne_true, hload]
    cases a with
    | some prev =>
        dsimp only
        split
        · exact ⟨_, _, rfl⟩
        · obtain ⟨⟨root, released⟩, hupdate⟩ := (@updateNode_ok _ val) hfind
          rw [hupdate]
          exact ⟨_, _, rfl⟩
    | none =>
        obtain ⟨⟨root, released⟩, hinsert⟩ := (@insertNode_ok _ val
          (heightForKey key)) hfind
        dsimp only
        rw [hinsert]
        exact ⟨_, _, rfl⟩
  obtain ⟨b, t', hinsert⟩ := hok
  rw [hinsert, ← (h.insert hsrc hinsert).1]

/-- A remove returns the value it takes out, if the nodes whose places touch the key are
held. -/
theorem Tracks.remove_ok (h : Tracks F m t) (hsrc : Faithful src F)
    (hheld : ∀ q ∈ (t.full F).parts .root, q.1.touches key → Held src F q.2.1) :
  (t.remove src key).1 = .ok (m key)
  := by
  obtain ⟨a, t₁, hload⟩ := h.loadKeyPath hsrc .remove hheld
  have hok : ∃ a t', t.remove src key = (.ok a, t') := by
    rw [DetachedTree.remove, h.usable, if_neg Bool.false_ne_true, hload]
    cases a with
    | none => exact ⟨_, _, rfl⟩
    | some v =>
        obtain ⟨root, val, released, hremove⟩ := DetachedTree.removeFromRoot_ok hload
        dsimp only
        rw [hremove]
        exact ⟨_, _, rfl⟩
  obtain ⟨b, t', hremove⟩ := hok
  rw [hremove, ← (h.remove hsrc hremove).1]

end Tracks

end Shrike.Mst
