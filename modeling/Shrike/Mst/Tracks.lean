import Shrike.Mst.Rooted

/-!
# The invariant of a tree between flushes

A usable tree in memory over the tree that was flushed or loaded last: what it contains,
what its nodes' CIDs stand for, and which CIDs it carries and has given up. Reading,
inserting and removing keep it.
-/

namespace Shrike.Mst

open Holed

mutual

/-- The nodes below a node of a tree are nodes of the tree. -/
theorem Child.nodes_sub {x : Cid} {h : ℕ} {b : Body} :
  ∀ {c : Child}, (x, h, b) ∈ c.nodes → ∀ n ∈ b.nodes, n ∈ c.nodes
  | .absent, hmem, _, _ => by cases hmem
  | .stub _ _, hmem, _, _ => by cases hmem
  | .node cid h' b', hmem, n, hn => by
      rw [Child.nodes, List.mem_append] at hmem
      rw [Child.nodes, List.mem_append]
      rcases hmem with hmem | hmem
      · obtain ⟨y, hy, heq⟩ := List.mem_map.mp hmem
        cases heq
        exact .inr hn
      · exact .inr (Body.nodes_sub hmem n hn)

theorem Body.nodes_sub {x : Cid} {h : ℕ} {b : Body} :
  ∀ {b' : Body}, (x, h, b) ∈ b'.nodes → ∀ n ∈ b.nodes, n ∈ b'.nodes
  | .edge _, hmem, n, hn => Child.nodes_sub hmem n hn
  | .entry c k v rest, hmem, n, hn => by
      rw [Body.nodes, List.mem_append] at hmem ⊢
      rcases hmem with hmem | hmem
      · exact .inl (Child.nodes_sub hmem n hn)
      · exact .inr (Body.nodes_sub hmem n hn)

end

/-- A tree has a node with the given CID and contents. -/
def InTree (F : Child) (x : Cid) (b : Body) : Prop := ∃ h, (x, h, b) ∈ F.nodes

mutual

/-- The nodes of a part of a tree are in the tree. -/
theorem Child.cached_inTree {F : Child} :
  ∀ {c : Child}, (∀ n ∈ c.nodes, n ∈ F.nodes) → c.Cached (InTree F)
  | .absent, _ => trivial
  | .stub _ _, _ => trivial
  | .node cid h b, hsub => by
      constructor
      · rintro x hx
        use h
        apply hsub
        rw [Child.nodes, List.mem_append]
        exact .inl (List.mem_map.mpr ⟨x, Option.mem_toList.mpr hx, rfl⟩)
      · apply Body.cached_inTree
        intro n hn
        apply hsub n (List.mem_append_right _ hn)

theorem Body.cached_inTree {F : Child} :
  ∀ {b : Body}, (∀ n ∈ b.nodes, n ∈ F.nodes) → b.Cached (InTree F)
  | .edge _, hsub => Child.cached_inTree hsub
  | .entry _ _ _ _, hsub =>
      ⟨Child.cached_inTree fun n hn => hsub n (List.mem_append_left _ hn),
        Body.cached_inTree fun n hn => hsub n (List.mem_append_right _ hn)⟩

end

mutual

theorem Child.Cached.nodes {P : Cid → Body → Prop} {x : Cid} {h : ℕ} {b : Body} :
  ∀ {c : Child}, c.Cached P → (x, h, b) ∈ c.nodes → P x b
  | .absent, _, hmem => by cases hmem
  | .stub _ _, _, hmem => by cases hmem
  | .node cid h' b', ⟨hcid, hb⟩, hmem => by
      rw [Child.nodes, List.mem_append] at hmem
      rcases hmem with hmem | hmem
      · obtain ⟨y, hy, heq⟩ := List.mem_map.mp hmem
        cases heq
        apply hcid x (Option.mem_toList.mp hy)
      · apply hb.nodes hmem

theorem Body.Cached.nodes {P : Cid → Body → Prop} {x : Cid} {h : ℕ} {b : Body} :
  ∀ {b' : Body}, b'.Cached P → (x, h, b) ∈ b'.nodes → P x b
  | .edge _, hc, hmem => Child.Cached.nodes hc hmem
  | .entry _ _ _ _, ⟨hc, hrest⟩, hmem => by
      rcases List.mem_append.mp hmem with hmem | hmem
      · apply hc.nodes hmem
      · apply hrest.nodes hmem

end

/-- The tree that a tree in memory stands for: its unread nodes are those of the flushed
tree. -/
def DetachedTree.full (F : Child) (t : DetachedTree) : Child := t.root.fill (knownNode F)

variable [Hashing]

/-- `Tracks F m t`: the tree `t` was flushed as `F`, or loaded from it, and contains the
entries of `m`. -/
structure Tracks (F : Child) (m : Key → Option Cid) (t : DetachedTree) : Prop where
  ground : Ground F
  usable : t.poisoned = false
  rooted : Rooted F t.root
  cached : (t.full F).Cached (InTree F)
  sorted : Sorted (t.full F).items
  maps : Maps (t.full F).items m
  valid : ∀ k, m k ≠ none → isValidKey k = true
  carried : ((t.full F).cids ++ (t.released ++ t.emptyRoot.toList)).Perm (F.nodes.map Prod.fst)
  counted : Counted t.refs (t.root.cids ++ (t.released ++ t.emptyRoot.toList))
  emptyRoot : t.emptyRoot = none ∨ t.root = .absent

section Tracks

variable {F : Child} {m : Key → Option Cid} {t t' : DetachedTree} {src : BlockSource}

theorem Tracks.whole (h : Tracks F m t) :
  Whole (t.full F)
  := h.rooted.whole h.ground

/-- Reading keeps the invariant. -/
theorem Tracks.reading (h : Tracks F m t) (hsrc : Faithful src F) (hr : Reading src t t') :
  Tracks F m t'
  := by
  obtain ⟨hrooted, hfill⟩ := h.rooted.loads h.ground hsrc hr.root.loads
  have hfull : t'.full F = t.full F := hfill
  constructor
  · apply h.ground
  · rw [hr.poisoned]
    apply h.usable
  · apply hrooted
  · rw [hfull]
    apply h.cached
  · rw [hfull]
    apply h.sorted
  · rw [hfull]
    apply h.maps
  · apply h.valid
  · rw [hfull, hr.released, hr.emptyRoot]
    apply h.carried
  · rw [hr.released, hr.emptyRoot]
    apply hr.root.counted _ h.counted
  · rw [hr.emptyRoot]
    refine h.emptyRoot.imp_right fun habsent => ?_
    have hloads := hr.root.loads
    rw [habsent] at hloads
    generalize t'.root = root at hloads
    cases hloads
    rfl

variable {key : Key} {a : Option Cid}

/-- What a search finds is what the tree contains. -/
theorem Tracks.find (h : Tracks F m t) (hfind : t.root.find key = .inl a) :
  a = m key
  := by
  apply h.maps.seek h.sorted
  rw [← Child.find_eq_seek key _ h.sorted]
  apply Child.find_fill hfind

/-- Giving up the node of the empty tree keeps the invariant. -/
theorem Tracks.dropEmptyRoot (h : Tracks F m t) :
  Tracks F m t.dropEmptyRoot ∧ t.dropEmptyRoot.emptyRoot = none
    ∧ t.dropEmptyRoot.root = t.root
  := by
  rw [DetachedTree.dropEmptyRoot]
  split
  · refine ⟨⟨h.ground, h.usable, h.rooted, h.cached, h.sorted, h.maps, h.valid, ?_, ?_, .inl rfl⟩,
      rfl, rfl⟩
    · rw [Option.toList_none, List.append_nil]
      apply h.carried
    · rw [Option.toList_none, List.append_nil]
      apply h.counted
  · rename_i hroot
    exact ⟨h, h.emptyRoot.resolve_right (mt Child.isAbsent_iff.mpr hroot), rfl⟩

/-- A change of the tree that gives up the CIDs it stops carrying keeps the invariant. -/
theorem Tracks.write (h : Tracks F m t) (hempty : t.emptyRoot = none) {root : Child}
    {released : List Cid} {m' : Key → Option Cid} (hrooted : Rooted F root)
    (hcached : (root.fill (knownNode F)).Cached (InTree F))
    (hsorted : Sorted (root.fill (knownNode F)).items)
    (hmaps : Maps (root.fill (knownNode F)).items m')
    (hvalid : ∀ k, m' k ≠ none → isValidKey k = true)
    (hfull : ∀ x, (t.full F).cids.count x
      = (root.fill (knownNode F)).cids.count x + released.count x)
    (hroot : ∀ x, t.root.cids.count x = root.cids.count x + released.count x) :
  Tracks F m' { t with root, released := t.released ++ released }
  where
  ground := h.ground
  usable := h.usable
  rooted := hrooted
  cached := hcached
  sorted := hsorted
  maps := hmaps
  valid := hvalid
  carried := by
    apply List.Perm.trans _ h.carried
    rw [List.perm_iff_count]
    intro x
    have hx := hfull x
    simp only [DetachedTree.full, List.count_append] at hx ⊢
    omega
  counted := by
    apply h.counted.perm
    rw [List.perm_iff_count]
    intro x
    have hx := hroot x
    simp only [List.count_append]
    omega
  emptyRoot := .inl hempty

omit [Hashing] in
theorem valid_update (hvalid : ∀ k, m k ≠ none → isValidKey k = true)
    (hkey : a ≠ none → isValidKey key = true) :
  ∀ k, Function.update m key a k ≠ none → isValidKey k = true
  := by
  intro k hk
  rcases eq_or_ne k key with rfl | hne
  · apply hkey
    rwa [Function.update_self] at hk
  · apply hvalid k
    rwa [Function.update_of_ne hne] at hk

/-- An insert that succeeds returns the old value and sets the new one. -/
theorem Tracks.insert (h : Tracks F m t) (hsrc : Faithful src F) {val : Cid}
    (hinsert : t.insert src key val = (.ok a, t')) :
  a = m key ∧ isValidKey key = true ∧ Tracks F (Function.update m key (some val)) t'
  := by
  rcases DetachedTree.insert_cases hinsert with ⟨e, he, -⟩ | ⟨-, hvalid, t₁, a', ha, hr, hfind, hcase⟩
  · cases he
  · cases ha
    have h₁ := h.reading hsrc hr
    have hkey := h₁.find hfind
    refine ⟨hkey, hvalid, ?_⟩
    rcases hcase with ⟨hsame, rfl⟩ | ⟨root, released, -, hupdate, rfl⟩
      | ⟨root, released, hnone, hput, rfl⟩
    · rw [hkey] at hsame
      rwa [← hsame, Function.update_eq_self]
    · have hupdate' := (@Update.fill (knownNode F)) hupdate
      have hempty : t₁.emptyRoot = none := by
        apply h₁.emptyRoot.resolve_right
        intro habsent
        rw [habsent] at hupdate
        cases hupdate
      apply h₁.write hempty (hupdate.rooted h₁.rooted) (hupdate'.cached h₁.cached)
        (hupdate'.updated.sorted h₁.sorted) (hupdate'.updated.maps h₁.sorted h₁.maps)
        (valid_update h.valid fun _ => hvalid) hupdate'.cids hupdate.cids
    · obtain ⟨h₂, hempty, hroot⟩ := h₁.dropEmptyRoot
      rw [← hroot] at hput
      have hput' := (@Insert.fill (knownNode F)) hput
      rw [hnone] at hkey
      have hinserted := hput'.inserted h₂.sorted (h₂.maps.not_mem_keys.mpr hkey.symm)
      apply h₂.write hempty (hput.rooted h₂.rooted) (hput'.cached h₂.cached)
        (hinserted.sorted h₂.sorted) (hinserted.maps h₂.maps)
        (valid_update h.valid fun _ => hvalid) hput'.cids hput.cids

/-- A remove that succeeds returns the old value and takes out the key. -/
theorem Tracks.remove (h : Tracks F m t) (hsrc : Faithful src F)
    (hremove : t.remove src key = (.ok a, t')) :
  a = m key ∧ Tracks F (Function.update m key none) t'
  := by
  rcases DetachedTree.remove_cases hremove with ⟨e, he, -⟩ | ⟨-, t₁, a', -, hr, hfind, hcase⟩
  · cases he
  · have h₁ := h.reading hsrc hr
    have hkey := h₁.find hfind
    rcases hcase with ⟨rfl, ha, rfl⟩ | ⟨val, root, removed, released, rfl, hroot, ha, rfl⟩
    · cases ha
      use hkey
      rwa [hkey, Function.update_eq_self]
    · cases ha
      obtain rfl := removeFromRoot_found hfind hroot
      use hkey
      obtain ⟨n, dropped, trimmed, hn, htrim, rfl⟩ := remove_trim_of_removeFromRoot hroot
      obtain ⟨hrooted, htrim'⟩ := hn.rooted h.ground htrim h₁.rooted
      have hn' := (@Remove.fill (knownNode F)) hn
      have hempty : t₁.emptyRoot = none := by
        apply h₁.emptyRoot.resolve_right
        intro habsent
        rw [habsent] at hn
        cases hn
      apply h₁.write hempty hrooted (htrim'.cached (hn'.cached h₁.cached))
      · rw [htrim'.items]
        apply hn'.removed.sorted h₁.sorted
      · rw [htrim'.items]
        apply hn'.removed.maps h₁.sorted h₁.maps
      · apply valid_update h.valid
        simp
      · intro x
        have hx := hn'.cids x
        have hx' := htrim'.cids x
        rw [DetachedTree.full, hx, hx', List.count_append]
        omega
      · intro x
        rw [hn.cids x, htrim.cids x, List.count_append]
        omega

/-- A lookup that succeeds returns the value. -/
theorem Tracks.get (h : Tracks F m t) (hsrc : Faithful src F) (hget : t.get src key = (.ok a, t')) :
  a = m key
  := by
  have hr := DetachedTree.get_reading t src key
  rw [hget] at hr
  apply (h.reading hsrc hr).find (DetachedTree.get_find hget)

end Tracks

end Shrike.Mst
