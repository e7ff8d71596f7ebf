import Shrike.Mst.Tracks

/-!
# Operations succeed

Over a flushed tree every stub can be read whose block the source has: it decodes, fits its
place, and no link in it has been counted. So an operation on a key succeeds when the source
has the blocks of the nodes whose places touch the key.
-/

namespace Shrike.Mst

open Holed Except

/-! ### The nodes of a tree and their places -/

mutual

/-- The nodes of a subtree that carry a CID, each with its place. -/
def Child.parts : Place → Child → List (Place × Cid × ℕ × Body)
  | _, .absent => []
  | _, .stub _ _ => []
  | pl, .node cid h body => cid.toList.map (fun x => (pl, x, h, body)) ++ body.parts pl

/-- The nodes in the contents of a node that carry a CID, each with its place. -/
def Body.parts : Place → Body → List (Place × Cid × ℕ × Body)
  | pl, .edge c => c.parts pl.below
  | pl, .entry c key _ rest => c.parts (pl.before key).below ++ rest.parts (pl.after key)

end

/-- Whether a key is in the range of a place or at an end of it. -/
def Place.touches (pl : Place) (key : Key) : Prop :=
  (∀ lo ∈ pl.lo, lo ≤ key) ∧ ∀ hi ∈ pl.hi, key ≤ hi

theorem Place.touches_root (key : Key) :
  Place.root.touches key
  := by
  constructor <;> (intro k hk; cases hk)

theorem Body.parts_childAt {q : Place × Cid × ℕ × Body} :
  ∀ {b : Body} {i : ℕ} {pl : Place}, q ∈ (b.childAt i pl).1.parts (b.childAt i pl).2 →
    q ∈ b.parts pl
  | .edge _, _, _, h => h
  | .entry _ _ _ _, 0, _, h => List.mem_append_left _ h
  | .entry _ _ _ rest, _ + 1, _, h => List.mem_append_right _ (Body.parts_childAt (b := rest) h)

theorem Body.search_touches {key : Key} :
  ∀ {b : Body} {i : ℕ} {pl : Place}, b.search key = (false, i) → pl.touches key →
    (b.childAt i pl).2.touches key
  | .edge _, _, _, _, h => h
  | .entry c k v rest, i, pl, hsearch, h => by
      rw [search] at hsearch
      split at hsearch
      · rename_i hk
        obtain ⟨hfound, rfl⟩ := Prod.mk.inj hsearch
        apply Body.search_touches (b := rest) (Prod.ext hfound rfl)
        exact ⟨fun lo hlo => by cases hlo; exact hk.le, h.2⟩
      · rename_i hk
        obtain ⟨-, rfl⟩ := Prod.mk.inj hsearch
        exact ⟨h.1, fun hi hhi => by cases hhi; exact not_lt.mp hk⟩

/-- The places beside an entry that a search hits end at its key. -/
theorem Body.search_hit_touches {key : Key} :
  ∀ {b : Body} {i : ℕ} {pl : Place}, b.search key = (true, i) → pl.touches key →
    (b.childAt i pl).2.hi = some key ∧ (b.childAt (i + 1) pl).2.lo = some key
      ∧ (b.childAt i pl).2.touches key
  | .edge _, _, _, hsearch, _ => by cases hsearch
  | .entry c k v rest, i, pl, hsearch, h => by
      rw [search] at hsearch
      split at hsearch
      · rename_i hk
        obtain ⟨hfound, rfl⟩ := Prod.mk.inj hsearch
        apply Body.search_hit_touches (b := rest) (Prod.ext hfound rfl)
        exact ⟨fun lo hlo => by cases hlo; exact hk.le, h.2⟩
      · obtain ⟨hfound, rfl⟩ := Prod.mk.inj hsearch
        obtain rfl : k = key := of_decide_eq_true hfound
        refine ⟨rfl, ?_, h.1, fun hi hhi => by cases hhi; exact le_rfl⟩
        cases rest <;> rfl

theorem Body.depth_childAt :
  ∀ (b : Body) (i : ℕ) (pl : Place), (b.childAt i pl).1.depth ≤ b.depth
  | .edge _, _, _ => le_rfl
  | .entry _ _ _ _, 0, _ => le_max_left _ _
  | .entry _ k _ rest, i + 1, pl =>
      (Body.depth_childAt rest i (pl.after k)).trans (le_max_right _ _)

theorem Body.childAt_depth :
  ∀ (b : Body) (i : ℕ) (pl : Place), (b.childAt i pl).2.depth = pl.depth + 1
  | .edge _, _, _ => rfl
  | .entry _ _ _ _, 0, _ => rfl
  | .entry _ k _ rest, i + 1, pl => Body.childAt_depth rest i (pl.after k)

theorem Body.childAt_fill {known : Cid → Option (ℕ × Body)} :
  ∀ (b : Body) (i : ℕ) (pl : Place),
    (b.fill known).childAt i pl = ((b.childAt i pl).1.fill known, (b.childAt i pl).2)
  | .edge _, _, _ => rfl
  | .entry _ _ _ _, 0, _ => rfl
  | .entry _ k _ rest, i + 1, pl => Body.childAt_fill rest i (pl.after k)

theorem Body.childAt_ordered :
  ∀ {b : Body} {i : ℕ} {pl : Place}, Ordered pl b.items →
    Ordered (b.childAt i pl).2 (b.childAt i pl).1.items
  | .edge _, _, _, h => ordered_below.mpr h
  | .entry _ _ _ _, 0, _, h => (ordered_append.mp h).1
  | .entry _ _ _ rest, _ + 1, _, h => Body.childAt_ordered (b := rest) (ordered_append.mp h).2.2.2

mutual

theorem Child.cids_sublist_fill {known : Cid → Option (ℕ × Body)} :
  ∀ c : Child, c.cids.Sublist (c.fill known).cids
  | .absent => .refl _
  | .stub cid h => by
      rw [Child.fill]
      split
      · exact List.Sublist.cons_cons cid (List.nil_sublist _)
      · exact .refl _
  | .node _ _ b => List.Sublist.append (.refl _) b.cids_sublist_fill

theorem Body.cids_sublist_fill {known : Cid → Option (ℕ × Body)} :
  ∀ b : Body, b.cids.Sublist (b.fill known).cids
  | .edge c => c.cids_sublist_fill
  | .entry c _ _ rest => List.Sublist.append c.cids_sublist_fill rest.cids_sublist_fill

end

/-- The CIDs of a node, in memory and filled in, are those of one subtree and those of the
others. -/
theorem Body.cids_childAt_fill {known : Cid → Option (ℕ × Body)} (pl : Place) :
  ∀ (b : Body) (i : ℕ), ∃ others others', b.cids.Perm ((b.childAt i pl).1.cids ++ others)
    ∧ (b.fill known).cids.Perm (((b.childAt i pl).1.fill known).cids ++ others')
    ∧ others.Sublist others'
  | .edge c, _ => ⟨[], [], by simp [childAt, Body.cids], by simp [childAt, Body.fill, Body.cids],
      .refl _⟩
  | .entry c k v rest, 0 =>
      ⟨rest.cids, (rest.fill known).cids, .refl _, .refl _, rest.cids_sublist_fill⟩
  | .entry c k v rest, i + 1 => by
      obtain ⟨others, others', hmem, hfull, hsub⟩ :=
        @Body.cids_childAt_fill known (pl.after k) rest i
      refine ⟨c.cids ++ others, (c.fill known).cids ++ others', ?_, ?_,
        c.cids_sublist_fill.append hsub⟩
      · apply (hmem.append_left c.cids).trans
        apply List.perm_append_comm_assoc
      · apply (hfull.append_left (c.fill known).cids).trans
        apply List.perm_append_comm_assoc

/-- The CIDs of a node, in memory and filled in, are those of two neighbouring subtrees and
those of the others. -/
theorem Body.cids_pair_fill {known : Cid → Option (ℕ × Body)} :
  ∀ {b : Body} {i : ℕ} (pl : Place), i < b.size → ∃ others others',
    b.cids.Perm ((b.childAt i pl).1.cids ++ ((b.childAt (i + 1) pl).1.cids ++ others))
    ∧ (b.fill known).cids.Perm (((b.childAt i pl).1.fill known).cids
      ++ (((b.childAt (i + 1) pl).1.fill known).cids ++ others'))
    ∧ others.Sublist others'
  | .edge _, _, _, hi => absurd hi (Nat.not_lt_zero _)
  | .entry c k v rest, 0, pl, _ => by
      obtain ⟨others, others', hmem, hfull, hsub⟩ :=
        @Body.cids_childAt_fill known (pl.after k) rest 0
      exact ⟨others, others', hmem.append_left _, hfull.append_left _, hsub⟩
  | .entry c k v rest, i + 1, pl, hi => by
      obtain ⟨others, others', hmem, hfull, hsub⟩ :=
        @Body.cids_pair_fill known rest _ (pl.after k) (Nat.lt_of_succ_lt_succ hi)
      refine ⟨c.cids ++ others, (c.fill known).cids ++ others', ?_, ?_,
        c.cids_sublist_fill.append hsub⟩
      · rw [List.perm_iff_count] at hmem ⊢
        intro x
        have hx := hmem x
        simp only [Body.cids, childAt, List.count_append] at hx ⊢
        omega
      · rw [List.perm_iff_count] at hfull ⊢
        intro x
        have hx := hfull x
        simp only [Body.fill, Body.cids, childAt, List.count_append] at hx ⊢
        omega

mutual

/-- Filling in a tree keeps its keys. -/
theorem Child.keys_fill {known : Cid → Option (ℕ × Body)} :
  ∀ c : Child, (keys c.items).Sublist (keys (c.fill known).items)
  | .absent => .refl _
  | .stub _ _ => List.nil_sublist _
  | .node _ _ b => b.keys_fill

theorem Body.keys_fill {known : Cid → Option (ℕ × Body)} :
  ∀ b : Body, (keys b.items).Sublist (keys (b.fill known).items)
  | .edge c => c.keys_fill
  | .entry c k _ rest => by
      rw [Body.fill, Body.items, Body.items, keys_append, keys_append, keys_entry, keys_entry]
      apply List.Sublist.append c.keys_fill
      apply List.Sublist.cons_cons k rest.keys_fill

end

/-- The place of the last subtree touches a key above all entries. -/
theorem Body.last_touches {key : Key} :
  ∀ {b : Body} {pl : Place}, pl.touches key → (∀ k ∈ keys b.items, k ≤ key) →
    (b.childAt b.size pl).2.hi = pl.hi ∧ (b.childAt b.size pl).2.touches key
  | .edge _, _, h, _ => ⟨rfl, h⟩
  | .entry c k v rest, pl, h, hle => by
      have hk : k ≤ key := hle k (by simp [Body.items])
      have hrest : (pl.after k).touches key := ⟨fun lo hlo => by cases hlo; exact hk, h.2⟩
      apply Body.last_touches (b := rest) hrest
      intro x hx
      apply hle x
      simp [Body.items, hx]

/-- The place of the first subtree touches a key below all entries. -/
theorem Body.first_touches {key : Key} {b : Body} {pl : Place} (h : pl.touches key)
    (hge : ∀ k ∈ keys b.items, key ≤ k) :
  (b.childAt 0 pl).2.lo = pl.lo ∧ (b.childAt 0 pl).2.touches key
  := by
  cases b with
  | edge c => exact ⟨rfl, h⟩
  | entry c k v rest =>
      refine ⟨rfl, h.1, ?_⟩
      intro hi hhi
      cases hhi
      apply hge
      simp [Body.items]

/-- The place after an entry that a search hits touches its key. -/
theorem Body.search_hit_right {key : Key} :
  ∀ {b : Body} {i : ℕ} {pl : Place}, b.search key = (true, i) → pl.touches key →
    Sorted b.items → (b.childAt (i + 1) pl).2.touches key
  | .edge _, _, _, hsearch, _, _ => by cases hsearch
  | .entry c k v rest, i, pl, hsearch, h, hs => by
      obtain ⟨-, hrest, -, hgt⟩ := sorted_append.mp hs
      rw [search] at hsearch
      split at hsearch
      · rename_i hk
        obtain ⟨hfound, rfl⟩ := Prod.mk.inj hsearch
        apply Body.search_hit_right (b := rest) (Prod.ext hfound rfl) _ hrest
        exact ⟨fun lo hlo => by cases hlo; exact hk.le, h.2⟩
      · obtain ⟨hfound, rfl⟩ := Prod.mk.inj hsearch
        obtain rfl : k = key := of_decide_eq_true hfound
        apply (@Body.first_touches _ rest (pl.after k) _ fun x hx => (hgt x hx).le).2
        exact ⟨fun lo hlo => by cases hlo; exact le_rfl, h.2⟩

variable [Hashing]

theorem Body.childAt_shaped {known : Cid → ℕ → Prop} :
  ∀ {b : Body} {i h : ℕ} {pl : Place}, b.Shaped known h → (b.childAt i pl).1.Shaped known h
  | .edge _, _, _, _, h => h
  | .entry _ _ _ _, 0, _, _, h => h.1
  | .entry _ _ _ rest, _ + 1, _, _, h => Body.childAt_shaped (b := rest) h.2.2

/-! ### Reading a stub -/

/-- A block source has the block of a node of a tree, and it decodes. -/
def Held (src : BlockSource) (F : Child) (x : Cid) : Prop :=
  ∃ data nd, (x, data) ∈ F.blocks ∧ src x = .ok (some data) ∧ decodeNodeData data = .ok nd

omit [Hashing] in
/-- Links that are not counted yet, and of which no two are the same, are counted. -/
theorem countLinks_ok :
  ∀ {cs : List Cid} {refs : Refs}, (∀ c ∈ cs, refs c = none) → cs.Nodup →
    (countLinks refs cs).1 = none
  | [], _, _, _ => rfl
  | c :: cs, refs, hnone, hnodup => by
      obtain ⟨hnot, hnodup⟩ := List.nodup_cons.mp hnodup
      have hc : ¬ (refs c).getD 0 > 0 := by
        rw [hnone c List.mem_cons_self]
        simp
      rw [countLinks, if_neg hc]
      apply countLinks_ok _ hnodup
      intro x hx
      have hne : x ≠ c := fun heq => hnot (heq ▸ hx)
      rw [Function.update_of_ne hne]
      apply hnone x (List.mem_cons_of_mem c hx)

section Ready

variable {F : Child} {src : BlockSource}

/-- A stub of a known node is read, where its place admits its keys and nothing below it is
counted. -/
theorem Ground.load_ok (hF : Ground F) {pl : Place} {refs : Refs} {x : Cid} {h h₀ : ℕ} {b : Body}
    (hheld : Held src F x) (hknown : knownNode F x = some (h, b)) (hseed : b.HasEntry ∨ h₀ = h)
    (hdepth : pl.depth ≤ maxLevels) (hadmits : ∀ k ∈ keys b.items, pl.admits k = true)
    (hnodup : b.cids.Nodup) (hfresh : ∀ y ∈ b.cids, refs y = none) :
  ∃ refs', load src refs (.stub x h₀) pl = (.ok none, .node (some x) h b.stubbed, refs')
  := by
  obtain ⟨data, nd, hblock, hsrc, hdecode⟩ := hheld
  have hmem := List.mem_of_lookup hknown
  obtain ⟨pl', hb⟩ := hF.standing hmem
  obtain ⟨h', b', hmem', hdata⟩ := Child.mem_blocks.mp hblock
  obtain ⟨rfl, rfl⟩ := Prod.mk.inj (Option.some.inj ((hF.lookup hmem').symm.trans hknown))
  obtain ⟨left, links, hleft, hlinks, rfl⟩ := encodeNode_eq_ok hdata
  have hfits := compress_fits (fun e he => hb.ordered.valid e.1 (Body.links_keys hlinks e he)) []
    (Nat.zero_le _)
  obtain ⟨rfl, -⟩ := (decodeNodeData_ok_iff hfits).mp hdecode
  have hpopulate := hb.populateNode_ok hleft hlinks hseed hadmits
  have hsub := @Body.cids_sublist_fill (knownNode F) b'.stubbed
  rw [(hF.stubbed_body hb (hF.sub hmem)).2, populateNode_cids hpopulate] at hsub
  have hcount := @countLinks_ok _ refs (fun c hc => hfresh c (hsub.subset hc))
    (hnodup.sublist hsub)
  rcases hlinks' : countLinks refs
    (NodeData.children { left, entries := compress [] links }) with ⟨twice, linked, refs'⟩
  rw [hlinks'] at hcount
  obtain rfl : twice = none := hcount
  use refs'
  rw [load, if_neg (Nat.not_lt.mpr hdepth), hsrc]
  simp only [hdecode, hlinks', hpopulate]

/-- A subtree over a flushed tree that can be read on: on its levels, in order at its place,
not too deep, with no CID carried twice, in it or elsewhere, and with the counts of those in
memory. -/
structure Ready (F : Child) (pl : Place) (n : ℕ) (refs : Refs) (rest : List Cid) (c : Child) :
    Prop where
  shaped : c.Shaped (Known F) n
  ordered : Ordered pl (c.fill (knownNode F)).items
  nodup : ((c.fill (knownNode F)).cids ++ rest).Nodup
  counted : Counted refs (c.cids ++ rest)
  depth : pl.depth + n ≤ maxLevels + 1

/-- The contents of a node over a flushed tree that can be read on. -/
structure ReadyBody (F : Child) (pl : Place) (h : ℕ) (refs : Refs) (rest : List Cid) (b : Body) :
    Prop where
  shaped : b.Shaped (Known F) h
  ordered : Ordered pl (b.fill (knownNode F)).items
  nodup : ((b.fill (knownNode F)).cids ++ rest).Nodup
  counted : Counted refs (b.cids ++ rest)
  depth : pl.depth + h ≤ maxLevels

variable {pl : Place} {n h : ℕ} {refs refs' : Refs} {rest : List Cid}

variable {h₀ i lh rh : ℕ}

omit [Hashing] in
/-- Nothing below a stub is counted. -/
theorem Counted.below {x : Cid} {b : Body}
    (hcounted : Counted refs ((Child.stub x h₀).cids ++ rest))
    (hnodup : ((Child.node (some x) h b).cids ++ rest).Nodup) :
  b.cids.Nodup ∧ ∀ y ∈ b.cids, refs y = none
  := by
  simp only [Child.cids, Option.toList_some, List.cons_append, List.nil_append, List.nodup_cons,
    List.nodup_append] at hnodup
  obtain ⟨hx, hb, -, hdisjoint⟩ := hnodup
  refine ⟨hb, fun y hy => ?_⟩
  rw [hcounted y, if_pos]
  apply List.count_eq_zero_of_not_mem
  simp only [Child.cids, List.singleton_append, List.mem_cons, not_or]
  refine ⟨?_, fun hrest => hdisjoint y hy y hrest rfl⟩
  rintro rfl
  exact hx (List.mem_append_left _ hy)

variable {c c' l' r' : Child}

/-- A traversal leaves what can be read on. -/
theorem Ready.traversed (hF : Ground F) (hsrc : Faithful src F)
    (hr : Ready F pl n refs rest c) (ht : Traversed src pl c refs c' refs') :
  Ready F pl n refs' rest c' ∧ c'.fill (knownNode F) = c.fill (knownNode F)
  := by
  obtain ⟨hshaped, hfill⟩ := hF.loads hsrc ht.loads hr.shaped
  refine ⟨⟨hshaped, ?_, ?_, ht.counted _ hr.counted, hr.depth⟩, hfill⟩
  · rw [hfill]
    apply hr.ordered
  · rw [hfill]
    apply hr.nodup

/-- A subtree that can be read on is loaded, if its block is held. -/
theorem Ready.load (hF : Ground F) (hsrc : Faithful src F)
    (hr : Ready F pl n refs rest c) (hc : c ≠ .absent)
    (hheld : ∀ x h b, c.fill (knownNode F) = .node (some x) h b → Held src F x) :
  ∃ cid h b refs', load src refs c pl = (.ok none, .node cid h b, refs')
    ∧ Ready F pl n refs' rest (.node cid h b)
    ∧ (Child.node cid h b).fill (knownNode F) = c.fill (knownNode F)
  := by
  cases c with
  | absent => exact absurd rfl hc
  | node cid h b => exact ⟨cid, h, b, refs, rfl, hr, rfl⟩
  | stub x h =>
      obtain ⟨hn, b, hknown, hne⟩ := hr.shaped
      have hfill : (Child.stub x h).fill (knownNode F) = .node (some x) h b := by
        rw [Child.fill, hknown]
      have hordered := hr.ordered
      have hnodup := hr.nodup
      have hdepth := hr.depth
      rw [hfill] at hordered hnodup
      obtain ⟨hb, hfresh⟩ := hr.counted.below hnodup
      obtain ⟨refs', hload⟩ := (@Ground.load_ok _ _ _ hF _ refs) (hheld x h b hfill) hknown (.inr rfl)
        (by omega) hordered.admitted hb hfresh
      have ht := @load_traversed _ src pl refs (.stub x h)
      rw [hload] at ht
      obtain ⟨hready, hfull⟩ := hr.traversed hF hsrc ht
      exact ⟨some x, h, b.stubbed, refs', hload, hready, hfull⟩

variable {cid lcid rcid : Option Cid}

theorem Ready.body {b : Body} (hr : Ready F pl n refs rest (.node cid h b)) :
  h + 1 = n ∧ ReadyBody F pl h refs (cid.toList ++ rest) b
  := by
  have hn := hr.shaped.1
  refine ⟨hn, hr.shaped.2.1, hr.ordered, ?_, ?_, ?_⟩
  · apply (List.Perm.nodup_iff _).mp hr.nodup
    rw [Child.fill, Child.cids, List.append_assoc]
    apply List.perm_append_comm_assoc
  · apply hr.counted.perm
    rw [Child.cids, List.append_assoc]
    apply List.perm_append_comm_assoc
  · have hdepth := hr.depth
    omega

theorem ReadyBody.child {b : Body} (hr : ReadyBody F pl h refs rest b) (i : ℕ) :
  ∃ others, Ready F (b.childAt i pl).2 h refs others (b.childAt i pl).1
  := by
  obtain ⟨others, others', hmem, hfull, hsub⟩ :=
    @Body.cids_childAt_fill (knownNode F) pl b i
  refine ⟨others ++ rest, ?_, ?_, ?_, ?_, ?_⟩
  · apply Body.childAt_shaped hr.shaped
  · have hordered := Body.childAt_ordered (i := i) hr.ordered
    rw [Body.childAt_fill] at hordered
    apply hordered
  · rw [← List.append_assoc]
    apply List.Nodup.sublist _ ((hfull.append_right rest).nodup_iff.mp hr.nodup)
    apply List.Sublist.append _ (.refl _)
    apply List.Sublist.append (.refl _) hsub
  · rw [← List.append_assoc]
    apply hr.counted.perm (hmem.append_right rest)
  · rw [Body.childAt_depth]
    have hdepth := hr.depth
    omega

omit [Hashing] in
/-- The nodes below a subtree of a node are below the node. -/
theorem parts_of_child {b : Body} {q : Place × Cid × ℕ × Body}
    (hq : q ∈ ((b.childAt i pl).1.fill (knownNode F)).parts (b.childAt i pl).2) :
  q ∈ ((Child.node cid h b).fill (knownNode F)).parts pl
  := by
  have hfill := @Body.childAt_fill (knownNode F) b i pl
  rw [Child.fill, Child.parts]
  apply List.mem_append_right
  apply Body.parts_childAt (i := i)
  rw [hfill]
  apply hq

omit [Hashing] in
theorem held_of_parts {key : Key} (hpl : pl.touches key)
    (hheld : ∀ q ∈ (c.fill (knownNode F)).parts pl, q.1.touches key → Held src F q.2.1) :
  ∀ x h b, c.fill (knownNode F) = .node (some x) h b → Held src F x
  := by
  intro x h b heq
  apply hheld (pl, x, h, b) _ hpl
  rw [heq]
  simp [Child.parts]

/-- A lookup succeeds, if the blocks of the nodes whose places touch the key are held. -/
theorem Ready.getNode (hF : Ground F) (hsrc : Faithful src F) {key : Key} :
  ∀ {fuel n : ℕ} {pl : Place} {refs : Refs} {rest : List Cid} {c : Child},
    Ready F pl n refs rest c → c ≠ .absent → n < fuel → pl.touches key →
    (∀ q ∈ (c.fill (knownNode F)).parts pl, q.1.touches key → Held src F q.2.1) →
    ∃ a c' refs', getNode src key fuel refs c pl = (.ok a, c', refs')
  | 0, n, _, _, _, _, _, _, hfuel, _, _ => absurd hfuel (Nat.not_lt_zero n)
  | fuel + 1, n, pl, refs, rest, c, hr, hc, hfuel, hpl, hheld => by
      obtain ⟨cid, h, b, refs₁, hload, hr₁, hfill⟩ := hr.load hF hsrc hc (held_of_parts hpl hheld)
      rw [← hfill] at hheld
      rw [Mst.getNode, ensureLoaded, hload]
      dsimp only
      split
      · exact ⟨_, _, _, rfl⟩
      · rename_i i hsearch
        split
        · exact ⟨_, _, _, rfl⟩
        · rename_i hchild
          obtain ⟨rfl, hbody⟩ := hr₁.body
          obtain ⟨others, hready⟩ := hbody.child i
          obtain ⟨a, c', refs₂, hget⟩ := (@Ready.getNode hF hsrc _ fuel) hready
            (mt Child.isAbsent_iff.mpr hchild) (by omega) (Body.search_touches hsearch hpl)
            (fun q hq => hheld q (parts_of_child hq))
          rw [hget]
          exact ⟨_, _, _, rfl⟩

/-- Loading the root chain succeeds. -/
theorem Ready.visitRootChain (hF : Ground F) (hsrc : Faithful src F) {key : Key} :
  ∀ {fuel n : ℕ} {pl : Place} {refs : Refs} {rest : List Cid} {c : Child} (chain : Bool),
    Ready F pl n refs rest c → n < fuel → pl.touches key →
    (∀ q ∈ (c.fill (knownNode F)).parts pl, q.1.touches key → Held src F q.2.1) →
    ∃ c' refs', visitRootChain src fuel refs c pl chain = (.ok [], c', refs')
  | 0, n, _, _, _, _, _, _, hfuel, _, _ => absurd hfuel (Nat.not_lt_zero n)
  | fuel + 1, n, pl, refs, rest, c, false, _, _, _, _ => ⟨c, refs, rfl⟩
  | fuel + 1, n, pl, refs, rest, c, true, hr, hfuel, hpl, hheld => by
      by_cases hc : c = .absent
      · subst hc
        exact ⟨.absent, refs, rfl⟩
      · obtain ⟨cid, h, b, refs₁, hload, hr₁, hfill⟩ := hr.load hF hsrc hc (held_of_parts hpl hheld)
        rw [← hfill] at hheld
        obtain ⟨rfl, hbody⟩ := hr₁.body
        obtain ⟨others, hready⟩ := hbody.child 0
        have hchild : ∃ c' refs', Mst.visitRootChain src fuel refs₁ (b.childAt 0 pl).1
            (b.childAt 0 pl).2 (decide (b.size = 0)) = (.ok [], c', refs') := by
          cases b with
          | edge d =>
              apply Ready.visitRootChain hF hsrc true hready (by omega) hpl
              intro q hq
              apply hheld q (parts_of_child hq)
          | entry d k v r =>
              obtain ⟨fuel, rfl⟩ := Nat.exists_eq_succ_of_ne_zero (by omega : fuel ≠ 0)
              exact ⟨_, _, rfl⟩
        rw [Mst.visitRootChain, Bool.not_true, if_neg Bool.false_ne_true, hload]
        dsimp only
        split
        · exact ⟨_, _, rfl⟩
        · obtain ⟨c', refs₂, hvisit⟩ := hchild
          rw [hvisit]
          exact ⟨_, _, rfl⟩

/-! ### Two subtrees that are merged -/

/-- Two subtrees over a flushed tree that can be read on. -/
structure ReadyPair (F : Child) (lpl rpl : Place) (n : ℕ) (refs : Refs) (rest : List Cid)
    (l r : Child) : Prop where
  left : Ready F lpl n refs (r.cids ++ rest) l
  right : Ready F rpl n refs (l.cids ++ rest) r
  nodup : ((l.fill (knownNode F)).cids ++ ((r.fill (knownNode F)).cids ++ rest)).Nodup

variable {lpl rpl : Place} {l r : Child}

theorem readyPair_mk (hl : l.Shaped (Known F) n) (hr : r.Shaped (Known F) n)
    (hol : Ordered lpl (l.fill (knownNode F)).items)
    (hor : Ordered rpl (r.fill (knownNode F)).items)
    (hnodup : ((l.fill (knownNode F)).cids ++ ((r.fill (knownNode F)).cids ++ rest)).Nodup)
    (hcounted : Counted refs (l.cids ++ (r.cids ++ rest)))
    (hdl : lpl.depth + n ≤ maxLevels + 1) (hdr : rpl.depth + n ≤ maxLevels + 1) :
  ReadyPair F lpl rpl n refs rest l r
  where
  left := by
    refine ⟨hl, hol, ?_, hcounted, hdl⟩
    apply List.Nodup.sublist _ hnodup
    apply List.Sublist.append (.refl _)
    apply List.Sublist.append r.cids_sublist_fill (.refl _)
  right := by
    refine ⟨hr, hor, ?_, hcounted.perm (List.perm_append_comm_assoc _ _ _), hdr⟩
    have hswap := (List.perm_append_comm_assoc (l.fill (knownNode F)).cids
      (r.fill (knownNode F)).cids rest).nodup_iff.mp hnodup
    apply List.Nodup.sublist _ hswap
    apply List.Sublist.append (.refl _)
    apply List.Sublist.append l.cids_sublist_fill (.refl _)
  nodup := hnodup

/-- A traversal of two subtrees leaves what can be read on. -/
theorem ReadyPair.traversed (hF : Ground F) (hsrc : Faithful src F)
    (hp : ReadyPair F lpl rpl n refs rest l r)
    (ht : TraversedPair src lpl rpl l r refs l' r' refs') :
  ReadyPair F lpl rpl n refs' rest l' r'
    ∧ l'.fill (knownNode F) = l.fill (knownNode F) ∧ r'.fill (knownNode F) = r.fill (knownNode F)
  := by
  obtain ⟨hl, hlfill⟩ := hF.loads hsrc ht.left hp.left.shaped
  obtain ⟨hr, hrfill⟩ := hF.loads hsrc ht.right hp.right.shaped
  refine ⟨?_, hlfill, hrfill⟩
  apply readyPair_mk hl hr
  · rw [hlfill]
    apply hp.left.ordered
  · rw [hrfill]
    apply hp.right.ordered
  · rw [hlfill, hrfill]
    apply hp.nodup
  · apply ht.counted _ hp.left.counted
  · apply hp.left.depth
  · apply hp.right.depth

/-- The subtrees of two nodes that meet when the nodes are merged. -/
theorem ReadyPair.nodes {lb rb : Body}
    (hp : ReadyPair F lpl rpl n refs rest (.node lcid lh lb) (.node rcid rh rb)) (i j : ℕ) :
  lh + 1 = n ∧ rh + 1 = n ∧ ∃ others, ReadyPair F (lb.childAt i lpl).2 (rb.childAt j rpl).2 lh refs
    others (lb.childAt i lpl).1 (rb.childAt j rpl).1
  := by
  obtain ⟨hln, hlbody⟩ := hp.left.body
  obtain ⟨hrn, hrbody⟩ := hp.right.body
  obtain rfl : lh = rh := by omega
  refine ⟨hln, hrn, ?_⟩
  obtain ⟨lo, lo', hlmem, hlfull, hlsub⟩ :=
    @Body.cids_childAt_fill (knownNode F) lpl lb i
  obtain ⟨ro, ro', hrmem, hrfull, hrsub⟩ :=
    @Body.cids_childAt_fill (knownNode F) rpl rb j
  obtain ⟨_, hl⟩ := hlbody.child i
  obtain ⟨_, hr⟩ := hrbody.child j
  refine ⟨lcid.toList ++ lo ++ rcid.toList ++ ro ++ rest, ?_⟩
  apply readyPair_mk hl.shaped hr.shaped hl.ordered hr.ordered _ _ hl.depth hr.depth
  · have hnodup := hp.nodup
    rw [Child.fill, Child.fill, Child.cids, Child.cids] at hnodup
    apply @List.Nodup.sublist _ _ (((lb.childAt i lpl).1.fill (knownNode F)).cids
      ++ (((rb.childAt j rpl).1.fill (knownNode F)).cids
        ++ (lcid.toList ++ lo' ++ rcid.toList ++ ro' ++ rest)))
    · apply List.Sublist.append (.refl _)
      apply List.Sublist.append (.refl _)
      apply List.Sublist.append _ (.refl _)
      apply List.Sublist.append _ hrsub
      apply List.Sublist.append _ (.refl _)
      apply List.Sublist.append (.refl _) hlsub
    · apply (List.Perm.nodup_iff _).mp hnodup
      rw [List.perm_iff_count]
      intro x
      have hlx := hlfull.count_eq x
      have hrx := hrfull.count_eq x
      simp only [List.count_append] at hlx hrx ⊢
      omega
  · apply hp.left.counted.perm
    rw [List.perm_iff_count]
    intro x
    have hlx := hlmem.count_eq x
    have hrx := hrmem.count_eq x
    simp only [Child.cids, List.count_append] at hlx hrx ⊢
    omega

theorem ReadyBody.pair {b : Body} (hr : ReadyBody F pl h refs rest b) (hi : i < b.size) :
  ∃ others, ReadyPair F (b.childAt i pl).2 (b.childAt (i + 1) pl).2 h refs others
    (b.childAt i pl).1 (b.childAt (i + 1) pl).1
  := by
  obtain ⟨others, others', hmem, hfull, hsub⟩ :=
    @Body.cids_pair_fill (knownNode F) _ _ pl hi
  obtain ⟨_, hl⟩ := hr.child i
  obtain ⟨_, hr'⟩ := hr.child (i + 1)
  refine ⟨others ++ rest, ?_⟩
  apply readyPair_mk hl.shaped hr'.shaped hl.ordered hr'.ordered _ _ hl.depth hr'.depth
  · have hnodup := (hfull.append_right rest).nodup_iff.mp hr.nodup
    rw [List.append_assoc, List.append_assoc] at hnodup
    apply List.Nodup.sublist _ hnodup
    apply List.Sublist.append (.refl _)
    apply List.Sublist.append (.refl _)
    apply List.Sublist.append hsub (.refl _)
  · have hcounted := hr.counted.perm (hmem.append_right rest)
    rwa [List.append_assoc, List.append_assoc] at hcounted

/-- Loading what a merge reads succeeds. -/
theorem ReadyPair.visitMerge (hF : Ground F) (hsrc : Faithful src F) {key : Key} :
  ∀ {fuel n : ℕ} {lpl rpl : Place} {refs : Refs} {rest : List Cid} {l r : Child} (chain : Bool),
    ReadyPair F lpl rpl n refs rest l r → n < fuel → lpl.hi = some key → rpl.lo = some key →
    lpl.touches key → rpl.touches key →
    (∀ q ∈ (l.fill (knownNode F)).parts lpl, q.1.touches key → Held src F q.2.1) →
    (∀ q ∈ (r.fill (knownNode F)).parts rpl, q.1.touches key → Held src F q.2.1) →
    ∃ l' r' refs', visitMerge src fuel refs (l, lpl) (r, rpl) chain = (.ok [], l', r', refs')
  | 0, n, _, _, _, _, _, _, _, _, hfuel, _, _, _, _, _, _ => absurd hfuel (Nat.not_lt_zero n)
  | fuel + 1, n, lpl, rpl, refs, rest, l, r, chain, hp, hfuel, hhi, hlo, hlt, hrt, hlheld,
    hrheld => by
      rw [Mst.visitMerge]
      split
      · obtain ⟨l', refs', hvisit⟩ := hp.left.visitRootChain hF hsrc chain hfuel hlt hlheld
        rw [hvisit]
        exact ⟨_, _, _, rfl⟩
      · rename_i hrne
        split
        · obtain ⟨r', refs', hvisit⟩ := hp.right.visitRootChain hF hsrc chain hfuel hrt hrheld
          rw [hvisit]
          exact ⟨_, _, _, rfl⟩
        · rename_i hlne
          obtain ⟨lcid, lh, lb, refs₁, hlload, -, hlfill⟩ := hp.left.load hF hsrc
            (mt Child.isAbsent_iff.mpr hlne) (held_of_parts hlt hlheld)
          have hltrav := @load_traversed _ src lpl refs l
          rw [hlload] at hltrav
          obtain ⟨hp₁, -, -⟩ := hp.traversed hF hsrc (.of_left hltrav)
          obtain ⟨rcid, rh, rb, refs₂, hrload, -, hrfill⟩ := hp₁.right.load hF hsrc
            (mt Child.isAbsent_iff.mpr hrne) (held_of_parts hrt hrheld)
          have hrtrav := @load_traversed _ src rpl refs₁ r
          rw [hrload] at hrtrav
          obtain ⟨hp₂, -, -⟩ := hp₁.traversed hF hsrc (.of_right hrtrav)
          rw [← hlfill] at hlheld
          rw [← hrfill] at hrheld
          obtain ⟨hln, hrn, others, hp₃⟩ := hp₂.nodes lb.size 0
          have hlkeys : ∀ k ∈ keys lb.items, k ≤ key := by
            intro k hk
            have hadmits := hp₂.left.ordered.admitted k (lb.keys_fill.subset hk)
            apply ((Place.admits_iff.mp hadmits).2 key hhi).le
          have hrkeys : ∀ k ∈ keys rb.items, key ≤ k := by
            intro k hk
            have hadmits := hp₂.right.ordered.admitted k (rb.keys_fill.subset hk)
            apply ((Place.admits_iff.mp hadmits).1 key hlo).le
          obtain ⟨hhi', hlt'⟩ := Body.last_touches hlt hlkeys
          obtain ⟨hlo', hrt'⟩ := Body.first_touches hrt hrkeys
          obtain ⟨l', r', refs', hvisit⟩ := (@ReadyPair.visitMerge hF hsrc _ fuel)
            (chain && decide (lb.size = 0) && decide (rb.size = 0)) hp₃ (by omega)
            (hhi'.trans hhi) (hlo'.trans hlo) hlt' hrt'
            (fun q hq => hlheld q (parts_of_child hq)) (fun q hq => hrheld q (parts_of_child hq))
          rw [hlload]
          dsimp only
          rw [hrload]
          dsimp only
          rw [hvisit]
          exact ⟨_, _, _, rfl⟩

/-- Loading the path of a key succeeds. -/
theorem Ready.visitKeyPath (hF : Ground F) (hsrc : Faithful src F) {key : Key} (visit : Visit) :
  ∀ {fuel n : ℕ} {pl : Place} {refs : Refs} {rest : List Cid} {c : Child} (top : Bool),
    Ready F pl n refs rest c → c ≠ .absent → n < fuel → pl.touches key →
    (∀ q ∈ (c.fill (knownNode F)).parts pl, q.1.touches key → Held src F q.2.1) →
    ∃ c' refs', visitKeyPath src key visit fuel refs c top pl = (.ok [], c', refs')
  | 0, n, _, _, _, _, _, _, _, hfuel, _, _ => absurd hfuel (Nat.not_lt_zero n)
  | fuel + 1, n, pl, refs, rest, c, top, hr, hc, hfuel, hpl, hheld => by
      obtain ⟨cid, h, b, refs₁, hload, hr₁, hfill⟩ := hr.load hF hsrc hc (held_of_parts hpl hheld)
      rw [← hfill] at hheld
      obtain ⟨rfl, hbody⟩ := hr₁.body
      rw [Mst.visitKeyPath, hload]
      dsimp only
      split
      · exact ⟨_, _, rfl⟩
      · rename_i i hsearch
        obtain ⟨hhi, hlo, hlt⟩ := Body.search_hit_touches hsearch hpl
        have hrt := Body.search_hit_right hsearch hpl (hbody.ordered.sorted.sublist b.keys_fill)
        obtain ⟨others, hpair⟩ := hbody.pair (Body.search_lt hsearch)
        obtain ⟨l', r', refs', hvisit⟩ := (@ReadyPair.visitMerge _ _ _ hF hsrc _ fuel)
          (top && decide (b.size = 1)) hpair (by omega) hhi hlo hlt hrt
          (fun q hq => hheld q (parts_of_child hq)) (fun q hq => hheld q (parts_of_child hq))
        rw [hvisit]
        exact ⟨_, _, rfl⟩
      · rename_i i hsearch
        split
        · exact ⟨_, _, rfl⟩
        · rename_i hchild
          obtain ⟨others, hready⟩ := hbody.child i
          obtain ⟨c', refs₂, hvisit⟩ := (@Ready.visitKeyPath hF hsrc _ _ fuel)
            (top && decide (b.size = 0)) hready (mt Child.isAbsent_iff.mpr hchild) (by omega)
            (Body.search_touches hsearch hpl) (fun q hq => hheld q (parts_of_child hq))
          rw [hvisit]
          exact ⟨_, _, rfl⟩

end Ready

/-! ### Loaded paths -/

/-- A lookup of which everything is loaded answers what the search finds. -/
theorem getNode_loaded {src : BlockSource} {key : Key} {a : Option Cid} :
  ∀ {fuel : ℕ} {refs : Refs} {n : Child} {pl : Place}, n.find key = .inl a → n.depth < fuel →
    (getNode src key fuel refs n pl).1 = .ok a
  | 0, _, _, _, _, hfuel => absurd hfuel (Nat.not_lt_zero _)
  | _ + 1, _, .absent, _, hfind, _ => by
      cases hfind
      rfl
  | _ + 1, _, .stub _ _, _, hfind, _ => by cases hfind
  | fuel + 1, refs, .node cid h b, pl, hfind, hfuel => by
      rw [getNode, ensureLoaded, load]
      · dsimp only
        split
        · rename_i i hsearch
          obtain ⟨v, hv, hfound⟩ := Body.find_of_hit hsearch
          rw [Child.find, hfound] at hfind
          cases hfind
          rw [hv]
        · rename_i i hsearch
          rw [Child.find, (Body.find_of_miss hsearch .absent pl).1] at hfind
          split
          · rename_i hchild
            rw [Child.isAbsent_iff.mp hchild] at hfind
            cases hfind
            rfl
          · apply getNode_loaded hfind
            rw [Child.depth] at hfuel
            have hdepth := Body.depth_childAt b i pl
            omega
      · simp

end Shrike.Mst
