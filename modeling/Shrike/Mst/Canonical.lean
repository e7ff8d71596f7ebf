import Shrike.Mst.Flush
import Shrike.Mst.Available

/-!
# The canonical tree

The Merkle search tree of a map: which tree it is, that there is only one, and that a flush
leaves it, with exactly the blocks it adds and no longer needs.
-/

namespace Shrike.Mst

open Cbor Holed

variable [Hashing]

/-- The tree of the empty map: a node with no entries and no subtree. -/
def emptyTree : Child := .node (some emptyNodeBlock.1) 0 (.edge .absent)

theorem encodeNode_empty :
  encodeNode (.edge .absent) = .ok emptyNodeBlock.2
  := rfl

theorem emptyTree_sealed :
  emptyTree.Sealed
  := ⟨⟨emptyNodeBlock.2, rfl, rfl⟩, trivial⟩

/-- `Canonical m T`: the tree `T` is the Merkle search tree of the map `m`. Every node
carries the CID of its block, the entries are those of the map in key order, every key is in
a node of its height, every edge spans one level, no node has neither entries nor subtrees
unless the map is empty, and the level of the root is the largest height of a key. -/
structure Canonical (m : Key → Option Cid) (T : Child) : Prop where
  isSealed : T.Sealed
  sorted : Sorted T.items
  maps : Maps T.items m
  valid : ∀ k, m k ≠ none → isValidKey k = true
  form : T = emptyTree ∨ ∃ cid h b, T = .node cid h b ∧ T.Shaped (fun _ _ => False) (h + 1)
    ∧ IsGreatest { heightForKey k | (k : Key) (_ : m k ≠ none) } h

section Canonical

variable {m : Key → Option Cid} {T : Child}

theorem Canonical.ordered (h : Canonical m T) :
  Ordered .root T.items
  := ordered_of_maps h.sorted h.maps h.valid

/-- The root of a canonical tree has entries, unless the map is empty. -/
theorem Canonical.cases (h : Canonical m T) :
  T = emptyTree ∨ ∃ cid h b, T = .node cid h b ∧ b.HasEntry
    ∧ T.Standing (fun _ _ => False) .root (h + 1)
  := by
  rcases h.form with hempty | ⟨cid, hh, b, rfl, hshaped, ⟨k, hk, hheight⟩, -⟩
  · exact .inl hempty
  · right
    have hstand : (Child.node cid hh b).Standing (fun _ _ => False) .root (hh + 1) :=
      ⟨h.isSealed, hshaped, h.ordered⟩
    refine ⟨cid, hh, b, rfl, ?_, hstand⟩
    cases b with
    | entry c k v rest => exact ⟨c, k, v, rest, rfl⟩
    | edge c =>
        have hmem : k ∈ keys c.items := by
          by_contra hnot
          exact hk (h.maps.not_mem_keys.mp hnot)
        have hlt := (Body.standing_edge.mp (Child.standing_node.mp hstand).2.2.2).height_lt k hmem
        omega

theorem Canonical.link (h : Canonical m T) :
  ∃ root, T.link = .ok (some root)
  := by
  have hsealed := h.isSealed
  rcases h.form with rfl | ⟨cid, hh, b, rfl, -⟩
  · exact ⟨_, rfl⟩
  · obtain ⟨⟨data, -, rfl⟩, -⟩ := hsealed
    exact ⟨_, rfl⟩

theorem emptyTree_maps (h : Maps emptyTree.items m) :
  ∀ k, m k = none
  := by
  intro k
  apply h.not_mem_keys.mp
  simp [emptyTree, Child.items, Body.items]

/-- There is one canonical tree of a map. -/
theorem Canonical.unique {T' : Child} (h : Canonical m T) (h' : Canonical m T') :
  T = T'
  := by
  rcases h.cases with rfl | ⟨cid, hh, b, rfl, hentry, hstand⟩
  · rcases h'.cases with rfl | ⟨cid', hh', b', rfl, hentry', hstand'⟩
    · rfl
    · obtain ⟨k, hk⟩ := List.exists_mem_of_ne_nil _ (hstand'.keys_ne_nil (by simp))
      exact absurd hk (h'.maps.not_mem_keys.mpr (emptyTree_maps h.maps k))
  · rcases h'.cases with rfl | ⟨cid', hh', b', rfl, hentry', hstand'⟩
    · obtain ⟨k, hk⟩ := List.exists_mem_of_ne_nil _ (hstand.keys_ne_nil (by simp))
      exact absurd hk (h.maps.not_mem_keys.mpr (emptyTree_maps h'.maps k))
    · have hitems := h.maps.unique h'.maps h.sorted h'.sorted hstand.shaped.solid
        hstand'.shaped.solid
      have hlevel : hh = hh' := by
        obtain ⟨c, k, v, rest, rfl⟩ := hentry
        obtain ⟨c', k', v', rest', rfl⟩ := hentry'
        have hk := (Body.standing_entry.mp (Child.standing_node.mp hstand).2.2.2).2.1
        have hk' := (Body.standing_entry.mp (Child.standing_node.mp hstand').2.2.2).2.1
        have hmem : k ∈ keys (Child.node cid' hh' (.entry c' k' v' rest')).items := by
          rw [← hitems]
          simp [Child.items, Body.items]
        have hmem' : k' ∈ keys (Child.node cid hh (.entry c k v rest)).items := by
          rw [hitems]
          simp [Child.items, Body.items]
        have hlt := hstand'.height_lt k hmem
        have hlt' := hstand.height_lt k' hmem'
        omega
      subst hlevel
      apply hstand.eq_of_items hstand' hitems

/-! ### Canonical trees are flushed trees -/

/-- A canonical tree is a flushed tree, if no two of its blocks have the same CID. -/
theorem Canonical.ground {S : Set Bytes} (hinj : S.InjOn (Cid.compute .drisl))
    (h : Canonical m T) (hS : ∀ p ∈ T.blocks, p.2 ∈ S) :
  Ground T
  := by
  rcases h.cases with rfl | ⟨cid, hh, b, rfl, hentry, hstand⟩
  · have hnodes : emptyTree.nodes = [(emptyNodeBlock.1, 0, .edge .absent)] := rfl
    constructor
    · rw [hnodes]
      simp
    · intro x h b hmem
      rw [hnodes, List.mem_singleton] at hmem
      cases hmem
      refine ⟨.root, trivial, trivial, ?_⟩
      apply h.ordered
    · intro x h b hmem
      rw [hnodes, List.mem_singleton] at hmem
      cases hmem
      exact ⟨emptyNodeBlock.2, rfl, rfl⟩
    · intro x h b hmem n hn
      rw [hnodes, List.mem_singleton] at hmem
      cases hmem
      cases hn
  · constructor
    · apply hstand.nodup_nodes hinj hS
    · intro x h b hmem
      obtain ⟨pl, hnode⟩ := (hstand.inside hmem).standing
      exact ⟨pl, (Child.standing_node.mp hnode).2.2.2⟩
    · intro x h b hmem
      obtain ⟨pl, hnode⟩ := (hstand.inside hmem).standing
      obtain ⟨data, hdata, hcid⟩ := (Child.standing_node.mp hnode).2.2.1
      exact ⟨data, hdata, Option.some.inj hcid⟩
    · intro x h b hmem
      apply Child.nodes_sub hmem

/-- A tree loaded from the root of a canonical tree stands for it. -/
theorem Canonical.load (h : Canonical m T) (hT : Ground T) {root : Cid}
    (hlink : T.link = .ok (some root)) :
  Tracks T m (DetachedTree.load root)
  := by
  have hnode : ∃ hh b, T = .node (some root) hh b
      ∧ (b.HasEntry ∨ hh = 0 ∧ b = .edge .absent) := by
    rcases h.cases with rfl | ⟨cid, hh, b, rfl, hentry, -⟩
    · cases hlink
      exact ⟨0, .edge .absent, rfl, .inr ⟨rfl, rfl⟩⟩
    · cases cid with
      | none => cases hlink
      | some x =>
          cases hlink
          exact ⟨hh, b, rfl, .inl hentry⟩
  obtain ⟨hh, b, hnode, hb⟩ := hnode
  have hknown : knownNode T root = some (hh, b) := by
    apply hT.lookup
    rw [hnode]
    simp [Child.nodes]
  have hfull : (DetachedTree.load root).full T = T := by
    show (Child.stub root 0).fill (knownNode T) = T
    rw [Child.fill, hknown]
    exact hnode.symm
  constructor
  · apply hT
  · rfl
  · exact .unread hknown hb
  · rw [hfull]
    apply Child.cached_inTree
    intro n hn
    apply hn
  · rw [hfull]
    apply h.sorted
  · rw [hfull]
    apply h.maps
  · apply h.valid
  · rw [hfull, h.isSealed.cids]
    exact .of_eq (List.append_nil _)
  · intro c
    show Function.update (fun _ => none) root (some 1) c = _
    rcases eq_or_ne c root with rfl | hne
    · simp [DetachedTree.load, DetachedTree.new, Child.cids]
    · rw [Function.update_of_ne hne]
      simp [DetachedTree.load, DetachedTree.new, Child.cids, hne.symm]
  · exact .inl rfl

/-- The new tree is empty. -/
theorem tracks_new :
  Tracks .absent (fun _ => none) DetachedTree.new
  where
  ground := ⟨.nil, fun h => absurd h List.not_mem_nil, fun h => absurd h List.not_mem_nil,
    fun h => absurd h List.not_mem_nil⟩
  usable := rfl
  rooted := .absent
  cached := trivial
  sorted := .nil
  maps k v := by simp [DetachedTree.full, DetachedTree.new, Child.fill, Child.items]
  valid k hk := absurd rfl hk
  carried := .nil
  counted c := rfl
  emptyRoot := .inl rfl

end Canonical

/-! ### Flushing -/

section Flush

variable {F : Child} {m : Key → Option Cid} {t : DetachedTree}

/-- A complete tree that is sealed and not absent is canonical. -/
theorem canonical_of_whole {G : Child} (hw : Whole G) (hne : G ≠ .absent) (hs : G.Sealed)
    (hsorted : Sorted G.items) (hmaps : Maps G.items m)
    (hvalid : ∀ k, m k ≠ none → isValidKey k = true) :
  Canonical m G
  := by
  refine ⟨hs, hsorted, hmaps, hvalid, ?_⟩
  cases hw with
  | absent => exact absurd rfl hne
  | empty =>
      left
      obtain ⟨⟨data, hdata, rfl⟩, -⟩ := hs
      rw [encodeNode_empty] at hdata
      cases hdata
      rfl
  | @node cid hh b hentry hb =>
      right
      have hstand : (Child.node cid hh b).Standing (fun _ _ => False) .root (hh + 1) :=
        ⟨hs, ⟨rfl, hb, hentry.nonempty⟩, ordered_of_maps hsorted hmaps hvalid⟩
      refine ⟨cid, hh, b, rfl, hstand.shaped, ?_, ?_⟩
      · obtain ⟨c, k, v, rest, rfl⟩ := hentry
        refine ⟨k, ?_, hb.2.1⟩
        rw [(hmaps k v).mp (by simp [Child.items, Body.items])]
        simp
      · rintro _ ⟨k, hk, rfl⟩
        have hmem : k ∈ keys (Child.node cid hh b).items := by
          by_contra hnot
          exact hk (hmaps.not_mem_keys.mp hnot)
        apply Nat.le_of_lt_succ (hstand.height_lt k hmem)

mutual

/-- A tree over a flushed tree is one over another that has the same nodes below it. -/
theorem Ground.transfer {F' : Child} (hF' : Ground F') :
  ∀ {c : Child} {n : ℕ}, c.Shaped (Known F) n →
    (∀ x ∈ (c.fill (knownNode F)).nodes, x ∈ F'.nodes) →
    c.Shaped (Known F') n ∧ c.fill (knownNode F') = c.fill (knownNode F)
  | .absent, _, _, _ => ⟨trivial, rfl⟩
  | .stub x h, _, ⟨hn, b, hknown, hne⟩, hsub => by
      rw [Child.fill, hknown] at hsub
      have hknown' := hF'.lookup (hsub (x, h, b) (by simp [Child.nodes]))
      refine ⟨⟨hn, b, hknown', hne⟩, ?_⟩
      rw [Child.fill, Child.fill, hknown, hknown']
  | .node cid h b, _, ⟨hn, hb, hne⟩, hsub => by
      obtain ⟨hshaped, hfill⟩ := Ground.transferBody hF' hb
        (fun x hx => hsub x (List.mem_append_right _ hx))
      refine ⟨⟨hn, hshaped, hne⟩, ?_⟩
      rw [Child.fill, Child.fill, hfill]

theorem Ground.transferBody {F' : Child} (hF' : Ground F') :
  ∀ {b : Body} {h : ℕ}, b.Shaped (Known F) h →
    (∀ x ∈ (b.fill (knownNode F)).nodes, x ∈ F'.nodes) →
    b.Shaped (Known F') h ∧ b.fill (knownNode F') = b.fill (knownNode F)
  | .edge c, _, hc, hsub => by
      obtain ⟨hshaped, hfill⟩ := Ground.transfer hF' hc hsub
      refine ⟨hshaped, ?_⟩
      rw [Body.fill, Body.fill, hfill]
  | .entry c k v rest, _, ⟨hc, hk, hrest⟩, hsub => by
      obtain ⟨hshaped, hfill⟩ := Ground.transfer hF' hc
        (fun x hx => hsub x (List.mem_append_left _ hx))
      obtain ⟨hshaped', hfill'⟩ := Ground.transferBody hF' hrest
        (fun x hx => hsub x (List.mem_append_right _ hx))
      refine ⟨⟨hshaped, hk, hshaped'⟩, ?_⟩
      rw [Body.fill, Body.fill, hfill, hfill']

end

theorem Rooted.transfer {F' : Child} (hF' : Ground F') {c : Child} (h : Rooted F c)
    (hsub : ∀ x ∈ (c.fill (knownNode F)).nodes, x ∈ F'.nodes) :
  Rooted F' c ∧ c.fill (knownNode F') = c.fill (knownNode F)
  := by
  cases h with
  | absent => exact ⟨.absent, rfl⟩
  | @unread x hh b hknown hb =>
      rw [Child.fill, hknown] at hsub
      have hknown' := hF'.lookup (hsub (x, hh, b) (by simp [Child.nodes]))
      refine ⟨.unread hknown' hb, ?_⟩
      rw [Child.fill, Child.fill, hknown, hknown']
  | empty => exact ⟨.empty, rfl⟩
  | node hentry hb =>
      obtain ⟨hshaped, hfill⟩ := hF'.transferBody hb
        (fun x hx => hsub x (List.mem_append_right _ hx))
      refine ⟨.node hentry hshaped, ?_⟩
      rw [Child.fill, Child.fill, hfill]

theorem Write.rooted {c c' : Child} {out : List (Cid × Bytes)} (h : Write c c' out)
    (hc : Rooted F c) :
  Rooted F c'
  := by
  cases h with
  | absent => exact hc
  | stub => exact hc
  | clean => exact hc
  | node hbody hdata =>
      cases hc with
      | empty =>
          cases hbody with
          | edge hc =>
              cases hc
              exact .empty
      | node hentry hb => exact .node (hbody.hasEntry hentry) (hbody.shaped hb)

theorem Write.sealed_whole {P : Cid → Body → Prop}
    (hP : ∀ {x b}, P x b → b.Sealed ∧ ∃ data, encodeNode b = .ok data ∧ x = Cid.compute .drisl data)
    {c c' : Child} {out : List (Cid × Bytes)} (h : Write c c' out) (hw : Whole c)
    (hcached : c.Cached P) :
  c'.Sealed
  := by
  cases h with
  | absent => trivial
  | stub => cases hw
  | clean =>
      obtain ⟨hb, data, hdata, hx⟩ := hP (hcached.1 _ rfl)
      exact ⟨⟨data, hdata, congrArg some hx⟩, hb⟩
  | node hbody hdata =>
      refine ⟨⟨_, hdata, rfl⟩, ?_⟩
      cases hw with
      | empty => apply hbody.sealed hP (h := 0) trivial hcached.2
      | node hentry hb => apply hbody.sealed hP hb hcached.2

/-- The blocks that a flush writes. -/
def DetachedTree.written (t : DetachedTree) : List (Cid × Bytes) :=
  if t.root.isAbsent then [emptyNodeBlock]
  else match writeNode t.root with
    | .ok (_, out) => out
    | .error _ => []

/-- `Delta F F' w`: what a flush returns is the difference between two trees: it adds only
blocks of the new tree, all that were not in the old one, and retires all that are no longer
in the new one, and only those. -/
structure Delta (F F' : Child) (w : TreeWrite) : Prop where
  added : ∀ p ∈ w.newBlocks, p ∈ F'.blocks
  kept : ∀ p ∈ F'.blocks, p ∈ w.newBlocks ∨ p ∈ F.blocks
  retired : ∀ c ∈ w.retired, c ∉ F'.nodes.map Prod.fst
  dropped : ∀ p ∈ F.blocks, p ∈ F'.blocks ∨ p.1 ∈ w.retired

theorem Ground.block_cid (hF : Ground F) {p : Cid × Bytes} (hp : p ∈ F.blocks) :
  p.1 = Cid.compute .drisl p.2 ∧ p.1 ∈ F.nodes.map Prod.fst
  := by
  obtain ⟨h, b, hmem, hdata⟩ := Child.mem_blocks.mp hp
  obtain ⟨data, hdata', hcid⟩ := hF.cid hmem
  rw [hdata] at hdata'
  cases hdata'
  exact ⟨hcid, List.mem_map_of_mem hmem⟩

theorem Ground.block_of_cid (hF : Ground F) {c : Cid} (hc : c ∈ F.nodes.map Prod.fst) :
  ∃ data, (c, data) ∈ F.blocks
  := by
  obtain ⟨⟨x, h, b⟩, hmem, rfl⟩ := List.mem_map.mp hc
  obtain ⟨data, hdata, -⟩ := hF.cid hmem
  exact ⟨data, Child.mem_blocks.mpr ⟨h, b, hmem, hdata⟩⟩

/-- A block of one tree whose CID another tree has is a block of the other tree, if no two
blocks have the same CID. -/
theorem Ground.shared {S : Set Bytes} (hinj : S.InjOn (Cid.compute .drisl)) (hF : Ground F)
    (hS : ∀ p ∈ F.blocks, p.2 ∈ S) {p : Cid × Bytes} (hp : p.1 = Cid.compute .drisl p.2)
    (hpS : p.2 ∈ S) (hmem : p.1 ∈ F.nodes.map Prod.fst) :
  p ∈ F.blocks
  := by
  obtain ⟨data, hdata⟩ := hF.block_of_cid hmem
  have hcid := (hF.block_cid hdata).1
  have heq : data = p.2 := hinj (hS _ hdata) hpS (hcid.symm.trans hp)
  rw [heq] at hdata
  exact hdata

/-- What settling a flush returns is the difference between the tree before and the tree
after, when the CIDs of both are as counted. -/
theorem delta_of_settle {S : Set Bytes} (hinj : S.InjOn (Cid.compute .drisl)) {F F' : Child}
    (hF : Ground F) (hF' : Ground F') (hS : ∀ p ∈ F.blocks, p.2 ∈ S)
    (hS' : ∀ p ∈ F'.blocks, p.2 ∈ S) {kept carried released : List Cid}
    {out : List (Cid × Bytes)} {w : TreeWrite} (hkept : ∀ c ∈ kept, c ∈ carried)
    (hcids : (carried ++ released).Perm (F.nodes.map Prod.fst))
    (hcids' : ∀ c, c ∈ F'.nodes.map Prod.fst ↔ c ∈ carried ∨ c ∈ out.map Prod.fst)
    (hout : ∀ p ∈ out, p ∈ F'.blocks)
    (hnew : ∀ p ∈ w.newBlocks, p ∈ out ∧ p.1 ∉ kept ++ released)
    (hall : ∀ p ∈ out, p.1 ∉ kept ++ released → ∃ q ∈ w.newBlocks, q.1 = p.1)
    (hretired : ∀ c, c ∈ w.retired ↔ c ∈ released ∧ c ∉ kept ∧ c ∉ out.map Prod.fst) :
  Delta F F' w
  where
  added p hp := hout p (hnew p hp).1
  kept p hp := by
    obtain ⟨hcid, hmem⟩ := hF'.block_cid hp
    by_cases hold : p.1 ∈ carried ++ released
    · right
      apply hF.shared hinj hS hcid (hS' p hp) (hcids.mem_iff.mp hold)
    · left
      rw [List.mem_append, not_or] at hold
      rcases (hcids' p.1).mp hmem with hc | hc
      · exact absurd hc hold.1
      · obtain ⟨p', hp', heq⟩ := List.mem_map.mp hc
        obtain ⟨q, hq, hqp⟩ := hall p' hp' (by
          rw [heq, List.mem_append, not_or]
          exact ⟨fun h => hold.1 (hkept _ h), hold.2⟩)
        have hq' := hout q (hnew q hq).1
        have hqcid := (hF'.block_cid hq').1
        have hdata : q.2 = p.2 := by
          apply hinj (hS' q hq') (hS' p hp)
          rw [← hqcid, ← hcid, hqp, heq]
        have hpq : q = p := Prod.ext (hqp.trans heq) hdata
        rwa [← hpq]
  retired c hc hmem := by
    obtain ⟨hrel, -, hnot⟩ := (hretired c).mp hc
    rcases (hcids' c).mp hmem with hcar | hcout
    · have hnodup := hcids.nodup_iff.mpr hF.nodup
      exact (List.nodup_append.mp hnodup).2.2 c hcar c hrel rfl
    · exact hnot hcout
  dropped p hp := by
    obtain ⟨hcid, hmem⟩ := hF.block_cid hp
    by_cases hret : p.1 ∈ w.retired
    · exact .inr hret
    · left
      apply hF'.shared hinj hS' hcid (hS p hp)
      rw [hcids' p.1]
      rcases List.mem_append.mp (hcids.mem_iff.mpr hmem) with hc | hc
      · exact .inl hc
      · by_contra hnot
        rw [not_or] at hnot
        apply hret
        rw [hretired p.1]
        exact ⟨hc, fun hk => hnot.1 (hkept _ hk), hnot.2⟩

/-- What a flush leaves: the canonical tree of the contents, whose root it returns, and the
difference to the tree before. -/
structure Flushed (S : Set Bytes) (F : Child) (m : Key → Option Cid) (w : TreeWrite)
    (t : DetachedTree) (F' : Child) : Prop where
  canonical : Canonical m F'
  root : F'.link = .ok (some w.root)
  tracks : Tracks F' m t
  blocks : ∀ p ∈ F'.blocks, p.2 ∈ S
  delta : Delta F F' w

section Epoch

variable {S : Set Bytes} (hinj : S.InjOn (Cid.compute .drisl))
include hinj

/-- A flush of a tree that is empty writes the empty tree. -/
theorem Tracks.flush_absent (h : Tracks F m t) (hS : ∀ p ∈ F.blocks, p.2 ∈ S)
    (hout : emptyNodeBlock.2 ∈ S) (hroot : t.root = .absent) :
  ∃ w t', t.flush = (.ok w, t') ∧ Flushed S F m w t' emptyTree
  := by
  have hfull : t.full F = .absent := by
    rw [DetachedTree.full, hroot]
    rfl
  have hmaps := h.maps
  have hcarried := h.carried
  have hcounted := h.counted
  rw [hfull] at hmaps hcarried
  rw [hroot] at hcounted
  have hblocks : emptyTree.blocks = [emptyNodeBlock] := rfl
  have hS' : ∀ p ∈ emptyTree.blocks, p.2 ∈ S := by
    rw [hblocks]
    intro p hp
    rwa [List.mem_singleton.mp hp]
  have hcanonical : Canonical m emptyTree := ⟨emptyTree_sealed, .nil, hmaps, h.valid, .inl rfl⟩
  have hground := hcanonical.ground hinj hS'
  obtain ⟨w, refs, hsettle, hw, hcounted', hnew, hall, hretired⟩ :=
    @DetachedTree.settle_counted
      { t with released := t.released ++ t.emptyRoot.toList,
               emptyRoot := some emptyNodeBlock.1 } [emptyNodeBlock] emptyNodeBlock.1 [] hcounted
  refine ⟨w, { t with released := [], emptyRoot := some emptyNodeBlock.1, refs }, ?_, hcanonical,
    ?_, ?_, hS', ?_⟩
  · have husable : ¬ t.poisoned = true := by
      rw [h.usable]
      exact Bool.false_ne_true
    rw [DetachedTree.flush, if_neg husable, if_pos (Child.isAbsent_iff.mpr hroot)]
    exact hsettle
  · rw [hw]
    rfl
  · have hfull' : DetachedTree.full emptyTree
        { t with released := [], emptyRoot := some emptyNodeBlock.1, refs } = .absent := by
      rw [DetachedTree.full, hroot]
      rfl
    constructor
    · apply hground
    · apply h.usable
    · rw [hroot]
      exact .absent
    · rw [hfull']
      trivial
    · rw [hfull']
      exact .nil
    · rw [hfull']
      apply hmaps
    · apply h.valid
    · rw [hfull']
      exact .refl _
    · rw [hroot]
      apply hcounted'
    · exact .inr hroot
  · apply @delta_of_settle _ _ hinj _ _ h.ground hground hS hS' _ [] _ _ _ (fun c hc => hc) hcarried
      _ _ hnew hall hretired
    · intro c
      simp [emptyTree, Child.nodes, Body.nodes]
    · rw [hblocks]
      intro p hp
      apply hp

/-- A flush of a tree with a root writes its changed nodes. -/
theorem Tracks.flush_present (h : Tracks F m t) (hS : ∀ p ∈ F.blocks, p.2 ∈ S)
    (hout : ∀ p ∈ t.written, p.2 ∈ S) (hroot : t.root ≠ .absent) :
  ∃ w t' F', t.flush = (.ok w, t') ∧ Flushed S F m w t' F'
  := by
  obtain ⟨root', out, hwrite, hrel, link, hlink⟩ := writeNode_ok t.root
  have hwritten : t.written = out := by
    rw [DetachedTree.written, if_neg (mt Child.isAbsent_iff.mp hroot), hwrite]
  rw [hwritten] at hout
  have hempty : t.emptyRoot = none := h.emptyRoot.resolve_right hroot
  have hfill := (@Write.fill _ (knownNode F)) hrel
  have hP : ∀ {x b}, InTree F x b →
      b.Sealed ∧ ∃ data, encodeNode b = .ok data ∧ x = Cid.compute .drisl data := by
    rintro x b ⟨hh, hmem⟩
    obtain ⟨pl, hb⟩ := h.ground.standing hmem
    exact ⟨hb.isSealed, h.ground.cid hmem⟩
  have hsealed : (root'.fill (knownNode F)).Sealed := hfill.sealed_whole hP h.whole h.cached
  have hroot' : root' ≠ .absent := mt hrel.absent_iff.mp hroot
  have hcanonical : Canonical m (root'.fill (knownNode F)) := by
    apply canonical_of_whole (hfill.whole h.whole) (mt Child.fill_absent_iff.mp hroot') hsealed
    · rw [hfill.items]
      apply h.sorted
    · rw [hfill.items]
      apply h.maps
    · apply h.valid
  have hS' : ∀ p ∈ (root'.fill (knownNode F)).blocks, p.2 ∈ S := by
    intro p hp
    rcases hfill.blocks.mp hp with hp | hp
    · obtain ⟨hh, b, hmem, hdata⟩ := Child.mem_blocks.mp hp
      obtain ⟨hh', hmem'⟩ := h.cached.nodes hmem
      exact hS _ (Child.mem_blocks.mpr ⟨hh', b, hmem', hdata⟩)
    · apply hout p hp
  have hground := hcanonical.ground hinj hS'
  obtain ⟨root, hrootcid⟩ : ∃ root, link = some root := by
    obtain ⟨root, hl⟩ := hcanonical.link
    rw [Child.fill_link, hlink] at hl
    exact ⟨root, Except.ok.inj hl⟩
  subst hrootcid
  have hcounted := h.counted
  have hcarried := h.carried
  rw [hempty, Option.toList_none, List.append_nil] at hcounted hcarried
  obtain ⟨w, refs, hsettle, hw, hcounted', hnew, hall, hretired⟩ :=
    @DetachedTree.settle_counted { t with root := root' } out root t.root.cids hcounted
  refine ⟨w, { t with root := root', refs, released := [] }, root'.fill (knownNode F), ?_,
    hcanonical, ?_, ?_, hS', ?_⟩
  · have husable : ¬ t.poisoned = true := by
      rw [h.usable]
      exact Bool.false_ne_true
    rw [DetachedTree.flush, if_neg husable, if_neg (mt Child.isAbsent_iff.mp hroot), hwrite]
    simp only [hlink]
    exact hsettle
  · rw [Child.fill_link, hlink, hw]
  · obtain ⟨hrooted, hfull⟩ := (hrel.rooted h.rooted).transfer hground (fun x hx => hx)
    have hfull' : DetachedTree.full (root'.fill (knownNode F))
        { t with root := root', refs, released := [] } = root'.fill (knownNode F) := hfull
    constructor
    · apply hground
    · apply h.usable
    · apply hrooted
    · rw [hfull']
      apply Child.cached_inTree
      intro n hn
      apply hn
    · rw [hfull']
      apply hcanonical.sorted
    · rw [hfull']
      apply hcanonical.maps
    · apply h.valid
    · rw [hfull', hempty, hsealed.cids]
      exact .of_eq (List.append_nil _)
    · rw [hempty]
      apply hcounted'.perm
      rw [List.perm_iff_count]
      intro x
      have hx := hrel.cids x
      simp only [List.count_append, Option.toList_none, List.append_nil]
      omega
    · exact .inl hempty
  · apply delta_of_settle hinj h.ground hground hS hS'
      (fun c hc => (@Child.cids_sublist_fill (knownNode F) t.root).subset hc) hcarried
      _ _ hnew hall hretired
    · intro c
      have hcount := hfill.cids c
      rw [← hsealed.cids, ← List.count_pos_iff, ← List.count_pos_iff, ← List.count_pos_iff,
        hcount]
      exact Nat.add_pos_iff_pos_or_pos
    · intro p hp
      apply hfill.blocks.mpr (.inr hp)

/-- A flush succeeds and leaves the canonical tree of the contents, if no two blocks have
the same CID. -/
theorem Tracks.flush (h : Tracks F m t) (hS : ∀ p ∈ F.blocks, p.2 ∈ S)
    (hout : ∀ p ∈ t.written, p.2 ∈ S) :
  ∃ w t' F', t.flush = (.ok w, t') ∧ Flushed S F m w t' F'
  := by
  by_cases hroot : t.root = .absent
  · have hempty : emptyNodeBlock.2 ∈ S := by
      apply hout
      rw [DetachedTree.written, hroot, if_pos (Child.isAbsent_iff.mpr rfl)]
      exact List.mem_singleton_self _
    obtain ⟨w, t', hflush, hflushed⟩ := h.flush_absent hinj hS hempty hroot
    exact ⟨w, t', emptyTree, hflush, hflushed⟩
  · exact h.flush_present hinj hS hout hroot

end Epoch

end Flush

end Shrike.Mst
