import Shrike.Mst.Fill
import Shrike.Mst.Progress
import Shrike.Mst.Codec

/-!
# Complete trees

A tree of which every node is in memory and carries the CID of its block. The CID of a node
determines the node when no two blocks have the same CID, and the entries determine the
whole tree.
-/

namespace Shrike.Mst

open Cbor Holed Except

/-! ### Nodes and their blocks -/

mutual

/-- The loaded nodes of a subtree that carry a CID, with their heights and contents. -/
def Child.nodes : Child → List (Cid × ℕ × Body)
  | .absent => []
  | .stub _ _ => []
  | .node cid h body => cid.toList.map (fun x => (x, h, body)) ++ body.nodes

/-- The loaded nodes that carry a CID in the contents of a node. -/
def Body.nodes : Body → List (Cid × ℕ × Body)
  | .edge c => c.nodes
  | .entry c _ _ rest => c.nodes ++ rest.nodes

end

/-- The block of a node that carries a CID. -/
def nodeBlock : Cid × ℕ × Body → Option (Cid × Bytes)
  | (cid, _, body) => match encodeNode body with
      | .ok data => some (cid, data)
      | .error _ => none

/-- The blocks of the nodes of a subtree that carry a CID. -/
def Child.blocks (c : Child) : List (Cid × Bytes) := c.nodes.filterMap nodeBlock

/-- The blocks of the nodes that carry a CID in the contents of a node. -/
def Body.blocks (b : Body) : List (Cid × Bytes) := b.nodes.filterMap nodeBlock

variable {data : Bytes}

theorem mem_nodeBlock {cid : Cid} {n : Cid × ℕ × Body} :
  nodeBlock n = some (cid, data) ↔ n.1 = cid ∧ encodeNode n.2.2 = .ok data
  := by
  obtain ⟨x, h, b⟩ := n
  rw [nodeBlock]
  split
  · rename_i data' heq
    simp [heq]
  · rename_i e heq
    simp [heq]

theorem Child.mem_blocks {c : Child} {cid : Cid} :
  (cid, data) ∈ c.blocks ↔ ∃ h b, (cid, h, b) ∈ c.nodes ∧ encodeNode b = .ok data
  := by
  simp only [blocks, List.mem_filterMap, mem_nodeBlock]
  constructor
  · rintro ⟨⟨x, h, b⟩, hmem, rfl, hdata⟩
    use h, b
  · rintro ⟨h, b, hmem, hdata⟩
    use (cid, h, b)

/-- The links of the contents of a node are valid, and so are its keys. -/
theorem encodeNode_eq_ok {b : Body} (h : encodeNode b = .ok data) :
  ∃ left links, b.first.link = .ok left ∧ b.links = .ok links
    ∧ data = encodeNodeData { left, entries := compress [] links }
  := by
  rw [encodeNode] at h
  obtain ⟨left, hleft, h⟩ := bind_eq_ok.mp h
  obtain ⟨links, hlinks, h⟩ := bind_eq_ok.mp h
  cases h
  exact ⟨left, links, hleft, hlinks, rfl⟩

/-- The entries that are linked are the entries of the node. -/
theorem Body.links_keys :
  ∀ {b : Body} {links : List (Key × Cid × Option Cid)}, b.links = .ok links →
    ∀ e ∈ links, e.1 ∈ keys b.items
  | .edge _, _, h, e, he => by
      cases h
      cases he
  | .entry c k v rest, _, h, e, he => by
      rw [links] at h
      obtain ⟨right, -, h⟩ := bind_eq_ok.mp h
      obtain ⟨rest', hrest, h⟩ := bind_eq_ok.mp h
      cases h
      rw [Body.items, keys_append, keys_entry, List.mem_append, List.mem_cons]
      rcases List.mem_cons.mp he with rfl | he
      · exact .inr (.inl rfl)
      · exact .inr (.inr (Body.links_keys hrest e he))

theorem compress_inj :
  ∀ {es es' : List (Key × Cid × Option Cid)} {prev : Key},
    compress prev es = compress prev es' → es = es'
  | [], [], _, _ => rfl
  | [], _ :: _, _, h => by cases h
  | _ :: _, [], _, h => by cases h
  | (k, v, r) :: es, (k', v', r') :: es', prev, h => by
      rw [compress, compress] at h
      obtain ⟨hhead, htail⟩ := List.cons_eq_cons.mp h
      obtain ⟨hlen, hsuffix, rfl, rfl⟩ := EntryData.mk.injEq .. ▸ hhead
      have hk : k = k' := by
        rw [← take_append_drop_sharedPrefixLen prev k, hsuffix, hlen,
          take_append_drop_sharedPrefixLen]
      subst hk
      rw [compress_inj htail]

/-- Nodes with valid keys and the same block have the same links and entries. -/
theorem encodeNode_inj {b b' : Body} (h : encodeNode b = .ok data)
    (h' : encodeNode b' = .ok data) (hvalid : ∀ k ∈ keys b.items, isValidKey k = true)
    (hvalid' : ∀ k ∈ keys b'.items, isValidKey k = true) :
  b.first.link = b'.first.link ∧ ∃ links, b.links = .ok links ∧ b'.links = .ok links
  := by
  obtain ⟨left, links, hleft, hlinks, hdata⟩ := encodeNode_eq_ok h
  obtain ⟨left', links', hleft', hlinks', hdata'⟩ := encodeNode_eq_ok h'
  have hfits := compress_fits (fun e he => hvalid e.1 (Body.links_keys hlinks e he)) []
    (Nat.zero_le _)
  have hfits' := compress_fits (fun e he => hvalid' e.1 (Body.links_keys hlinks' e he)) []
    (Nat.zero_le _)
  have hnd := encodeNodeData_inj hfits hfits' (hdata.symm.trans hdata')
  obtain ⟨rfl, hentries⟩ := NodeData.mk.injEq .. ▸ hnd
  rw [hleft, hleft', hlinks, hlinks', compress_inj hentries]
  exact ⟨rfl, links', rfl, rfl⟩

/-! ### Sealed trees -/

section Sealed

variable [Hashing]

mutual

/-- A subtree of which every node is in memory and carries the CID of its block. -/
def Child.Sealed : Child → Prop
  | .absent => True
  | .stub _ _ => False
  | .node cid _ body =>
      (∃ data, encodeNode body = .ok data ∧ cid = some (Cid.compute .drisl data)) ∧ body.Sealed

/-- The contents of a node whose subtrees are sealed. -/
def Body.Sealed : Body → Prop
  | .edge c => c.Sealed
  | .entry c _ _ rest => c.Sealed ∧ rest.Sealed

end

variable {known : Cid → ℕ → Prop}

/-- A sealed subtree on its levels, in order at a place. -/
structure Child.Standing (known : Cid → ℕ → Prop) (pl : Place) (n : ℕ) (c : Child) : Prop where
  isSealed : c.Sealed
  shaped : c.Shaped known n
  ordered : Ordered pl c.items

/-- The contents of a node of height `h`, sealed, on their levels, and in order at a
place. -/
structure Body.Standing (known : Cid → ℕ → Prop) (pl : Place) (h : ℕ) (b : Body) : Prop where
  isSealed : b.Sealed
  shaped : b.Shaped known h
  ordered : Ordered pl b.items

variable {pl pl' : Place}

variable {b rest : Body} {c : Child} {h h' n n' : ℕ} {v x cid : Cid}

theorem Body.standing_edge :
  (Body.edge c).Standing known pl h ↔ c.Standing known pl.below h
  := by
  constructor
  · rintro ⟨hs, hsh, ho⟩
    exact ⟨hs, hsh, ordered_below.mpr ho⟩
  · rintro ⟨hs, hsh, ho⟩
    exact ⟨hs, hsh, ordered_below.mp ho⟩

theorem Body.standing_entry {k : Key} :
  (Body.entry c k v rest).Standing known pl h ↔ c.Standing known (pl.before k).below h
    ∧ heightForKey k = h ∧ pl.admits k = true ∧ isValidKey k = true
    ∧ rest.Standing known (pl.after k) h
  := by
  constructor
  · rintro ⟨⟨hc, hrest⟩, ⟨hcs, hk, hrests⟩, ho⟩
    obtain ⟨hoc, hadmits, hvalid, horest⟩ := ordered_append.mp ho
    exact ⟨⟨hc, hcs, hoc⟩, hk, hadmits, hvalid, ⟨hrest, hrests, horest⟩⟩
  · rintro ⟨⟨hc, hcs, hoc⟩, hk, hadmits, hvalid, hrest, hrests, horest⟩
    exact ⟨⟨hc, hrest⟩, ⟨hcs, hk, hrests⟩, ordered_append.mpr ⟨hoc, hadmits, hvalid, horest⟩⟩

/-- The node of a standing subtree. -/
theorem Child.standing_node {cid : Option Cid} :
  (Child.node cid h b).Standing known pl n ↔ h + 1 = n ∧ b ≠ .edge .absent
    ∧ (∃ data, encodeNode b = .ok data ∧ cid = some (Cid.compute .drisl data))
    ∧ b.Standing known pl h
  := by
  constructor
  · rintro ⟨⟨hcid, hs⟩, ⟨hn, hsh, hne⟩, ho⟩
    exact ⟨hn, hne, hcid, hs, hsh, ho⟩
  · rintro ⟨hn, hne, hcid, hs, hsh, ho⟩
    exact ⟨⟨hcid, hs⟩, ⟨hn, hsh, hne⟩, ho⟩

theorem Child.not_standing_stub :
  ¬ (Child.stub cid h).Standing known pl n
  := fun h => h.isSealed

mutual

/-- A standing subtree that is not absent has an entry. -/
theorem Child.Standing.keys_ne_nil :
  ∀ {pl : Place} {n : ℕ} {c : Child}, c.Standing known pl n → c ≠ .absent → keys c.items ≠ []
  | _, _, .absent, _, hc => absurd rfl hc
  | _, _, .stub _ _, h, _ => absurd h Child.not_standing_stub
  | _, _, .node _ _ _, h, _ =>
      (Child.standing_node.mp h).2.2.2.keys_ne_nil (Child.standing_node.mp h).2.1

theorem Body.Standing.keys_ne_nil :
  ∀ {pl : Place} {h : ℕ} {b : Body}, b.Standing known pl h → b ≠ .edge .absent →
    keys b.items ≠ []
  | _, _, .edge c, h, hb =>
      (Body.standing_edge.mp h).keys_ne_nil (fun hc => hb (congrArg Body.edge hc))
  | _, _, .entry c k v rest, _, _ => by simp [Body.items]

end

mutual

/-- The keys of a standing subtree are below its level. -/
theorem Child.Standing.height_lt :
  ∀ {pl : Place} {n : ℕ} {c : Child}, c.Standing known pl n →
    ∀ k ∈ keys c.items, heightForKey k < n
  | _, _, .absent, _, k, hk => by cases hk
  | _, _, .stub _ _, h, _, _ => absurd h Child.not_standing_stub
  | _, _, .node _ _ _, h, k, hk => by
      obtain ⟨rfl, -, -, hb⟩ := Child.standing_node.mp h
      apply Nat.lt_succ_of_le (hb.height_le k hk)

theorem Body.Standing.height_le :
  ∀ {pl : Place} {h : ℕ} {b : Body}, b.Standing known pl h →
    ∀ k ∈ keys b.items, heightForKey k ≤ h
  | _, _, .edge c, h, k, hk => ((Body.standing_edge.mp h).height_lt k hk).le
  | _, _, .entry c k' v rest, h, k, hk => by
      obtain ⟨hc, hheight, -, -, hrest⟩ := Body.standing_entry.mp h
      rw [Body.items, keys_append, keys_entry, List.mem_append, List.mem_cons] at hk
      rcases hk with hk | rfl | hk
      · apply (hc.height_lt k hk).le
      · apply hheight.le
      · apply hrest.height_le k hk

end

/-- The height of a node is determined by its contents. -/
theorem Body.Standing.height_unique
    (hb : b.Standing known pl h) (hb' : b.Standing known pl' h') (hne : b ≠ .edge .absent) :
  h = h'
  := by
  cases b with
  | entry c k v rest =>
      rw [← (Body.standing_entry.mp hb).2.1, ← (Body.standing_entry.mp hb').2.1]
  | edge c =>
      cases c with
      | absent => exact absurd rfl hne
      | stub cid hs => exact absurd (Body.standing_edge.mp hb) Child.not_standing_stub
      | node cid hs b =>
          rw [← (Child.standing_node.mp (Body.standing_edge.mp hb)).1,
            ← (Child.standing_node.mp (Body.standing_edge.mp hb')).1]

/-! ### The nodes of a standing tree -/

/-- What holds of a node somewhere in a standing tree: it stands itself, on a lower level,
its entries are among those of the tree and its blocks too. -/
structure Inside (known : Cid → ℕ → Prop) (n : ℕ) (ks : List Key) (blocks : List (Cid × Bytes))
    (x : Cid) (h : ℕ) (b : Body) : Prop where
  standing : ∃ pl, (Child.node (some x) h b).Standing known pl (h + 1)
  level : h < n
  keys : ∀ k ∈ Holed.keys b.items, k ∈ ks
  blocks : ∀ p ∈ (Child.node (some x) h b).blocks, p ∈ blocks

theorem Inside.mono {ks ks' : List Key} {bs bs' : List (Cid × Bytes)}
    (hi : Inside known n ks bs x h b) (hn : n ≤ n') (hk : ∀ k ∈ ks, k ∈ ks')
    (hb : ∀ p ∈ bs, p ∈ bs') :
  Inside known n' ks' bs' x h b
  where
  standing := hi.standing
  level := lt_of_lt_of_le hi.level hn
  keys k hmem := hk k (hi.keys k hmem)
  blocks p hmem := hb p (hi.blocks p hmem)

mutual

theorem Child.Standing.inside {x : Cid} {h : ℕ} {b : Body} :
  ∀ {pl : Place} {n : ℕ} {c : Child}, c.Standing known pl n → (x, h, b) ∈ c.nodes →
    Inside known n (keys c.items) c.blocks x h b
  | _, _, .absent, _, hmem => by cases hmem
  | _, _, .stub _ _, hc, _ => absurd hc Child.not_standing_stub
  | pl, _, .node cid h' body, hc, hmem => by
      obtain ⟨rfl, -, ⟨data, -, rfl⟩, hbody⟩ := Child.standing_node.mp hc
      rw [Child.nodes, List.mem_append] at hmem
      rcases hmem with hmem | hmem
      · obtain ⟨y, hy, heq⟩ := List.mem_map.mp hmem
        obtain ⟨rfl, rfl, rfl⟩ := Prod.mk.injEq .. ▸ (Prod.mk.injEq .. ▸ heq)
        obtain rfl := Option.mem_some_iff.mp (Option.mem_toList.mp hy)
        exact ⟨⟨pl, hc⟩, Nat.lt_succ_self _, fun _ hk => hk, fun _ hp => hp⟩
      · apply (hbody.inside hmem).mono (Nat.le_succ h') (fun _ hk => hk)
        intro p hp
        rw [Child.blocks, Child.nodes, List.filterMap_append, List.mem_append]
        exact .inr hp

theorem Body.Standing.inside {x : Cid} {h : ℕ} {b : Body} :
  ∀ {pl : Place} {h' : ℕ} {body : Body}, body.Standing known pl h' → (x, h, b) ∈ body.nodes →
    Inside known h' (keys body.items) body.blocks x h b
  | _, _, .edge c, hc, hmem => (Body.standing_edge.mp hc).inside hmem
  | _, _, .entry c k v rest, hc, hmem => by
      obtain ⟨hc, -, -, -, hrest⟩ := Body.standing_entry.mp hc
      rw [Body.nodes, List.mem_append] at hmem
      rw [Body.blocks, Body.nodes, List.filterMap_append]
      rcases hmem with hmem | hmem
      · apply (hc.inside hmem).mono le_rfl
        · intro k hk
          simp [Body.items, hk]
        · intro p hp
          apply List.mem_append_left _ hp
      · apply (hrest.inside hmem).mono le_rfl
        · intro k hk
          simp [Body.items, hk]
        · intro p hp
          apply List.mem_append_right _ hp

end

theorem Child.Standing.mem_blocks {cid : Option Cid}
    (hc : (Child.node cid h b).Standing known pl n) :
  ∃ data, encodeNode b = .ok data ∧ cid = some (Cid.compute .drisl data)
    ∧ (Cid.compute .drisl data, data) ∈ (Child.node cid h b).blocks
  := by
  obtain ⟨-, -, ⟨data, hdata, rfl⟩, -⟩ := Child.standing_node.mp hc
  refine ⟨data, hdata, rfl, Child.mem_blocks.mpr ⟨h, b, ?_, hdata⟩⟩
  simp [Child.nodes]

/-! ### The CID of a node determines the node -/

section Collision

variable {S : Set Bytes}

mutual

/-- Standing trees with the same CID are equal, if no two blocks of theirs have the same
CID. -/
theorem Child.Standing.eq_of_link (hinj : S.InjOn (Cid.compute .drisl)) :
  ∀ {pl pl' : Place} {n n' : ℕ} {c c' : Child}, c.Standing known pl n →
    c'.Standing known pl' n' → (∀ p ∈ c.blocks, p.2 ∈ S) → (∀ p ∈ c'.blocks, p.2 ∈ S) →
    c.link = c'.link → c = c'
  | _, _, _, _, .stub _ _, _, h, _, _, _, _ => absurd h Child.not_standing_stub
  | _, _, _, _, _, .stub _ _, _, h, _, _, _ => absurd h Child.not_standing_stub
  | _, _, _, _, .absent, .absent, _, _, _, _, _ => rfl
  | _, _, _, _, .absent, .node _ _ _, _, h', _, _, heq => by
      obtain ⟨-, -, ⟨data, -, rfl⟩, -⟩ := Child.standing_node.mp h'
      cases heq
  | _, _, _, _, .node _ _ _, .absent, h, _, _, _, heq => by
      obtain ⟨-, -, ⟨data, -, rfl⟩, -⟩ := Child.standing_node.mp h
      cases heq
  | _, _, _, _, .node cid hh b, .node cid' hh' b', h, h', hS, hS', heq => by
      obtain ⟨data, hdata, rfl, hmem⟩ := h.mem_blocks
      obtain ⟨data', hdata', rfl, hmem'⟩ := h'.mem_blocks
      obtain ⟨-, hne, -, hb⟩ := Child.standing_node.mp h
      obtain ⟨-, -, -, hb'⟩ := Child.standing_node.mp h'
      have hcid : Cid.compute .drisl data = Cid.compute .drisl data' :=
        Option.some.inj (Except.ok.inj heq)
      obtain rfl := hinj (hS _ hmem) (hS' _ hmem') hcid
      obtain ⟨hfirst, links, hlinks, hlinks'⟩ := encodeNode_inj hdata hdata' hb.ordered.valid
        hb'.ordered.valid
      have hsub : ∀ p ∈ b.blocks, p.2 ∈ S := by
        intro p hp
        apply hS p
        rw [Child.blocks, Child.nodes, List.filterMap_append, List.mem_append]
        exact .inr hp
      have hsub' : ∀ p ∈ b'.blocks, p.2 ∈ S := by
        intro p hp
        apply hS' p
        rw [Child.blocks, Child.nodes, List.filterMap_append, List.mem_append]
        exact .inr hp
      obtain rfl := hb.eq_of_links hinj hb' hsub hsub' hfirst hlinks hlinks'
      rw [hb.height_unique hb' hne]

theorem Body.Standing.eq_of_links (hinj : S.InjOn (Cid.compute .drisl)) :
  ∀ {pl pl' : Place} {h h' : ℕ} {b b' : Body} {links : List (Key × Cid × Option Cid)},
    b.Standing known pl h → b'.Standing known pl' h' → (∀ p ∈ b.blocks, p.2 ∈ S) →
    (∀ p ∈ b'.blocks, p.2 ∈ S) → b.first.link = b'.first.link → b.links = .ok links →
    b'.links = .ok links → b = b'
  | _, _, _, _, .edge c, .edge c', _, h, h', hS, hS', hfirst, _, _ => by
      rw [(Body.standing_edge.mp h).eq_of_link hinj (Body.standing_edge.mp h') hS hS' hfirst]
  | _, _, _, _, .edge _, .entry _ _ _ _, _, _, _, _, _, _, hlinks, hlinks' => by
      cases hlinks
      rw [Body.links] at hlinks'
      obtain ⟨_, -, hlinks'⟩ := bind_eq_ok.mp hlinks'
      obtain ⟨_, -, hlinks'⟩ := bind_eq_ok.mp hlinks'
      cases hlinks'
  | _, _, _, _, .entry _ _ _ _, .edge _, _, _, _, _, _, _, hlinks, hlinks' => by
      cases hlinks'
      rw [Body.links] at hlinks
      obtain ⟨_, -, hlinks⟩ := bind_eq_ok.mp hlinks
      obtain ⟨_, -, hlinks⟩ := bind_eq_ok.mp hlinks
      cases hlinks
  | _, _, _, _, .entry c k v rest, .entry c' k' v' rest', _, h, h', hS, hS', hfirst, hlinks,
    hlinks' => by
      obtain ⟨hc, -, -, -, hrest⟩ := Body.standing_entry.mp h
      obtain ⟨hc', -, -, -, hrest'⟩ := Body.standing_entry.mp h'
      rw [Body.links] at hlinks hlinks'
      obtain ⟨right, hright, hlinks⟩ := bind_eq_ok.mp hlinks
      obtain ⟨ls, hls, hlinks⟩ := bind_eq_ok.mp hlinks
      obtain ⟨right', hright', hlinks'⟩ := bind_eq_ok.mp hlinks'
      obtain ⟨ls', hls', hlinks'⟩ := bind_eq_ok.mp hlinks'
      cases hlinks
      cases hlinks'
      rw [Body.blocks, Body.nodes, List.filterMap_append] at hS hS'
      rw [hc.eq_of_link hinj hc' (fun p hp => hS p (List.mem_append_left _ hp))
        (fun p hp => hS' p (List.mem_append_left _ hp)) hfirst,
        hrest.eq_of_links hinj hrest' (fun p hp => hS p (List.mem_append_right _ hp))
          (fun p hp => hS' p (List.mem_append_right _ hp)) (hright.trans hright'.symm) hls hls']

end

variable {b b' rest : Body} {h h' n n' : ℕ}

/-- Nodes of standing trees with the same CID are equal. -/
theorem Inside.eq (hinj : S.InjOn (Cid.compute .drisl)) {ks ks' : List Key}
    {bs bs' : List (Cid × Bytes)} {x : Cid}
    (hi : Inside known n ks bs x h b) (hi' : Inside known n' ks' bs' x h' b')
    (hS : ∀ p ∈ bs, p.2 ∈ S) (hS' : ∀ p ∈ bs', p.2 ∈ S) :
  h = h' ∧ b = b'
  := by
  obtain ⟨pl, hc⟩ := hi.standing
  obtain ⟨pl', hc'⟩ := hi'.standing
  have heq := hc.eq_of_link hinj hc' (fun p hp => hS p (hi.blocks p hp))
    (fun p hp => hS' p (hi'.blocks p hp)) rfl
  obtain ⟨-, rfl, rfl⟩ := Child.node.injEq .. ▸ heq
  exact ⟨rfl, rfl⟩

omit [Hashing] in
theorem Body.blocks_entry {c : Child} {k : Key} {v : Cid} :
  (Body.entry c k v rest).blocks = c.blocks ++ rest.blocks
  := by
  rw [Body.blocks, Body.nodes, List.filterMap_append]
  rfl

omit [Hashing] in
theorem Child.mem_blocks_node {cid : Option Cid} {p : Cid × Bytes} (hp : p ∈ b.blocks) :
  p ∈ (Child.node cid h b).blocks
  := by
  rw [Child.blocks, Child.nodes, List.filterMap_append, List.mem_append]
  exact .inr hp

mutual

/-- No two nodes of a standing tree have the same CID, if no two blocks have. -/
theorem Child.Standing.nodup_nodes (hinj : S.InjOn (Cid.compute .drisl)) :
  ∀ {pl : Place} {n : ℕ} {c : Child}, c.Standing known pl n → (∀ p ∈ c.blocks, p.2 ∈ S) →
    (c.nodes.map Prod.fst).Nodup
  | _, _, .absent, _, _ => .nil
  | _, _, .stub _ _, h, _ => absurd h Child.not_standing_stub
  | _, _, .node cid hh b, h, hS => by
      have hself := h
      obtain ⟨rfl, -, ⟨data, -, rfl⟩, hb⟩ := Child.standing_node.mp h
      have hS' : ∀ p ∈ b.blocks, p.2 ∈ S := fun p hp => hS p (Child.mem_blocks_node hp)
      rw [Child.nodes, List.map_append]
      apply List.nodup_cons.mpr ⟨?_, hb.nodup_nodes hinj hS'⟩
      intro hmem
      obtain ⟨⟨x, h', b'⟩, hnode, hx⟩ := List.mem_map.mp hmem
      obtain rfl : x = Cid.compute .drisl data := hx
      have hin := hb.inside hnode
      have hroot := hself.inside (x := Cid.compute .drisl data) (h := hh) (b := b)
        (by simp [Child.nodes])
      have hlevel := hin.level
      rw [(hroot.eq hinj hin hS hS').1] at hlevel
      apply lt_irrefl _ hlevel

theorem Body.Standing.nodup_nodes (hinj : S.InjOn (Cid.compute .drisl)) :
  ∀ {pl : Place} {h : ℕ} {b : Body}, b.Standing known pl h → (∀ p ∈ b.blocks, p.2 ∈ S) →
    (b.nodes.map Prod.fst).Nodup
  | _, _, .edge c, h, hS => (Body.standing_edge.mp h).nodup_nodes hinj hS
  | _, _, .entry c k v rest, h, hS => by
      obtain ⟨hc, -, -, -, hrest⟩ := Body.standing_entry.mp h
      rw [Body.blocks_entry] at hS
      have hSc : ∀ p ∈ c.blocks, p.2 ∈ S := fun p hp => hS p (List.mem_append_left _ hp)
      have hSrest : ∀ p ∈ rest.blocks, p.2 ∈ S := fun p hp => hS p (List.mem_append_right _ hp)
      rw [Body.nodes, List.map_append]
      apply List.Nodup.append (hc.nodup_nodes hinj hSc) (hrest.nodup_nodes hinj hSrest)
      intro x hx hx'
      obtain ⟨⟨x, h₁, b₁⟩, hnode, rfl⟩ := List.mem_map.mp hx
      obtain ⟨⟨x', h₂, b₂⟩, hnode', hfst⟩ := List.mem_map.mp hx'
      obtain rfl : x' = x := hfst
      have hin := hc.inside hnode
      have hin' := hrest.inside hnode'
      obtain ⟨-, rfl⟩ := hin.eq hinj hin' hSc hSrest
      obtain ⟨pl', hstand⟩ := hin.standing
      obtain ⟨key, hkey⟩ := List.exists_mem_of_ne_nil _ (hstand.keys_ne_nil (by simp))
      obtain ⟨-, -, hlt, hgt⟩ := sorted_append.mp h.ordered.sorted
      apply lt_asymm (hlt key (hin.keys key hkey)) (hgt key (hin'.keys key hkey))

end

end Collision

mutual

/-- The CIDs of a sealed tree are those of its nodes. -/
theorem Child.Sealed.cids :
  ∀ {c : Child}, c.Sealed → c.cids = c.nodes.map Prod.fst
  | .absent, _ => rfl
  | .stub _ _, h => h.elim
  | .node cid h b, ⟨⟨data, _, hcid⟩, hb⟩ => by
      rw [Child.cids, Child.nodes, List.map_append, hb.cids, hcid]
      rfl

theorem Body.Sealed.cids :
  ∀ {b : Body}, b.Sealed → b.cids = b.nodes.map Prod.fst
  | .edge c, h => Child.Sealed.cids h
  | .entry c k v rest, ⟨hc, hrest⟩ => by
      rw [Body.cids, Body.nodes, List.map_append, hc.cids, hrest.cids]

end

/-! ### The entries determine the tree -/

omit [Hashing] in
/-- Lists that split at their first element with a property split in the same way. -/
theorem append_cons_inj_of_first {α : Type} {p : α → Prop} {a a' : α} {m m' : List α}
    (ha : p a) (ha' : p a') :
  ∀ {l l' : List α}, (∀ x ∈ l, ¬ p x) → (∀ x ∈ l', ¬ p x) → l ++ a :: m = l' ++ a' :: m' →
    l = l' ∧ a = a' ∧ m = m'
  | [], [], _, _, h => ⟨rfl, List.cons_eq_cons.mp h⟩
  | [], x :: l', _, hl', h => by
      obtain ⟨rfl, -⟩ := List.cons_eq_cons.mp h
      exact absurd ha (hl' a List.mem_cons_self)
  | x :: l, [], hl, _, h => by
      obtain ⟨rfl, -⟩ := List.cons_eq_cons.mp h
      exact absurd ha' (hl x List.mem_cons_self)
  | x :: l, x' :: l', hl, hl', h => by
      obtain ⟨rfl, htail⟩ := List.cons_eq_cons.mp h
      obtain ⟨rfl, hrest⟩ := append_cons_inj_of_first ha ha'
        (fun y hy => hl y (List.mem_cons_of_mem x hy))
        (fun y hy => hl' y (List.mem_cons_of_mem x hy)) htail
      exact ⟨rfl, hrest⟩

/-- Whether an item is an entry whose key has the given height. -/
def OnLevel (h : ℕ) : Item → Prop
  | .entry k _ => heightForKey k = h
  | .hole _ => False

theorem Child.Standing.not_onLevel (hc : c.Standing known pl h) :
  ∀ x ∈ c.items, ¬ OnLevel h x
  := by
  intro x hx hlevel
  cases x with
  | hole cid => exact hlevel
  | entry k v =>
      have hlt := hc.height_lt k (List.mem_filterMap.mpr ⟨_, hx, rfl⟩)
      apply hlt.ne hlevel

mutual

/-- Standing trees on the same level with the same entries are equal. -/
theorem Child.Standing.eq_of_items :
  ∀ {pl pl' : Place} {n : ℕ} {c c' : Child}, c.Standing known pl n → c'.Standing known pl' n →
    c.items = c'.items → c = c'
  | _, _, _, .stub _ _, _, h, _, _ => absurd h Child.not_standing_stub
  | _, _, _, _, .stub _ _, _, h, _ => absurd h Child.not_standing_stub
  | _, _, _, .absent, .absent, _, _, _ => rfl
  | _, _, _, .absent, .node _ _ _, _, h', heq => by
      have hne := h'.keys_ne_nil (by simp)
      rw [← heq] at hne
      exact absurd rfl hne
  | _, _, _, .node _ _ _, .absent, h, _, heq => by
      have hne := h.keys_ne_nil (by simp)
      rw [heq] at hne
      exact absurd rfl hne
  | _, _, _, .node cid hh b, .node cid' hh' b', h, h', heq => by
      obtain ⟨rfl, -, ⟨data, hdata, rfl⟩, hb⟩ := Child.standing_node.mp h
      obtain ⟨hn, -, ⟨data', hdata', rfl⟩, hb'⟩ := Child.standing_node.mp h'
      obtain rfl := Nat.succ.inj hn
      obtain rfl := hb.eq_of_items hb' heq
      rw [hdata] at hdata'
      obtain rfl := Except.ok.inj hdata'
      rfl

theorem Body.Standing.eq_of_items :
  ∀ {pl pl' : Place} {h : ℕ} {b b' : Body}, b.Standing known pl h → b'.Standing known pl' h →
    b.items = b'.items → b = b'
  | _, _, _, .edge c, .edge c', h, h', heq => by
      rw [(Body.standing_edge.mp h).eq_of_items (Body.standing_edge.mp h') heq]
  | _, _, _, .edge c, .entry c' k' v' rest', h, h', heq => by
      have hlevel : OnLevel _ (.entry k' v') := (Body.standing_entry.mp h').2.1
      have hmem : Holed.Item.entry k' v' ∈ (Body.entry c' k' v' rest').items := by
        simp [Body.items]
      rw [← heq] at hmem
      exact absurd hlevel ((Body.standing_edge.mp h).not_onLevel _ hmem)
  | _, _, _, .entry c k v rest, .edge c', h, h', heq => by
      have hlevel : OnLevel _ (.entry k v) := (Body.standing_entry.mp h).2.1
      have hmem : Holed.Item.entry k v ∈ (Body.entry c k v rest).items := by
        simp [Body.items]
      rw [heq] at hmem
      exact absurd hlevel ((Body.standing_edge.mp h').not_onLevel _ hmem)
  | _, _, hh, .entry c k v rest, .entry c' k' v' rest', h, h', heq => by
      obtain ⟨hc, hk, -, -, hrest⟩ := Body.standing_entry.mp h
      obtain ⟨hc', hk', -, -, hrest'⟩ := Body.standing_entry.mp h'
      obtain ⟨hl, hentry, hm⟩ := @append_cons_inj_of_first _ (OnLevel hh)
        (.entry k v) (.entry k' v') _ _ hk hk' _ _ hc.not_onLevel hc'.not_onLevel heq
      cases hentry
      rw [hc.eq_of_items hc' hl, hrest.eq_of_items hrest' hm]

end

end Sealed

end Shrike.Mst
