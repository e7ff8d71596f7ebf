import Shrike.Mst.Sealed
import Shrike.Data.Assoc

/-!
# Trees over a flushed tree

A tree in memory whose unread nodes are nodes of a complete tree, the one that was flushed
or loaded last: reading more of it from the blocks of that tree does not change what it is
with the unread nodes filled in.
-/

namespace Shrike.Mst

open Cbor Holed Except

/-! ### Links -/

theorem Child.fill_link {known : Cid → Option (ℕ × Body)} (c : Child) :
  (c.fill known).link = c.link
  := by
  cases c with
  | absent => rfl
  | stub cid h =>
      rw [Child.fill]
      split <;> rfl
  | node cid h b => cases cid <;> rfl

theorem Body.fill_links {known : Cid → Option (ℕ × Body)} (b : Body) :
  (b.fill known).links = b.links
  := by
  induction b using Body.spine with
  | edge c => rfl
  | entry c k v rest ih =>
      rw [Body.fill, Body.links, Body.links, ih, (rest.fill_first .absent).1, Child.fill_link]

theorem encodeNode_fill {known : Cid → Option (ℕ × Body)} (b : Body) :
  encodeNode (b.fill known) = encodeNode b
  := by
  rw [encodeNode, encodeNode, Body.fill_links, (b.fill_first .absent).1, Child.fill_link]

/-! ### Unread contents -/

/-- A node as its parent knows it. -/
def Child.stubbed : Child → Child
  | .node (some cid) h _ => .stub cid h
  | c => c

/-- The contents of a node as they are read, with the subtrees unread. -/
def Body.stubbed : Body → Body
  | .edge c => .edge c.stubbed
  | .entry c k v rest => .entry c.stubbed k v rest.stubbed

variable [Hashing] {known : Cid → ℕ → Prop}

variable {pl pl' : Place} {links : List (Key × Cid × Option Cid)} {h h' h₀ : ℕ} {left : Option Cid}
  {b b' : Body}

theorem Child.Standing.stubAt {c : Child} (hc : c.Standing known pl h) (hleft : c.link = .ok left) :
  stubAt (h - 1) left = c.stubbed
  := by
  cases c with
  | absent =>
      cases hleft
      rfl
  | stub cid h' => exact absurd hc Child.not_standing_stub
  | node cid h' b =>
      obtain ⟨rfl, -, ⟨data, -, rfl⟩, -⟩ := Child.standing_node.mp hc
      cases hleft
      rfl

/-- The contents that are read from the block of a node are those of the node, unread. -/
theorem Body.Standing.stubBody :
  ∀ {pl : Place} {h : ℕ} {b : Body} {left : Option Cid} {links : List (Key × Cid × Option Cid)}
    (prev : Key), b.Standing known pl h → b.first.link = .ok left → b.links = .ok links →
    stubBody (h - 1) left ((links.map Prod.fst).zip (compress prev links)) = b.stubbed
  | _, _, .edge c, _, _, _, hb, hleft, hlinks => by
      cases hlinks
      rw [List.map_nil, List.zip_nil_left, Mst.stubBody, Body.stubbed,
        (Body.standing_edge.mp hb).stubAt hleft]
  | _, _, .entry c k v rest, _, _, prev, hb, hleft, hlinks => by
      obtain ⟨hc, -, -, -, hrest⟩ := Body.standing_entry.mp hb
      rw [Body.links] at hlinks
      obtain ⟨right, hright, hlinks⟩ := bind_eq_ok.mp hlinks
      obtain ⟨ls, hls, hlinks⟩ := bind_eq_ok.mp hlinks
      cases hlinks
      rw [List.map_cons, compress, List.zip_cons_cons, Mst.stubBody, Body.stubbed,
        hc.stubAt hleft, hrest.stubBody k hright hls]

omit [Hashing] in
theorem Body.links_sorted :
  ∀ {b : Body} {links : List (Key × Cid × Option Cid)}, b.links = .ok links → Sorted b.items →
    (links.map Prod.fst).Pairwise (· < ·)
  | .edge _, _, h, _ => by
      cases h
      exact .nil
  | .entry c k v rest, _, h, hs => by
      obtain ⟨-, hrest, -, hgt⟩ := sorted_append.mp hs
      rw [Body.links] at h
      obtain ⟨right, -, h⟩ := bind_eq_ok.mp h
      obtain ⟨ls, hls, h⟩ := bind_eq_ok.mp h
      cases h
      apply List.pairwise_cons.mpr ⟨?_, Body.links_sorted hls hrest⟩
      intro x hx
      obtain ⟨e, he, rfl⟩ := List.mem_map.mp hx
      apply hgt e.1 (Body.links_keys hls e he)

omit [Hashing] in
theorem Body.links_length :
  ∀ {b : Body} {links : List (Key × Cid × Option Cid)}, b.links = .ok links →
    links.length = b.size
  | .edge _, _, h => by
      cases h
      rfl
  | .entry c k v rest, _, h => by
      rw [Body.links] at h
      obtain ⟨right, -, h⟩ := bind_eq_ok.mp h
      obtain ⟨ls, hls, h⟩ := bind_eq_ok.mp h
      cases h
      rw [List.length_cons, Body.size, Body.links_length hls]

theorem Body.Standing.keysFrom_links (hb : b.Standing known pl h) (hlinks : b.links = .ok links) :
  keysFrom true [] (compress [] links) = .ok (links.map Prod.fst)
  := by
  apply keysFrom_compress links true []
  · intro e he
    apply hb.ordered.valid e.1 (Body.links_keys hlinks e he)
  · apply Body.links_sorted hlinks hb.ordered.sorted
  · simp

/-- The height of a node read from its block: that of its keys, or the given one if it has
none. -/
theorem Body.Standing.read_height (hb : b.Standing known pl h) (hlinks : b.links = .ok links)
    (hseed : b.HasEntry ∨ h₀ = h) :
  ((links.map Prod.fst).head?.map heightForKey).getD h₀ = h
  := by
  cases b with
  | edge c =>
      cases hlinks
      rcases hseed with ⟨_, _, _, _, hentry⟩ | rfl
      · cases hentry
      · rfl
  | entry c k v rest =>
      rw [Body.links] at hlinks
      obtain ⟨right, -, hlinks⟩ := bind_eq_ok.mp hlinks
      obtain ⟨ls, -, hlinks⟩ := bind_eq_ok.mp hlinks
      cases hlinks
      apply (Body.standing_entry.mp hb).2.1

/-- What is read from the block of a node is the node, unread below. -/
theorem Body.Standing.populateNode_eq (hb : b.Standing known pl h)
    (hleft : b.first.link = .ok left) (hlinks : b.links = .ok links) (hseed : b.HasEntry ∨ h₀ = h)
    (hp : populateNode h₀ { left, entries := compress [] links } pl' = .ok (h', b')) :
  h' = h ∧ b' = b.stubbed
  := by
  obtain ⟨ks, hks, rfl, rfl, -, -⟩ := populateNode_ok hp
  rw [forEachKey, hb.keysFrom_links hlinks] at hks
  obtain rfl := Except.ok.inj hks
  rw [hb.read_height hlinks hseed, hb.stubBody [] hleft hlinks]
  exact ⟨rfl, rfl⟩

/-- The block of a node is read at every place that admits its keys. -/
theorem Body.Standing.populateNode_ok (hb : b.Standing known pl h)
    (hleft : b.first.link = .ok left) (hlinks : b.links = .ok links)
    (hseed : b.HasEntry ∨ h₀ = h) (hadmits : ∀ k ∈ keys b.items, pl'.admits k = true) :
  populateNode h₀ { left, entries := compress [] links } pl' = .ok (h, b.stubbed)
  := by
  have hends : ((links.map Prod.fst).head?.toList ++ (links.map Prod.fst).getLast?.toList).find?
      (fun key => !pl'.admits key) = none := by
    rw [List.find?_eq_none]
    intro k hk
    have hmem : k ∈ links.map Prod.fst := by
      rcases List.mem_append.mp hk with hk | hk
      · apply List.mem_of_mem_head? (Option.mem_toList.mp hk)
      · apply List.mem_of_mem_getLast? (Option.mem_toList.mp hk)
    obtain ⟨e, he, rfl⟩ := List.mem_map.mp hmem
    simp [hadmits e.1 (Body.links_keys hlinks e he)]
  rw [Mst.populateNode, forEachKey, hb.keysFrom_links hlinks, ok_bind]
  simp only [hends, hb.read_height hlinks hseed, hb.stubBody [] hleft hlinks]

/-! ### The flushed tree -/

/-- The node of a tree with the given CID. -/
def knownNode (F : Child) (cid : Cid) : Option (ℕ × Body) := F.nodes.lookup cid

/-- A complete tree has a node with the given CID and height, and it is not empty. -/
def Known (F : Child) (cid : Cid) (h : ℕ) : Prop :=
  ∃ b, knownNode F cid = some (h, b) ∧ b ≠ .edge .absent

/-- A complete tree as a flush leaves it: each node stands on its level, carries the CID of
its block, and no two nodes carry the same CID. -/
structure Ground (F : Child) : Prop where
  nodup : (F.nodes.map Prod.fst).Nodup
  standing : ∀ {x h b}, (x, h, b) ∈ F.nodes → ∃ pl, b.Standing (fun _ _ => False) pl h
  cid : ∀ {x h b}, (x, h, b) ∈ F.nodes →
    ∃ data, encodeNode b = .ok data ∧ x = Cid.compute .drisl data
  sub : ∀ {x h b}, (x, h, b) ∈ F.nodes → ∀ n ∈ b.nodes, n ∈ F.nodes

/-- A block source that has no other block for a CID of a tree than the tree's own. -/
def Faithful (src : BlockSource) (F : Child) : Prop :=
  ∀ p ∈ F.blocks, ∀ data, src p.1 = .ok (some data) → data = p.2

section Ground

variable {F : Child} (hF : Ground F)
include hF

variable {h h' h₀ n : ℕ}

theorem Ground.lookup {x : Cid} {b : Body} (hmem : (x, h, b) ∈ F.nodes) :
  knownNode F x = some (h, b)
  := List.lookup_of_mem hF.nodup hmem

/-- The subtrees of a known node, unread, are known nodes. -/
theorem Ground.stubbed_child {pl : Place} {c : Child}
    (hc : c.Standing (fun _ _ => False) pl n) (hsub : ∀ m ∈ c.nodes, m ∈ F.nodes) :
  c.stubbed.Shaped (Known F) n ∧ c.stubbed.fill (knownNode F) = c
  := by
  cases c with
  | absent => exact ⟨trivial, rfl⟩
  | stub cid h => exact absurd hc Child.not_standing_stub
  | node cid h b =>
      obtain ⟨hn, hne, ⟨data, -, rfl⟩, -⟩ := Child.standing_node.mp hc
      have hlookup := hF.lookup (hsub (Cid.compute .drisl data, h, b)
        (by simp [Child.nodes]))
      refine ⟨⟨hn, b, hlookup, hne⟩, ?_⟩
      rw [Child.stubbed, Child.fill, hlookup]

theorem Ground.stubbed_body :
  ∀ {pl : Place} {h : ℕ} {b : Body}, b.Standing (fun _ _ => False) pl h →
    (∀ m ∈ b.nodes, m ∈ F.nodes) →
    b.stubbed.Shaped (Known F) h ∧ b.stubbed.fill (knownNode F) = b
  | _, _, .edge c, hb, hsub => by
      obtain ⟨hshaped, hfill⟩ := hF.stubbed_child (Body.standing_edge.mp hb) hsub
      use hshaped
      rw [Body.stubbed, Body.fill, hfill]
  | _, _, .entry c k v rest, hb, hsub => by
      obtain ⟨hc, hk, -, -, hrest⟩ := Body.standing_entry.mp hb
      rw [Body.nodes] at hsub
      obtain ⟨hshaped, hfill⟩ := hF.stubbed_child hc
        (fun m hm => hsub m (List.mem_append_left _ hm))
      obtain ⟨hshaped', hfill'⟩ := Ground.stubbed_body hrest
        (fun m hm => hsub m (List.mem_append_right _ hm))
      use ⟨hshaped, hk, hshaped'⟩
      rw [Body.stubbed, Body.fill, hfill, hfill']

/-- What is read for a known node is the node, unread below. -/
theorem Ground.reads {src : BlockSource} (hsrc : Faithful src F) {pl : Place} {x : Cid}
    {b b' : Body} (hknown : knownNode F x = some (h, b))
    (hseed : b.HasEntry ∨ h₀ = h) (hreads : Reads src pl x h₀ h' b') :
  h' = h ∧ b' = b.stubbed
  := by
  have hmem := List.mem_of_lookup hknown
  obtain ⟨pl', hb⟩ := hF.standing hmem
  obtain ⟨data, hdata, -⟩ := hF.cid hmem
  obtain ⟨left, links, hleft, hlinks, rfl⟩ := encodeNode_eq_ok hdata
  obtain ⟨data', nd, hread, hdecode, hpopulate⟩ := hreads
  obtain rfl := hsrc _ (Child.mem_blocks.mpr ⟨h, b, hmem, hdata⟩) data' hread
  have hfits := compress_fits (fun e he => hb.ordered.valid e.1 (Body.links_keys hlinks e he)) []
    (Nat.zero_le _)
  obtain ⟨rfl, -⟩ := (decodeNodeData_ok_iff hfits).mp hdecode
  apply hb.populateNode_eq hleft hlinks hseed hpopulate

end Ground

omit [Hashing] in
theorem Body.nonempty_of_fill {known : Cid → Option (ℕ × Body)} (h : b.fill known ≠ .edge .absent) :
  b ≠ .edge .absent
  := by
  rintro rfl
  exact h rfl

mutual

/-- Reading more of a tree keeps its levels, and what it is filled in. -/
theorem Ground.loads {F : Child} {src : BlockSource} (hF : Ground F) (hsrc : Faithful src F) :
  ∀ {pl : Place} {n : ℕ} {c c' : Child}, Loads src pl c c' → c.Shaped (Known F) n →
    c'.Shaped (Known F) n ∧ c'.fill (knownNode F) = c.fill (knownNode F)
  | _, _, _, _, .refl, h => ⟨h, rfl⟩
  | _, _, _, _, .read hread hbody, ⟨hn, b, hknown, hne⟩ => by
      have hmem := List.mem_of_lookup hknown
      obtain ⟨pl', hb⟩ := hF.standing hmem
      obtain ⟨rfl, rfl⟩ := hF.reads hsrc hknown (.inr rfl) hread
      obtain ⟨hshaped, hfill⟩ := hF.stubbed_body hb (hF.sub hmem)
      obtain ⟨hshaped', hfill'⟩ := hF.loadsBody hsrc hbody hshaped
      rw [hfill] at hfill'
      rw [← hfill'] at hne
      refine ⟨⟨hn, hshaped', Body.nonempty_of_fill hne⟩, ?_⟩
      rw [Child.fill, Child.fill, hknown, hfill']
  | _, _, _, _, .node hbody, ⟨hn, hb, hne⟩ => by
      obtain ⟨hshaped, hfill⟩ := hF.loadsBody hsrc hbody hb
      refine ⟨⟨hn, hshaped, ?_⟩, ?_⟩
      · rintro rfl
        cases hbody with
        | edge hc =>
            cases hc
            exact hne rfl
      · rw [Child.fill, Child.fill, hfill]

theorem Ground.loadsBody {F : Child} {src : BlockSource} (hF : Ground F)
    (hsrc : Faithful src F) :
  ∀ {pl : Place} {h : ℕ} {b b' : Body}, LoadsBody src pl b b' → b.Shaped (Known F) h →
    b'.Shaped (Known F) h ∧ b'.fill (knownNode F) = b.fill (knownNode F)
  | _, _, _, _, .edge hc, hb => by
      obtain ⟨hshaped, hfill⟩ := hF.loads hsrc hc hb
      use hshaped
      rw [Body.fill, Body.fill, hfill]
  | _, _, _, _, .entry hc hrest, ⟨hb, hk, hbrest⟩ => by
      obtain ⟨hshaped, hfill⟩ := hF.loads hsrc hc hb
      obtain ⟨hshaped', hfill'⟩ := hF.loadsBody hsrc hrest hbrest
      use ⟨hshaped, hk, hshaped'⟩
      rw [Body.fill, Body.fill, hfill, hfill']

end

end Shrike.Mst
