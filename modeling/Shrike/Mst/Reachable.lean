import Shrike.Mst.Canonical

/-!
# The blocks reachable from a root

Following the links of node blocks from the root of a flushed tree reaches exactly the nodes
of the tree.
-/

namespace Shrike.Mst

open Cbor Holed Except

/-- The blocks a store has. -/
abbrev Blocks := Cid → Option Bytes

/-- A byte string is the block of a node with the given contents. -/
def Encodes (data : Bytes) (nd : NodeData) : Prop :=
  (∀ e ∈ nd.entries, e.Fits) ∧ encodeNodeData nd = data

/-- A byte string is the block of a node. -/
def IsNode (data : Bytes) : Prop := ∃ nd, Encodes data nd

/-- The CIDs that the links of node blocks lead to from a root. -/
inductive Reachable (store : Blocks) (root : Cid) : Cid → Prop
  | root : Reachable store root root
  | child {x y : Cid} {data : Bytes} {nd : NodeData} : Reachable store root x →
      store x = some data → Encodes data nd → y ∈ nd.children → Reachable store root y

theorem children_compress (left : Option Cid) :
  ∀ (prev : Key) (links : List (Key × Cid × Option Cid)),
    ({ left, entries := compress prev links } : NodeData).children
      = left.toList ++ links.filterMap (fun e => e.2.2)
  | _, [] => rfl
  | prev, (k, v, right) :: links => by
      have ih := children_compress left k links
      rw [NodeData.children, List.append_cancel_left_eq] at ih
      rw [NodeData.children, List.append_cancel_left_eq, compress, List.filterMap_cons,
        List.filterMap_cons, ih]

/-- The contents of a node block are those of the node. -/
theorem Body.Standing.encodes [Hashing] {known : Cid → ℕ → Prop} {pl : Place} {h : ℕ} {b : Body}
    {data : Bytes} (hb : b.Standing known pl h) (hdata : encodeNode b = .ok data) :
  ∃ left links, b.first.link = .ok left ∧ b.links = .ok links
    ∧ ∀ nd, Encodes data nd ↔ nd = { left, entries := compress [] links }
  := by
  obtain ⟨left, links, hleft, hlinks, rfl⟩ := encodeNode_eq_ok hdata
  have hfits := compress_fits (fun e he => hb.ordered.valid e.1 (Body.links_keys hlinks e he)) []
    (Nat.zero_le _)
  refine ⟨left, links, hleft, hlinks, fun nd => ⟨?_, ?_⟩⟩
  · rintro ⟨hnd, heq⟩
    apply encodeNodeData_inj hnd hfits heq
  · rintro rfl
    exact ⟨hfits, rfl⟩

/-- The subtrees of a node. -/
def Body.subtrees : Body → List Child
  | .edge c => [c]
  | .entry c _ _ rest => c :: rest.subtrees

/-- The links of a node are those of its subtrees. -/
theorem Body.mem_links {y : Cid} :
  ∀ {b : Body} {left : Option Cid} {links : List (Key × Cid × Option Cid)},
    b.first.link = .ok left → b.links = .ok links →
    (y ∈ left.toList ++ links.filterMap (fun e => e.2.2)
      ↔ ∃ c ∈ b.subtrees, c.link = .ok (some y))
  | .edge c, left, _, hleft, hlinks => by
      cases hlinks
      rw [Body.first] at hleft
      simp [subtrees, hleft]
  | .entry c k v rest, left, _, hleft, hlinks => by
      rw [Body.links] at hlinks
      obtain ⟨right, hright, hlinks⟩ := bind_eq_ok.mp hlinks
      obtain ⟨ls, hls, hlinks⟩ := bind_eq_ok.mp hlinks
      cases hlinks
      have ih := Body.mem_links (y := y) hright hls
      rw [Body.first] at hleft
      rw [List.mem_append] at ih
      simp only [subtrees, List.mem_cons, exists_eq_or_imp, ← ih, List.mem_append, hleft,
        List.filterMap_cons]
      cases right with
      | none => simp
      | some r => simp

variable [Hashing]

theorem Child.Sealed.link_mem {c : Child} {y : Cid} (hc : c.Sealed) (hlink : c.link = .ok (some y)) :
  y ∈ c.nodes.map Prod.fst
  := by
  cases c with
  | absent => cases hlink
  | stub cid h => cases hc
  | node cid h b =>
      cases cid with
      | none => cases hlink
      | some x =>
          cases hlink
          simp [Child.nodes]

theorem Body.subtrees_mem {c : Child} :
  ∀ {b : Body}, c ∈ b.subtrees → b.Sealed → c.Sealed ∧ ∀ n ∈ c.nodes, n ∈ b.nodes
  | .edge c', hmem, hb => by
      obtain rfl := List.mem_singleton.mp hmem
      exact ⟨hb, fun n hn => hn⟩
  | .entry c' k v rest, hmem, ⟨hc', hrest⟩ => by
      rcases List.mem_cons.mp hmem with rfl | hmem
      · exact ⟨hc', fun n hn => List.mem_append_left _ hn⟩
      · obtain ⟨hc, hsub⟩ := Body.subtrees_mem hmem hrest
        exact ⟨hc, fun n hn => List.mem_append_right _ (hsub n hn)⟩

section Reachable

variable {F : Child} {store : Blocks} {root : Cid}

/-- Links lead only to nodes of the tree. -/
theorem Reachable.mem_nodes (hF : Ground F) (hstore : ∀ p ∈ F.blocks, store p.1 = some p.2)
    (hroot : root ∈ F.nodes.map Prod.fst) {x : Cid} (h : Reachable store root x) :
  x ∈ F.nodes.map Prod.fst
  := by
  induction h with
  | root => exact hroot
  | @child x y data nd _ hdata hencodes hmem ih =>
      obtain ⟨⟨x, h, b⟩, hnode, rfl⟩ := List.mem_map.mp ih
      obtain ⟨pl, hb⟩ := hF.standing hnode
      obtain ⟨data', hdata', -⟩ := hF.cid hnode
      obtain ⟨left, links, hleft, hlinks, hencodes'⟩ := hb.encodes hdata'
      rw [hstore _ (Child.mem_blocks.mpr ⟨h, b, hnode, hdata'⟩)] at hdata
      cases hdata
      obtain rfl := (hencodes' nd).mp hencodes
      rw [children_compress, Body.mem_links hleft hlinks] at hmem
      obtain ⟨c, hc, hlink⟩ := hmem
      obtain ⟨hsealed, hsub⟩ := Body.subtrees_mem hc hb.isSealed
      obtain ⟨n, hn, rfl⟩ := List.mem_map.mp (hsealed.link_mem hlink)
      apply List.mem_map_of_mem (hF.sub hnode n (hsub n hn))

mutual

/-- Every node of a subtree whose root links lead to is one that links lead to. -/
theorem Child.reachable (hF : Ground F) (hstore : ∀ p ∈ F.blocks, store p.1 = some p.2) :
  ∀ {c : Child}, c.Sealed → (∀ n ∈ c.nodes, n ∈ F.nodes) →
    (∀ y, c.link = .ok (some y) → Reachable store root y) →
    ∀ n ∈ c.nodes, Reachable store root n.1
  | .absent, _, _, _, _, hn => by cases hn
  | .stub _ _, hs, _, _, _, _ => hs.elim
  | .node cid h b, ⟨⟨data, hdata, hcid⟩, hb⟩, hsub, hlink, n, hn => by
      subst hcid
      have hx := hlink _ rfl
      have hnode := hsub (Cid.compute .drisl data, h, b) (by simp [Child.nodes])
      rw [Child.nodes, Option.toList_some, List.map_singleton, List.singleton_append,
        List.mem_cons] at hn
      rcases hn with rfl | hn
      · exact hx
      · obtain ⟨pl, hstand⟩ := hF.standing hnode
        obtain ⟨left, links, hleft, hlinks, hencodes⟩ := hstand.encodes hdata
        apply Body.reachable hF hstore hb (hF.sub hnode) _ n hn
        intro c hc y hy
        apply hx.child (hstore _ (Child.mem_blocks.mpr ⟨h, b, hnode, hdata⟩)) ((hencodes _).mpr rfl)
        rw [children_compress, Body.mem_links hleft hlinks]
        exact ⟨c, hc, hy⟩

theorem Body.reachable (hF : Ground F) (hstore : ∀ p ∈ F.blocks, store p.1 = some p.2) :
  ∀ {b : Body}, b.Sealed → (∀ n ∈ b.nodes, n ∈ F.nodes) →
    (∀ c ∈ b.subtrees, ∀ y, c.link = .ok (some y) → Reachable store root y) →
    ∀ n ∈ b.nodes, Reachable store root n.1
  | .edge c, hs, hsub, hlink, n, hn =>
      Child.reachable hF hstore hs hsub (hlink c (List.mem_singleton_self c)) n hn
  | .entry c k v rest, ⟨hc, hrest⟩, hsub, hlink, n, hn => by
      rcases List.mem_append.mp hn with hn | hn
      · apply Child.reachable hF hstore hc (fun n hn => hsub n (List.mem_append_left _ hn)) _ n hn
        apply hlink c List.mem_cons_self
      · apply Body.reachable hF hstore hrest (fun n hn => hsub n (List.mem_append_right _ hn)) _ n hn
        intro c' hc'
        apply hlink c' (List.mem_cons_of_mem _ hc')

end

/-- Links from the root of a flushed tree lead to exactly its nodes. -/
theorem Ground.reachable_iff (hF : Ground F) (hs : F.Sealed) (hlink : F.link = .ok (some root))
    (hstore : ∀ p ∈ F.blocks, store p.1 = some p.2) {x : Cid} :
  Reachable store root x ↔ x ∈ F.nodes.map Prod.fst
  := by
  constructor
  · apply Reachable.mem_nodes hF hstore (hs.link_mem hlink)
  · intro hx
    obtain ⟨n, hn, rfl⟩ := List.mem_map.mp hx
    apply Child.reachable hF hstore hs (fun n hn => hn) _ n hn
    intro y hy
    rw [hlink] at hy
    cases hy
    exact .root

end Reachable

end Shrike.Mst
