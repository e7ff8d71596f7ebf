import Shrike.Mst.Loading

/-!
# Order and lookups

A loaded tree is in key order, within its nodes and across them, whatever blocks it was
read from: each node is checked against its place when it is read. So the search through
the loaded nodes finds what is there, and reading more of the tree never changes what a
search finds.
-/

namespace Shrike.Mst

open Holed

/-- Items in key order, with valid keys that a place admits. -/
structure Ordered (pl : Place) (l : List Item) : Prop where
  sorted : Sorted l
  admitted : ∀ k ∈ keys l, pl.admits k = true
  valid : ∀ k ∈ keys l, isValidKey k = true

namespace Place

variable {pl : Place} {k x : Key}

theorem admits_iff :
  pl.admits k = true ↔ (∀ lo ∈ pl.lo, lo < k) ∧ ∀ hi ∈ pl.hi, k < hi
  := by
  simp [admits, Option.all_eq_true]

theorem admits_before :
  (pl.before k).below.admits x = true ↔ (∀ lo ∈ pl.lo, lo < x) ∧ x < k
  := by
  simp [admits_iff, before, below]

theorem admits_after :
  (pl.after k).admits x = true ↔ k < x ∧ ∀ hi ∈ pl.hi, x < hi
  := by
  simp [admits_iff, after]

theorem admits_root (k : Key) :
  root.admits k = true
  := rfl

end Place

variable {pl : Place} {h h' : ℕ} {v cid : Cid} {body : Body}

theorem ordered_below {l : List Item} :
  Ordered pl.below l ↔ Ordered pl l
  := by
  constructor
  · rintro ⟨hs, hadmits, hvalid⟩
    use hs, hadmits
  · rintro ⟨hs, hadmits, hvalid⟩
    use hs, hadmits

/-- The items of a tree in key order that has the entries of a map with valid keys. -/
theorem ordered_of_maps {m : Key → Option Cid} {l : List Item} (hs : Sorted l) (hm : Maps l m)
    (hvalid : ∀ k, m k ≠ none → isValidKey k = true) :
  Ordered .root l
  where
  sorted := hs
  admitted k _ := Place.admits_root k
  valid k hk := by
    apply hvalid k
    intro hnone
    exact hm.not_mem_keys.mpr hnone hk

/-- The contents of a node are in order when its subtrees are, each in its place. -/
theorem ordered_append {l m : List Item} {k : Key} :
  Ordered pl (l ++ .entry k v :: m) ↔ Ordered (pl.before k).below l ∧ pl.admits k = true
    ∧ isValidKey k = true ∧ Ordered (pl.after k) m
  := by
  constructor
  · rintro ⟨hs, hadmits, hvalid⟩
    obtain ⟨hl, hm, hlt, hgt⟩ := sorted_append.mp hs
    simp only [keys_append, keys_entry, List.mem_append, List.mem_cons] at hadmits hvalid
    refine ⟨⟨hl, ?_, ?_⟩, hadmits k (by simp), hvalid k (by simp), hm, ?_, ?_⟩
    · intro x hx
      have hx' := Place.admits_iff.mp (hadmits x (.inl hx))
      apply Place.admits_before.mpr ⟨hx'.1, hlt x hx⟩
    · intro x hx
      apply hvalid x (.inl hx)
    · intro x hx
      have hx' := Place.admits_iff.mp (hadmits x (.inr (.inr hx)))
      apply Place.admits_after.mpr ⟨hgt x hx, hx'.2⟩
    · intro x hx
      apply hvalid x (.inr (.inr hx))
  · rintro ⟨hl, hk, hkvalid, hm⟩
    obtain ⟨hlo, hhi⟩ := Place.admits_iff.mp hk
    constructor
    · apply sorted_append.mpr ⟨hl.sorted, hm.sorted, ?_, ?_⟩
      · intro x hx
        apply (Place.admits_before.mp (hl.admitted x hx)).2
      · intro x hx
        apply (Place.admits_after.mp (hm.admitted x hx)).1
    · intro x hx
      rw [keys_append, keys_entry, List.mem_append, List.mem_cons] at hx
      apply Place.admits_iff.mpr
      rcases hx with hx | rfl | hx
      · obtain ⟨hxlo, hxk⟩ := Place.admits_before.mp (hl.admitted x hx)
        use hxlo
        intro hi hhi'
        apply lt_trans hxk (hhi hi hhi')
      · use hlo
      · obtain ⟨hkx, hxhi⟩ := Place.admits_after.mp (hm.admitted x hx)
        refine ⟨?_, hxhi⟩
        intro lo hlo'
        apply lt_trans (hlo lo hlo') hkx
    · intro x hx
      rw [keys_append, keys_entry, List.mem_append, List.mem_cons] at hx
      rcases hx with hx | rfl | hx
      · apply hl.valid x hx
      · apply hkvalid
      · apply hm.valid x hx

/-- Keys in order are admitted when the first and the last are. -/
theorem admits_of_ends {ks : List Key} (hs : ks.Pairwise (· < ·))
    (hhead : ∀ k ∈ ks.head?, pl.admits k = true) (hlast : ∀ k ∈ ks.getLast?, pl.admits k = true) :
  ∀ k ∈ ks, pl.admits k = true
  := by
  intro k hk
  have hne := List.ne_nil_of_mem hk
  have hle : ks.head hne ≤ k := by
    obtain ⟨x, xs, rfl⟩ := List.exists_cons_of_ne_nil hne
    rcases List.mem_cons.mp hk with rfl | hk
    · apply le_rfl
    · apply le_of_lt ((List.pairwise_cons.mp hs).1 k hk)
  have hge : k ≤ ks.getLast hne := by
    rw [← List.dropLast_append_getLast hne] at hs hk
    rcases List.mem_append.mp hk with hk | hk
    · apply le_of_lt ((List.pairwise_append.mp hs).2.2 k hk _ (by simp))
    · apply le_of_eq (List.mem_singleton.mp hk)
  have hlo := Place.admits_iff.mp (hhead _ (List.head?_eq_some_head hne))
  have hhi := Place.admits_iff.mp (hlast _ (List.getLast?_eq_some_getLast hne))
  apply Place.admits_iff.mpr
  constructor
  · intro lo h
    apply lt_of_lt_of_le (hlo.1 lo h) hle
  · intro hi h
    apply lt_of_le_of_lt hge (hhi.2 hi h)

/-! ### Reading blocks -/

/-- The items of a subtree of which only the link is known. -/
def linkItems : Option Cid → List Item
  | none => []
  | some cid => [.hole cid]

/-- The items of a node with the given left link, and keys with their entries. -/
def entryItems (left : Option Cid) : List (Key × EntryData) → List Item
  | [] => linkItems left
  | (key, ed) :: rest => linkItems left ++ .entry key ed.value :: entryItems ed.right rest

/-- The items of the node a block decodes to, if the source has it and it is well
formed. -/
def blockItems (src : BlockSource) (cid : Cid) : Option (List Item) :=
  match src cid with
  | .ok (some data) =>
      match decodeNodeData data with
      | .ok nd =>
          match forEachKey nd with
          | .ok ks => some (entryItems nd.left (ks.zip nd.entries))
          | .error _ => none
      | .error _ => none
  | _ => none

theorem stubAt_items (h : ℕ) (c : Option Cid) :
  (stubAt h c).items = linkItems c
  := by
  cases c with
  | none => rfl
  | some c => rfl

theorem stubBody_items (h : ℕ) :
  ∀ (es : List (Key × EntryData)) (left : Option Cid),
    (stubBody h left es).items = entryItems left es
  | [], left => by rw [stubBody, Body.items, stubAt_items, entryItems]
  | (key, ed) :: es, left => by
      rw [stubBody, Body.items, stubAt_items, entryItems, stubBody_items h es]

theorem keys_linkItems (c : Option Cid) :
  keys (linkItems c) = []
  := by
  cases c with
  | none => rfl
  | some c => rfl

theorem keys_entryItems :
  ∀ (es : List (Key × EntryData)) (left : Option Cid),
    keys (entryItems left es) = es.map Prod.fst
  | [], left => keys_linkItems left
  | (key, ed) :: es, left => by
      rw [entryItems, keys_append, keys_linkItems, keys_entry, keys_entryItems es]
      rfl

variable [Hashing]

theorem populateNode_ok {nd : NodeData} (hp : populateNode h nd pl = .ok (h', body)) :
  ∃ ks, forEachKey nd = .ok ks ∧ body = stubBody (h' - 1) nd.left (ks.zip nd.entries)
    ∧ h' = (ks.head?.map heightForKey).getD h ∧ (∀ k ∈ ks.head?, pl.admits k = true)
    ∧ ∀ k ∈ ks.getLast?, pl.admits k = true
  := by
  rw [populateNode] at hp
  obtain ⟨ks, hks, hp⟩ := Except.bind_eq_ok.mp hp
  split at hp
  · cases hp
  · rename_i hfind
    cases hp
    rw [List.find?_eq_none] at hfind
    refine ⟨ks, hks, rfl, rfl, ?_, ?_⟩
    · intro k hk
      simpa using hfind k (List.mem_append_left _ (Option.mem_toList.mpr hk))
    · intro k hk
      simpa using hfind k (List.mem_append_right _ (Option.mem_toList.mpr hk))

/-- A node that is read fits its place. -/
theorem Reads.ordered {src : BlockSource} (hr : Reads src pl cid h h' body) :
  Ordered pl body.items
  := by
  obtain ⟨data, nd, -, -, hp⟩ := hr
  obtain ⟨ks, hks, rfl, -, hhead, hlast⟩ := populateNode_ok hp
  have hkeys : keys (stubBody (h' - 1) nd.left (ks.zip nd.entries)).items = ks := by
    rw [stubBody_items, keys_entryItems, List.map_fst_zip (keysFrom_length hks).le]
  have hsorted := (keysFrom_sorted hks).1
  constructor
  · rw [Sorted, hkeys]
    apply hsorted
  · rw [hkeys]
    apply admits_of_ends hsorted hhead hlast
  · rw [hkeys]
    apply keysFrom_valid hks

theorem Reads.blockItems {src : BlockSource} (hr : Reads src pl cid h h' body) :
  blockItems src cid = some body.items
  := by
  obtain ⟨data, nd, hsrc, hdecode, hp⟩ := hr
  obtain ⟨ks, hks, rfl, -, -, -⟩ := populateNode_ok hp
  simp only [Mst.blockItems, hsrc, hdecode, hks, stubBody_items]

/-! ### Reading more of a tree -/

mutual

/-- Reading more of a tree in order leaves it in order. -/
theorem Loads.ordered {src : BlockSource} :
  ∀ {pl : Place} {c c' : Child}, Loads src pl c c' → Ordered pl c.items → Ordered pl c'.items
  | _, _, _, .refl, h => h
  | _, _, _, .read hread hbody, _ => hbody.ordered hread.ordered
  | _, _, _, .node hbody, h => hbody.ordered h

theorem LoadsBody.ordered {src : BlockSource} :
  ∀ {pl : Place} {b b' : Body}, LoadsBody src pl b b' → Ordered pl b.items → Ordered pl b'.items
  | _, _, _, .edge hc, h => ordered_below.mp (hc.ordered (ordered_below.mpr h))
  | _, _, _, .entry hc hrest, h => by
      obtain ⟨hl, hk, hvalid, hm⟩ := ordered_append.mp h
      apply ordered_append.mpr ⟨hc.ordered hl, hk, hvalid, hrest.ordered hm⟩

end

mutual

/-- Reading more of a tree does not change what a search finds. -/
theorem Loads.finds {src : BlockSource} {key : Key} {a : Option Cid} :
  ∀ {pl : Place} {c c' : Child}, Loads src pl c c' → Ordered pl c.items →
    Finds (blockItems src) c'.items key a → Finds (blockItems src) c.items key a
  | _, _, _, .refl, _, hf => hf
  | _, _, _, .read hread hbody, _, hf =>
      .there rfl hread.blockItems (hbody.finds hread.ordered hf)
  | _, _, _, .node hbody, h, hf => hbody.finds h hf

theorem LoadsBody.finds {src : BlockSource} {key : Key} {a : Option Cid} :
  ∀ {pl : Place} {b b' : Body}, LoadsBody src pl b b' → Ordered pl b.items →
    Finds (blockItems src) b'.items key a → Finds (blockItems src) b.items key a
  | _, _, _, .edge hc, h, hf => hc.finds (ordered_below.mpr h) hf
  | _, .entry c k v rest, .entry c' _ _ rest', .entry hc hrest, h, hf => by
      obtain ⟨hl, -, -, hm⟩ := ordered_append.mp h
      have hlt := h.sorted.lt_of_append
      have hlt' := ((LoadsBody.entry (v := v) hc hrest).ordered h).sorted.lt_of_append
      rcases lt_trichotomy key k with hkey | rfl | hkey
      · apply (hc.finds hl (hf.of_seek (seek_cut hkey v _ _).symm)).of_seek
        apply seek_cut hkey
      · apply hf.of_seek
        rw [Body.items, Body.items, seek_entry v _ hlt, seek_entry v _ hlt']
      · apply (hrest.finds hm (hf.of_seek (seek_after hkey v _ hlt').symm)).of_seek
        apply seek_after hkey v _ hlt

end

end Shrike.Mst
