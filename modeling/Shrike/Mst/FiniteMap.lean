import Shrike.Mst.Operations

/-!
# The tree as a finite map, over arbitrary blocks

Runs of operations on a tree opened at any root over any block source, compared with a
finite map from keys to values. The map is what the blocks say the tree holds; every answer
of the run is the map's answer, unless a remove re-links an unread node that holds keys on
the other side of the removed key.
-/

namespace Shrike.Mst

open Holed

/-- An operation on a tree. A walk is given by the callback's verdict on each entry, which
may depend on the entries before. -/
inductive Op where
  | get (key : Key)
  | insert (key : Key) (val : Cid)
  | remove (key : Key)
  | entries
  | walk (f : List (Key × Cid) → Key → Cid → Except MstError Unit)
  | missingBlocks (keys : List Key)
  | missingBlocksForRemove (keys : List Key)
  | flush

/-- The result of an operation. -/
inductive Outcome where
  | value (r : Except MstError (Option Cid))
  | listing (r : Except MstError (List (Key × Cid)))
  | missing (r : Except MstError (List Cid))
  | written (r : Except MstError TreeWrite)

/-- The unread nodes beside an entry hold keys of their own side only, in every block below
them that the source has. -/
def InOrderBeside (src : BlockSource) (key : Key) (l : List Item) : Prop :=
  ∀ p q val, l = p ++ .entry key val :: q →
    (∀ cid, p.getLast? = some (.hole cid) →
      ∀ k, Reaches (blockItems src) [.hole cid] k → k < key)
    ∧ ∀ cid, q.head? = some (.hole cid) →
      ∀ k, Reaches (blockItems src) [.hole cid] k → key < k

/-! ### The invariant -/

/-- A tree in order whose searches find the values of a map. -/
structure Consistent (src : BlockSource) (m : Key → Option Cid) (root : Child) : Prop where
  ordered : Ordered .root root.items
  finds : ∀ {k a}, Finds (blockItems src) root.items k a → a = m k

section Consistent

variable {src : BlockSource} {m : Key → Option Cid} {root root' : Child} {key : Key} {val : Cid}

theorem Consistent.find (h : Consistent src m root) {a : Option Cid}
    (hfind : root.find key = .inl a) :
  a = m key
  := by
  apply h.finds
  apply Finds.here
  rw [← hfind, root.find_eq_seek key h.ordered.sorted]

/-- A search for a key that ends at its entry finds the value there. -/
theorem Finds.of_entry {l p q : List Item} {a : Option Cid} (hl : l = p ++ .entry key val :: q)
    (hs : Sorted l) (hf : Finds (blockItems src) l key a) :
  a = some val
  := by
  subst hl
  have hseek := seek_entry val q hs.lt_of_append
  cases hf with
  | here h =>
      rw [hseek] at h
      apply (Sum.inl.inj h).symm
  | there h =>
      rw [hseek] at h
      cases h

theorem Ordered.write {l l' : List Item} (h : Ordered .root l) (hs : Sorted l')
    (hkeys : ∀ k ∈ keys l', k ∈ keys l ∨ isValidKey k = true) :
  Ordered .root l'
  where
  sorted := hs
  admitted k _ := Place.admits_root k
  valid k hk := by
    rcases hkeys k hk with hk | hk
    · apply h.valid k hk
    · apply hk

section

variable {l l' : List Item}

theorem Ordered.inserted (h : Ordered .root l) (hvalid : isValidKey key = true)
    (hi : Inserted key val l l') :
  Ordered .root l'
  := by
  have hs := hi.sorted h.sorted
  obtain ⟨p, q, rfl, rfl, -⟩ := hi
  apply h.write hs
  intro k hk
  rw [keys_append, keys_entry, List.mem_append, List.mem_cons] at hk
  rw [keys_append, List.mem_append]
  rcases hk with hk | rfl | hk
  · exact .inl (.inl hk)
  · exact .inr hvalid
  · exact .inl (.inr hk)

theorem Ordered.updated (h : Ordered .root l) (hu : Updated key val l l') :
  Ordered .root l'
  := by
  have hs := hu.sorted h.sorted
  obtain ⟨p, q, old, rfl, rfl⟩ := hu
  apply h.write hs
  intro k hk
  rw [keys_append, keys_entry] at hk ⊢
  exact .inl hk

theorem Ordered.removed (h : Ordered .root l) (hr : Removed key val l l') :
  Ordered .root l'
  := by
  have hs := hr.sorted h.sorted
  obtain ⟨p, q, rfl, rfl⟩ := hr
  apply h.write hs
  intro k hk
  rw [keys_append, List.mem_append] at hk
  rw [keys_append, keys_entry, List.mem_append, List.mem_cons]
  rcases hk with hk | hk
  · exact .inl (.inl hk)
  · exact .inl (.inr (.inr hk))

end

theorem Consistent.insert (h : Consistent src m root) (hvalid : isValidKey key = true)
    (hins : Inserted key val root.items root'.items) :
  Consistent src (Function.update m key (some val)) root'
  := by
  have hordered := h.ordered.inserted hvalid hins
  have hs := hordered.sorted
  obtain ⟨p, q, hl, hl', hgap, -, -⟩ := hins
  constructor
  · exact hordered
  · intro k a hf
    rcases eq_or_ne k key with rfl | hk
    · rw [Function.update_self]
      apply Finds.of_entry hl' hs hf
    · rw [Function.update_of_ne hk]
      apply h.finds
      apply hf.of_seek
      rw [hl'] at hs ⊢
      rw [hl, seek_insert val hgap hs hk]

theorem Consistent.update (h : Consistent src m root)
    (hupd : Updated key val root.items root'.items) :
  Consistent src (Function.update m key (some val)) root'
  := by
  have hordered := h.ordered.updated hupd
  have hs := hordered.sorted
  obtain ⟨p, q, old, hl, hl'⟩ := hupd
  constructor
  · exact hordered
  · intro k a hf
    rcases eq_or_ne k key with rfl | hk
    · rw [Function.update_self]
      apply Finds.of_entry hl' hs hf
    · rw [Function.update_of_ne hk]
      apply h.finds
      apply hf.of_seek
      have hsorted := h.ordered.sorted
      rw [hl] at hsorted ⊢
      rw [hl', seek_update val hsorted hk]

theorem Consistent.remove (h : Consistent src m root)
    (hbeside : InOrderBeside src key root.items)
    (hrem : Removed key val root.items root'.items) :
  Consistent src (Function.update m key none) root'
  := by
  have hordered := h.ordered.removed hrem
  have hs := hordered.sorted
  obtain ⟨p, q, hl, hl'⟩ := hrem
  obtain ⟨hleft, hright⟩ := hbeside p q val hl
  have hsorted := h.ordered.sorted
  have hsep := root'.items_separated
  rw [hl] at hsorted
  rw [hl'] at hs hsep
  constructor
  · exact hordered
  · intro k a hf
    rw [hl'] at hf
    have hhole : ∀ {x}, seek (p ++ q) k = .inr x →
        (p.getLast? = some (.hole x) ∧ key ≤ k ∨ q.head? = some (.hole x) ∧ k ≤ key) →
        a = none := by
      intro x hx hside
      have hf' : Finds (blockItems src) [.hole x] k a := hf.of_seek hx.symm
      apply hf'.absent
      intro hreach
      rcases hside with ⟨hlast, hle⟩ | ⟨hhead, hle⟩
      · apply absurd (hleft x hlast k hreach) (not_lt.mpr hle)
      · apply absurd (hright x hhead k hreach) (not_lt.mpr hle)
    rcases eq_or_ne k key with rfl | hk
    · rw [Function.update_self]
      rcases seek_between hsep hs hsorted.lt_of_append hsorted.gt_of_append with
        hseek | ⟨x, hlast, hseek⟩ | ⟨x, hhead, hseek⟩
      · apply hf.unique (.here hseek)
      · apply hhole hseek (.inl ⟨hlast, le_rfl⟩)
      · apply hhole hseek (.inr ⟨hhead, le_rfl⟩)
    · rw [Function.update_of_ne hk]
      rcases seek_remove hsep hsorted hk with hseek | ⟨hnone, x, hseek, hside⟩
      · apply h.finds
        rw [hl]
        apply hf.of_seek hseek.symm
      · have hm : none = m k := by
          apply h.finds
          rw [hl]
          exact .here hnone
        rw [← hm]
        apply hhole hseek
        rcases hside with ⟨hlast, hlt⟩ | ⟨hhead, hlt⟩
        · exact .inl ⟨hlast, hlt.le⟩
        · exact .inr ⟨hhead, hlt.le⟩

/-- Reading more of a tree keeps it consistent. -/
theorem Consistent.loads [Hashing] (h : Consistent src m root) (hl : Loads src .root root root') :
  Consistent src m root'
  where
  ordered := hl.ordered h.ordered
  finds hf := h.finds (hl.finds h.ordered hf)

end Consistent

/-- The map that a tree holds, as the search for each key finds it. -/
noncomputable def contents (src : BlockSource) (root : Child) (key : Key) : Option Cid :=
  open Classical in
  if h : ∃ a, Finds (blockItems src) root.items key a then h.choose else none

theorem consistent_contents {src : BlockSource} {root : Child} (h : Ordered .root root.items) :
  Consistent src (contents src root) root
  where
  ordered := h
  finds {k a} hf := by
    have hex : ∃ a, Finds (blockItems src) root.items k a := ⟨a, hf⟩
    rw [contents, dif_pos hex]
    apply hf.unique hex.choose_spec

/-! ### Runs -/

section Runs

variable [Hashing]

/-- One operation on a tree, reading from the given source. -/
def DetachedTree.step (src : BlockSource) (t : DetachedTree) : Op → Outcome × DetachedTree
  | .get key => (.value (t.get src key).1, (t.get src key).2)
  | .insert key val => (.value (t.insert src key val).1, (t.insert src key val).2)
  | .remove key => (.value (t.remove src key).1, (t.remove src key).2)
  | .entries => (.listing (t.entries src).1, (t.entries src).2)
  | .walk f =>
      let record := fun l key val => (f l key val).map (fun _ => l ++ [(key, val)])
      (.listing (t.walk src record []).1, (t.walk src record []).2)
  | .missingBlocks keys => (.missing (t.missingBlocks src keys).1, (t.missingBlocks src keys).2)
  | .missingBlocksForRemove keys =>
      (.missing (t.missingBlocksForRemove src keys).1, (t.missingBlocksForRemove src keys).2)
  | .flush => (.written t.flush.1, t.flush.2)

/-- What the operations of a run return. -/
def DetachedTree.run (src : BlockSource) (t : DetachedTree) : List Op → List (Op × Outcome)
  | [] => []
  | op :: ops => (op, (t.step src op).1) :: (t.step src op).2.run src ops

omit [Hashing] in
/-- A listing of a map: its keys ascend and are valid, and it holds the map's values. -/
structure Lists (m : Key → Option Cid) (l : List (Key × Cid)) : Prop where
  sorted : (l.map Prod.fst).Pairwise (· < ·)
  valid : ∀ e ∈ l, isValidKey e.1 = true
  lookup : ∀ k, l.lookup k = m k

/-- The results of a run are those of a finite map that is `m` at first: a lookup that
succeeds returns the value of the key, a write that succeeds returns it too and changes only
that key, and a listing lists the map. Operations that fail change nothing. -/
def Agrees : (Key → Option Cid) → List (Op × Outcome) → Prop
  | _, [] => True
  | m, (.get key, .value (.ok a)) :: rest => a = m key ∧ Agrees m rest
  | m, (.insert key val, .value (.ok a)) :: rest =>
      a = m key ∧ Agrees (Function.update m key (some val)) rest
  | m, (.remove key, .value (.ok a)) :: rest =>
      a = m key ∧ Agrees (Function.update m key none) rest
  | m, (.entries, .listing (.ok l)) :: rest => Lists m l ∧ Agrees m rest
  | m, (.walk _, .listing (.ok l)) :: rest => Lists m l ∧ Agrees m rest
  | m, _ :: rest => Agrees m rest

/-- In a run, every remove finds the unread nodes beside the key, which it re-links, with
keys of their own side only. -/
def Relinks (src : BlockSource) (t : DetachedTree) : List Op → Prop
  | [] => True
  | op :: ops =>
      (∀ key, op = .remove key →
        InOrderBeside src key (t.loadKeyPath src key .remove).2.root.items)
      ∧ Relinks src (t.step src op).2 ops

/-- A tree a failed mutation left unusable answers nothing. -/
theorem Agrees.of_poisoned {src : BlockSource} {m : Key → Option Cid} {t : DetachedTree}
    (h : t.poisoned = true) (ops : List Op) :
  Agrees m (t.run src ops)
  := by
  induction ops with
  | nil => trivial
  | cons op ops ih =>
      cases op <;>
        simpa [DetachedTree.run, DetachedTree.step, DetachedTree.get, DetachedTree.insert,
          DetachedTree.remove, DetachedTree.entries, DetachedTree.walk,
          DetachedTree.missingBlocks, DetachedTree.missingBlocksForRemove, DetachedTree.missing,
          DetachedTree.flush, DetachedTree.unusable, h, Agrees] using ih

omit [Hashing] in
/-- The entries a walk returns are a listing of the map. -/
theorem Consistent.lists {src : BlockSource} {m : Key → Option Cid} {root : Child}
    (h : Consistent src m root) {l : List (Key × Cid)}
    (hl : root.items = l.map (fun e => .entry e.1 e.2)) :
  Lists m l
  := by
  have hkeys : keys root.items = l.map Prod.fst := by rw [hl, keys_entries]
  have hsorted : (l.map Prod.fst).Pairwise (· < ·) := by
    rw [← hkeys]
    apply h.ordered.sorted
  constructor
  · apply hsorted
  · intro e he
    apply h.ordered.valid
    rw [hkeys]
    apply List.mem_map_of_mem he
  · intro k
    apply h.finds
    apply Finds.here
    rw [hl]
    apply seek_entries k hsorted

/-- `Answers m m' op o`: the result of an operation is that of a map `m`, which it leaves
as `m'`. -/
def Answers (m m' : Key → Option Cid) (op : Op) (o : Outcome) : Prop :=
  ∀ rest, Agrees m' rest → Agrees m ((op, o) :: rest)

section Step

variable {src : BlockSource} {t : DetachedTree} {m : Key → Option Cid}

theorem Consistent.step_get (h : Consistent src m t.root) (key : Key) :
  Consistent src m (t.step src (.get key)).2.root
    ∧ Answers m m (.get key) (t.step src (.get key)).1
  := by
  have h' := h.loads (t.get_reading src key).root.loads
  use h'
  intro rest hrest
  rw [DetachedTree.step]
  rcases hget : t.get src key with ⟨r, t'⟩
  rw [hget] at h'
  cases r with
  | error e => apply hrest
  | ok a => exact ⟨h'.find (DetachedTree.get_find hget), hrest⟩

theorem Consistent.step_walk (h : Consistent src m t.root)
    (f : List (Key × Cid) → Key → Cid → Except MstError Unit) :
  Consistent src m (t.step src (.walk f)).2.root
    ∧ Answers m m (.walk f) (t.step src (.walk f)).1
  := by
  have h' := h.loads (t.walk_reading src
    (fun l key val => (f l key val).map (fun _ => l ++ [(key, val)])) []).root.loads
  use h'
  intro rest hrest
  rw [DetachedTree.step]
  rcases hwalk : t.walk src (fun l key val => (f l key val).map (fun _ => l ++ [(key, val)])) []
    with ⟨r, t'⟩
  rw [hwalk] at h'
  cases r with
  | error e => apply hrest
  | ok l =>
      refine ⟨h'.lists (DetachedTree.walk_items ?_ hwalk), hrest⟩
      intro s k v s' hs
      cases hf : f s k v with
      | error e =>
          rw [hf] at hs
          cases hs
      | ok u =>
          rw [hf] at hs
          cases hs
          rfl

theorem Consistent.step_entries (h : Consistent src m t.root) :
  Consistent src m (t.step src .entries).2.root
    ∧ Answers m m .entries (t.step src .entries).1
  := by
  have h' := h.loads (t.walk_reading src
    (fun result key val => .ok (result ++ [(key, val)])) []).root.loads
  use h'
  intro rest hrest
  rw [DetachedTree.step, DetachedTree.entries]
  rcases hwalk : t.walk src (fun result key val => .ok (result ++ [(key, val)])) [] with ⟨r, t'⟩
  rw [hwalk] at h'
  cases r with
  | error e => apply hrest
  | ok l =>
      refine ⟨h'.lists (DetachedTree.walk_items ?_ hwalk), hrest⟩
      intro s k v s' hs
      cases hs
      rfl

theorem Consistent.step_missing (h : Consistent src m t.root) {op : Op} {keys : List Key}
    (hop : op = .missingBlocks keys ∨ op = .missingBlocksForRemove keys) :
  Consistent src m (t.step src op).2.root ∧ Answers m m op (t.step src op).1
  := by
  rcases hop with rfl | rfl
  · use h.loads (t.missing_reading src keys .lookup).root.loads
    intro rest hrest
    apply hrest
  · use h.loads (t.missing_reading src keys .remove).root.loads
    intro rest hrest
    apply hrest

theorem Consistent.step_flush (h : Consistent src m t.root) :
  ((t.step src .flush).2.poisoned = true ∨ Consistent src m (t.step src .flush).2.root)
    ∧ Answers m m .flush (t.step src .flush).1
  := by
  constructor
  · rw [DetachedTree.step]
    rcases hflush : t.flush with ⟨r, t'⟩
    rcases DetachedTree.flush_items hflush with hp | hitems
    · exact .inl hp
    · right
      constructor
      · rw [hitems]
        apply h.ordered
      · intro k a hf
        rw [hitems] at hf
        apply h.finds hf
  · intro rest hrest
    apply hrest

theorem Consistent.step_insert (h : Consistent src m t.root) (key : Key) (val : Cid) :
  ∃ m', ((t.step src (.insert key val)).2.poisoned = true
      ∨ Consistent src m' (t.step src (.insert key val)).2.root)
    ∧ Answers m m' (.insert key val) (t.step src (.insert key val)).1
  := by
  rw [DetachedTree.step]
  rcases hins : t.insert src key val with ⟨r, t'⟩
  rcases DetachedTree.insert_cases hins with
    ⟨e, rfl, hfail⟩ | ⟨-, hvalid, t₁, a, rfl, hreading, hfind, hwrite⟩
  · use m
    constructor
    · rcases hfail with hreading | hp
      · exact .inr (h.loads hreading.root.loads)
      · exact .inl hp
    · intro rest hrest
      apply hrest
  · have h₁ := h.loads hreading.root.loads
    have ha := h₁.find hfind
    use Function.update m key (some val)
    constructor
    · right
      rcases hwrite with ⟨rfl, rfl⟩ | ⟨root, released, -, hupdate, rfl⟩
        | ⟨root, released, rfl, hinsert, rfl⟩
      · rw [ha, Function.update_eq_self]
        apply h₁
      · apply h₁.update hupdate.updated
      · apply h₁.insert hvalid
        apply hinsert.inserted h₁.ordered.sorted
        apply not_mem_keys_of_seek h₁.ordered.sorted
        rw [← hfind, t₁.root.find_eq_seek key h₁.ordered.sorted]
    · intro rest hrest
      exact ⟨ha, hrest⟩

theorem Consistent.step_remove (h : Consistent src m t.root) {key : Key}
    (hbeside : InOrderBeside src key (t.loadKeyPath src key .remove).2.root.items) :
  ∃ m', ((t.step src (.remove key)).2.poisoned = true
      ∨ Consistent src m' (t.step src (.remove key)).2.root)
    ∧ Answers m m' (.remove key) (t.step src (.remove key)).1
  := by
  rw [DetachedTree.step]
  rcases hrem : t.remove src key with ⟨r, t'⟩
  rcases DetachedTree.remove_cases hrem with
    ⟨e, rfl, hfail⟩ | ⟨-, t₁, a, hload, hreading, hfind, hwrite⟩
  · use m
    constructor
    · rcases hfail with hreading | hp
      · exact .inr (h.loads hreading.root.loads)
      · exact .inl hp
    · intro rest hrest
      apply hrest
  · have h₁ := h.loads hreading.root.loads
    have ha := h₁.find hfind
    rw [hload] at hbeside
    use Function.update m key none
    rcases hwrite with ⟨rfl, rfl, rfl⟩ | ⟨val, root, removed, released, rfl, hremove, rfl, rfl⟩
    · constructor
      · right
        rw [ha, Function.update_eq_self]
        apply h₁
      · intro rest hrest
        exact ⟨ha, hrest⟩
    · obtain rfl := removeFromRoot_found hfind hremove
      obtain ⟨n, dropped, trimmed, hrm, htrim, -⟩ := remove_trim_of_removeFromRoot hremove
      constructor
      · right
        apply h₁.remove hbeside
        rw [htrim.items]
        apply hrm.removed
      · intro rest hrest
        exact ⟨ha, hrest⟩

end Step

/-- Every run from a tree consistent with a map agrees with the map, while its removes
re-link unread nodes with keys of their own side only. -/
theorem Consistent.agrees {src : BlockSource} (ops : List Op) {t : DetachedTree}
    {m : Key → Option Cid} (h : Consistent src m t.root) (hrelinks : Relinks src t ops) :
  Agrees m (t.run src ops)
  := by
  induction ops generalizing t m with
  | nil => trivial
  | cons op ops ih =>
      obtain ⟨hremove, hrelinks⟩ := hrelinks
      have hstep : ∃ m', ((t.step src op).2.poisoned = true
          ∨ Consistent src m' (t.step src op).2.root) ∧ Answers m m' op (t.step src op).1 := by
        cases op with
        | get key => exact ⟨m, .inr (h.step_get key).1, (h.step_get key).2⟩
        | insert key val => apply h.step_insert
        | remove key => apply h.step_remove (hremove key rfl)
        | entries => exact ⟨m, .inr h.step_entries.1, h.step_entries.2⟩
        | walk f => exact ⟨m, .inr (h.step_walk f).1, (h.step_walk f).2⟩
        | missingBlocks keys =>
            exact ⟨m, .inr (h.step_missing (.inl rfl)).1, (h.step_missing (.inl rfl)).2⟩
        | missingBlocksForRemove keys =>
            exact ⟨m, .inr (h.step_missing (.inr rfl)).1, (h.step_missing (.inr rfl)).2⟩
        | flush => exact ⟨m, h.step_flush⟩
      obtain ⟨m', hstate, hanswers⟩ := hstep
      apply hanswers
      rcases hstate with hp | h'
      · apply Agrees.of_poisoned hp
      · apply ih h' hrelinks

/-- Every run on a tree opened at any root over any source agrees with a finite map, while
its removes re-link unread nodes with keys of their own side only. -/
theorem load_run_agrees (src : BlockSource) (root : Cid) (ops : List Op)
    (h : Relinks src (DetachedTree.load root) ops) :
  ∃ m, Agrees m ((DetachedTree.load root).run src ops)
  := by
  use contents src (.stub root 0)
  apply Consistent.agrees ops (consistent_contents _) h
  constructor
  · apply List.Pairwise.nil
  · intro k hk
    cases hk
  · intro k hk
    cases hk

end Runs

/-! ### A remove that brings in a hidden key -/

namespace Relink

attribute [local instance] Hashing.checksum

/-- The value of every entry of the example. -/
def val : Cid := ⟨.raw, .fill 0⟩

/-- The key `c/x` for a letter `x`. -/
def key (x : UInt8) : Key := [0x63, 0x2f, x]

/-- A node that holds the key `c/x`. -/
def inner (x : UInt8) : Bytes :=
  encodeNodeData { left := none, entries := compress [] [(key x, val, none)] }

/-- The CID of the node that holds `c/x`. -/
def innerCid (x : UInt8) : Cid := Cid.compute .drisl (inner x)

/-- A node that holds `c/a` and `c/c`, and links the node that holds `c/x` after `c/c`. -/
def top (x : UInt8) : Bytes :=
  encodeNodeData
    { left := none
      entries := compress [] [(key 0x61, val, none), (key 0x63, val, some (innerCid x))] }

/-- The CID of the root. -/
def topCid (x : UInt8) : Cid := Cid.compute .drisl (top x)

/-- The source of the two blocks. -/
def blocks (x : UInt8) : BlockSource := fun cid =>
  .ok (if cid = topCid x then some (top x) else if cid = innerCid x then some (inner x) else none)

/-- The tree opened at the root. -/
def tree (x : UInt8) : DetachedTree := .load (topCid x)

/-- Look up `c/b`, remove `c/c`, and look up `c/b` again. -/
def ops : List Op := [.get (key 0x62), .remove (key 0x63), .get (key 0x62)]

/-- Over a block that links `c/b` after `c/c`, looking up `c/b` answers that it is absent,
and after a remove of `c/c` that it is there: no map agrees with the run. -/
theorem tree_run_disagrees :
  ¬ ∃ m, Agrees m ((tree 0x62).run (blocks 0x62) ops)
  := by
  have hget : ((tree 0x62).get (blocks 0x62) (key 0x62)).1 = .ok none := by decide +kernel
  have hremove : (((tree 0x62).get (blocks 0x62) (key 0x62)).2.remove (blocks 0x62)
      (key 0x63)).1 = .ok (some val) := by decide +kernel
  have hagain : ((((tree 0x62).get (blocks 0x62) (key 0x62)).2.remove (blocks 0x62)
      (key 0x63)).2.get (blocks 0x62) (key 0x62)).1 = .ok (some val) := by decide +kernel
  have hrun : (tree 0x62).run (blocks 0x62) ops = [(.get (key 0x62), .value (.ok none)),
      (.remove (key 0x63), .value (.ok (some val))),
      (.get (key 0x62), .value (.ok (some val)))] := by
    simp only [ops, DetachedTree.run, DetachedTree.step, hget, hremove, hagain]
  rw [hrun]
  rintro ⟨m, habsent, -, hpresent, -⟩
  rw [Function.update_of_ne (by decide), ← habsent] at hpresent
  cases hpresent

/-- The keys below the node that holds `c/d`. -/
theorem reaches_inner {k : Key} (h : Reaches (blockItems (blocks 0x64)) [.hole (innerCid 0x64)] k) :
  k = key 0x64
  := by
  have hinner : blockItems (blocks 0x64) (innerCid 0x64) = some [.entry (key 0x64) val] := by
    decide +kernel
  cases h with
  | here hk => cases hk
  | there hmem hexpand hreaches =>
      obtain rfl := Item.hole.inj (List.mem_singleton.mp hmem)
      obtain rfl := Option.some.inj (hinner.symm.trans hexpand)
      cases hreaches with
      | here hk => apply List.mem_singleton.mp hk
      | there hmem => simp at hmem

/-- Over blocks in order the same run agrees with a map, although its remove re-links the
unread node that holds `c/d`. -/
theorem tree_run_agrees :
  ∃ m, Agrees m ((tree 0x64).run (blocks 0x64) ops)
  := by
  have hitems : (((tree 0x64).get (blocks 0x64) (key 0x62)).2.loadKeyPath (blocks 0x64)
      (key 0x63) .remove).2.root.items
      = [.entry (key 0x61) val, .entry (key 0x63) val, .hole (innerCid 0x64)] := by
    decide +kernel
  apply load_run_agrees (blocks 0x64) (topCid 0x64) ops
  rw [← tree]
  simp only [ops, Relinks, DetachedTree.step, reduceCtorEq, false_implies, implies_true,
    Op.remove.injEq, forall_eq', hitems, true_and, and_true]
  intro p q v hl
  obtain ⟨rfl, rfl⟩ : p = [.entry (key 0x61) val] ∧ q = [.hole (innerCid 0x64)] := by
    rcases p with _ | ⟨x, _ | ⟨y, _ | ⟨z, p⟩⟩⟩
    · exact absurd (Item.entry.inj (List.cons.inj hl).1).1 (by decide)
    · obtain ⟨rfl, htail⟩ := List.cons.inj hl
      use rfl, (List.cons.inj htail).2.symm
    · cases hl
    · exact absurd (congrArg List.length hl) (by simp)
  constructor
  · intro cid hlast
    cases hlast
  · intro cid hhead k hreaches
    obtain rfl := Item.hole.inj (Option.some.inj hhead)
    rw [reaches_inner hreaches]
    decide

end Relink

end Shrike.Mst
