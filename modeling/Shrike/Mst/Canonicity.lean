import Shrike.Mst.Store

/-!
# Every history gives the canonical tree

A tree that starts empty and is changed, flushed and loaded again from the blocks flushed so
far: whatever the history, a flush gives the root and the blocks of the canonical tree of the
contents.
-/

namespace Shrike.Mst

open Cbor Holed

mutual

theorem Child.nodes_of_parts {q : Place × Cid × ℕ × Body} :
  ∀ {c : Child} {pl : Place}, q ∈ c.parts pl → q.2 ∈ c.nodes
  | .absent, _, h => by cases h
  | .stub _ _, _, h => by cases h
  | .node cid hh b, pl, h => by
      rw [Child.parts, List.mem_append] at h
      rw [Child.nodes, List.mem_append]
      rcases h with h | h
      · obtain ⟨x, hx, rfl⟩ := List.mem_map.mp h
        exact .inl (List.mem_map.mpr ⟨x, hx, rfl⟩)
      · exact .inr (Body.nodes_of_parts h)

theorem Body.nodes_of_parts {q : Place × Cid × ℕ × Body} :
  ∀ {b : Body} {pl : Place}, q ∈ b.parts pl → q.2 ∈ b.nodes
  | .edge _, _, h => Child.nodes_of_parts h
  | .entry _ _ _ _, _, h => by
      rcases List.mem_append.mp h with h | h
      · exact List.mem_append_left _ (Child.nodes_of_parts h)
      · exact List.mem_append_right _ (Body.nodes_of_parts h)

end

section Hashing

variable [Hashing]

/-! ### Sources that have every block -/

/-- A source that has every one of some blocks. -/
def Has (src : BlockSource) (blocks : List (Cid × Bytes)) : Prop :=
  ∀ p ∈ blocks, src p.1 = .ok (some p.2)

/-- A source that has no other block for the CIDs of some blocks. -/
def Serves (src : BlockSource) (blocks : List (Cid × Bytes)) : Prop :=
  ∀ p ∈ blocks, ∀ data, src p.1 = .ok (some data) → data = p.2

section Has

variable {src : BlockSource} {blocks : List (Cid × Bytes)} {F : Child} {m : Key → Option Cid}
  {t : DetachedTree}

omit [Hashing] in
theorem Has.faithful (h : Has src blocks) (hsub : ∀ p ∈ F.blocks, p ∈ blocks) :
  Faithful src F
  := by
  intro p hp data hdata
  rw [h p (hsub p hp)] at hdata
  apply (Option.some.inj (Except.ok.inj hdata)).symm

/-- Every node of a tree is held by a source that has the blocks of the flushed tree, if the
nodes are not too large to be read. -/
theorem Tracks.held (h : Tracks F m t) (hsrc : Has src blocks) (hsub : ∀ p ∈ F.blocks, p ∈ blocks)
    (hsmall : ∀ p ∈ blocks, ∀ nd, Encodes p.2 nd → nd.entries.length ≤ maxEntriesPerNode) :
  ∀ q ∈ (t.full F).parts .root, Held src F q.2.1
  := by
  rintro ⟨pl, x, hh, b⟩ hq
  obtain ⟨hh', hmem⟩ := h.cached.nodes (Child.nodes_of_parts hq)
  obtain ⟨pl', hb⟩ := h.ground.standing hmem
  obtain ⟨data, hdata, -⟩ := h.ground.cid hmem
  have hblock := Child.mem_blocks.mpr ⟨hh', b, hmem, hdata⟩
  obtain ⟨left, links, -, -, hencodes⟩ := hb.encodes hdata
  obtain ⟨hfits, heq⟩ := (hencodes _).mpr rfl
  have hlen := hsmall _ (hsub _ hblock) _ ((hencodes _).mpr rfl)
  refine ⟨data, { left, entries := compress [] links }, hblock, hsrc _ (hsub _ hblock), ?_⟩
  rw [← heq]
  apply decodeNodeData_encodeNodeData hfits hlen

end Has

/-- Canonical trees with the same root are canonical for the same map, if no two of their blocks
have the same CID. -/
theorem Canonical.map_eq {S : Set Bytes} (hinj : S.InjOn (Cid.compute .drisl))
    {m m' : Key → Option Cid} {T T' : Child} (h : Canonical m T) (h' : Canonical m' T')
    (hS : ∀ p ∈ T.blocks, p.2 ∈ S) (hS' : ∀ p ∈ T'.blocks, p.2 ∈ S) (hlink : T.link = T'.link) :
  m = m'
  := by
  have hnode : ∀ {m : Key → Option Cid} {T : Child}, Canonical m T → (∀ p ∈ T.blocks, p.2 ∈ S) →
      ∃ data ∈ S, T.link = .ok (some (Cid.compute .drisl data)) ∧
        ∃ cid hh b pl, T = .node cid hh b ∧ encodeNode b = .ok data ∧
          b.Standing (fun _ _ => False) pl hh ∧ ∀ p ∈ b.blocks, p.2 ∈ S := by
    intro m T h hS
    have hground := h.ground hinj hS
    obtain ⟨root, hroot⟩ := h.link
    obtain ⟨cid, hh, b, rfl⟩ : ∃ cid hh b, T = .node cid hh b := by
      rcases h.form with rfl | ⟨cid, hh, b, rfl, -⟩
      · exact ⟨_, _, _, rfl⟩
      · exact ⟨cid, hh, b, rfl⟩
    cases cid with
    | none => cases hroot
    | some x =>
        have hmem : (x, hh, b) ∈ (Child.node (some x) hh b).nodes := by simp [Child.nodes]
        obtain ⟨data, hdata, rfl⟩ := hground.cid hmem
        obtain ⟨pl, hstand⟩ := hground.standing hmem
        exact ⟨data, hS _ (Child.mem_blocks.mpr ⟨hh, b, hmem, hdata⟩), rfl, _, hh, b, pl, rfl, hdata,
          hstand, fun p hp => hS p (Child.mem_blocks_node hp)⟩
  obtain ⟨data, hdata, hroot, cid, hh, b, pl, rfl, hencode, hstand, hsub⟩ := hnode h hS
  obtain ⟨data', hdata', hroot', cid', hh', b', pl', rfl, hencode', hstand', hsub'⟩ := hnode h' hS'
  rw [hroot, hroot'] at hlink
  obtain rfl := hinj hdata hdata' (Option.some.inj (Except.ok.inj hlink))
  obtain ⟨hfirst, links, hlinks, hlinks'⟩ := encodeNode_inj hencode hencode' hstand.ordered.valid
    hstand'.ordered.valid
  obtain rfl := hstand.eq_of_links hinj hstand' hsub hsub' hfirst hlinks hlinks'
  funext key
  apply Option.ext
  intro v
  exact (h.maps key v).symm.trans (h'.maps key v)

/-! ### Histories -/

/-- A tree, what it contains by the operations that succeeded, the blocks flushed so far, the
roots of the flushes with the contents they stand for, and the node blocks encoded so far. -/
structure History where
  tree : DetachedTree
  contents : Key → Option Cid
  flushed : List (Cid × Bytes)
  roots : List (Cid × (Key → Option Cid))
  encoded : List Bytes

namespace History

/-- The start: the new tree. -/
def start : History := ⟨.new, fun _ => none, [], [], []⟩

/-- The blocks encoded once the tree is flushed. -/
def toEncode (s : History) : List Bytes := s.encoded ++ s.tree.written.map Prod.snd

/-- The block a CID has among those flushed. -/
def store (blocks : List (Cid × Bytes)) : Blocks := fun cid => blocks.lookup cid

/-- One operation: an insert, a remove or a lookup over a source that has every block flushed
so far, a flush, or loading a root that was flushed. -/
inductive Step : History → History → Prop
  | get {s : History} {src} (key : Key) : Has src s.flushed →
      Step s { s with tree := (s.tree.get src key).2 }
  | insert {s : History} {src} (key : Key) (val : Cid) : Has src s.flushed →
      Step s { s with
        tree := (s.tree.insert src key val).2
        contents := outcome s.contents key (some val) (s.tree.insert src key val).1 }
  | remove {s : History} {src} (key : Key) : Has src s.flushed →
      Step s { s with
        tree := (s.tree.remove src key).2
        contents := outcome s.contents key none (s.tree.remove src key).1 }
  | flush {s : History} {w : TreeWrite} {tree} : s.tree.flush = (.ok w, tree) →
      Step s { s with
        tree
        flushed := s.flushed ++ w.newBlocks
        roots := (w.root, s.contents) :: s.roots
        encoded := s.toEncode }
  | reload {s : History} {root} {m : Key → Option Cid} : (root, m) ∈ s.roots →
      Step s { s with tree := .load root, contents := m }

/-- A tree whose blocks have been flushed. -/
structure Persisted (s : History) (T : Child) : Prop where
  flushed : ∀ p ∈ T.blocks, p ∈ s.flushed
  encoded : ∀ p ∈ T.blocks, p.2 ∈ s.encoded

/-- The invariant of a history: the tree stands over a tree that was flushed, and so does
every root; the blocks flushed are blocks that were encoded, under their CIDs. -/
structure Tracked (s : History) : Prop where
  tracks : ∃ F, Tracks F s.contents s.tree ∧ s.Persisted F
  roots : ∀ r ∈ s.roots, ∃ T, Canonical r.2 T ∧ T.link = .ok (some r.1) ∧ s.Persisted T
  flushed : ∀ p ∈ s.flushed, p.1 = Cid.compute .drisl p.2 ∧ p.2 ∈ s.encoded

variable {s s' : History}

theorem start_tracked :
  start.Tracked
  where
  tracks := ⟨.absent, tracks_new, ⟨fun _ hp => absurd hp List.not_mem_nil,
    fun _ hp => absurd hp List.not_mem_nil⟩⟩
  roots := fun _ hr => absurd hr List.not_mem_nil
  flushed := fun _ hp => absurd hp List.not_mem_nil

/-- A flush succeeds and gives the canonical tree of the contents. -/
theorem Tracked.flush (h : s.Tracked) (hfree : CollisionFree s.toEncode) :
  ∃ w tree T, s.tree.flush = (.ok w, tree) ∧ Canonical s.contents T
    ∧ T.link = .ok (some w.root) ∧ Tracks T s.contents tree
    ∧ (∀ p ∈ T.blocks, p ∈ s.flushed ++ w.newBlocks ∧ p.2 ∈ s.toEncode)
    ∧ ∀ p ∈ w.newBlocks, p ∈ T.blocks
  := by
  obtain ⟨F, htracks, hF⟩ := h.tracks
  obtain ⟨w, tree, T, hflush, hT⟩ := htracks.flush hfree
    (fun p hp => List.mem_append_left _ (hF.encoded p hp))
    (fun p hp => List.mem_append_right _ (List.mem_map_of_mem hp))
  refine ⟨w, tree, T, hflush, hT.canonical, hT.root, hT.tracks, ?_, hT.delta.added⟩
  intro p hp
  refine ⟨?_, hT.blocks p hp⟩
  rcases hT.delta.kept p hp with hnew | hold
  · exact List.mem_append_right _ hnew
  · exact List.mem_append_left _ (hF.flushed p hold)

/-- A tree over what is flushed takes the place of the tree of a history. -/
theorem Tracked.replace {t : DetachedTree} {m : Key → Option Cid} (h : s.Tracked)
    (ht : ∃ F, Tracks F m t ∧ s.Persisted F) :
  Tracked { s with tree := t, contents := m }
  := by
  obtain ⟨F, htracks, hF⟩ := ht
  exact ⟨⟨F, htracks, hF.1, hF.2⟩,
    fun r hr => (h.roots r hr).imp fun T hT => ⟨hT.1, hT.2.1, hT.2.2.1, hT.2.2.2⟩, h.flushed⟩

theorem Tracked.step (h : s.Tracked) (hstep : s.Step s') (hfree : CollisionFree s'.encoded) :
  s'.Tracked
  := by
  obtain ⟨F, htracks, hF⟩ := h.tracks
  cases hstep with
  | get key hsrc =>
      exact h.replace ⟨F, htracks.get_outcome (hsrc.faithful hF.flushed) key, hF⟩
  | insert key val hsrc =>
      exact h.replace ⟨F, htracks.insert_outcome (hsrc.faithful hF.flushed) key val, hF⟩
  | remove key hsrc =>
      exact h.replace ⟨F, htracks.remove_outcome (hsrc.faithful hF.flushed) key, hF⟩
  | @flush w tree heq =>
      obtain ⟨w', tree', T, hflush, hcanonical, hlink, htracks', hblocks, hnew⟩ := h.flush hfree
      rw [heq] at hflush
      cases hflush
      refine ⟨⟨T, htracks', fun p hp => (hblocks p hp).1, fun p hp => (hblocks p hp).2⟩, ?_, ?_⟩
      · intro r hr
        rcases List.mem_cons.mp hr with rfl | hr
        · exact ⟨T, hcanonical, hlink, fun p hp => (hblocks p hp).1, fun p hp => (hblocks p hp).2⟩
        · obtain ⟨T', hcanonical', hlink', hT'⟩ := h.roots r hr
          exact ⟨T', hcanonical', hlink', fun p hp => List.mem_append_left _ (hT'.flushed p hp),
            fun p hp => List.mem_append_left _ (hT'.encoded p hp)⟩
      · intro p hp
        rcases List.mem_append.mp hp with hp | hp
        · exact ⟨(h.flushed p hp).1, List.mem_append_left _ (h.flushed p hp).2⟩
        · have hpT := hnew p hp
          exact ⟨(htracks'.ground.block_cid hpT).1, (hblocks p hpT).2⟩
  | @reload root m hmem =>
      obtain ⟨T, hcanonical, hlink, hT⟩ := h.roots _ hmem
      exact h.replace ⟨T, hcanonical.load (hcanonical.ground hfree hT.encoded) hlink, hT⟩

theorem Step.encoded_sub (hstep : s.Step s') :
  ∀ data ∈ s.encoded, data ∈ s'.encoded
  := by
  intro data hdata
  cases hstep with
  | get | insert | remove | reload => exact hdata
  | flush => exact List.mem_append_left _ hdata

/-- Every state of a history is tracked, if no two of the node blocks encoded in it have the
same CID. -/
theorem run_tracked (hrun : Relation.ReflTransGen Step start s) (hfree : CollisionFree s.encoded) :
  s.Tracked
  := by
  induction hrun with
  | refl => exact start_tracked
  | tail _ hstep ih => exact (ih (hfree.mono hstep.encoded_sub)).step hstep hfree

/-- The blocks of a tree among those flushed are those that the links from its root lead
to. -/
theorem Tracked.reachable (h : s.Tracked) (hfree : CollisionFree s.encoded) {T : Child}
    (hT : Ground T) (hs : T.Sealed) {root : Cid} (hlink : T.link = .ok (some root))
    (hsub : ∀ p ∈ T.blocks, p ∈ s.flushed) {p : Cid × Bytes} :
  p ∈ T.blocks ↔ p ∈ s.flushed ∧ Reachable (store s.flushed) root p.1
  := by
  have hsame : ∀ {cid data data'}, (cid, data) ∈ s.flushed → (cid, data') ∈ s.flushed →
      data = data' := by
    intro cid data data' hmem hmem'
    apply hfree (h.flushed _ hmem).2 (h.flushed _ hmem').2
    exact (h.flushed _ hmem).1.symm.trans (h.flushed _ hmem').1
  have hstore : ∀ q ∈ T.blocks, store s.flushed q.1 = some q.2 := by
    intro q hq
    cases hlookup : s.flushed.lookup q.1 with
    | none =>
        have hne := List.lookup_eq_none_iff.mp hlookup _ (hsub q hq)
        simp at hne
    | some data => rw [store, hlookup, hsame (List.mem_of_lookup hlookup) (hsub q hq)]
  rw [hT.reachable_iff hs hlink hstore]
  constructor
  · intro hp
    exact ⟨hsub p hp, (hT.block_cid hp).2⟩
  · rintro ⟨hp, hcid⟩
    obtain ⟨data, hdata⟩ := hT.block_of_cid hcid
    rw [@hsame _ data p.2 (hsub _ hdata) hp] at hdata
    exact hdata

/-- The operations succeed on a tree whose flushed nodes are not too large to be read. -/
theorem Tracked.answers (h : s.Tracked) {src : BlockSource} (hsrc : Has src s.flushed)
    (hsmall : ∀ p ∈ s.flushed, ∀ nd, Encodes p.2 nd → nd.entries.length ≤ maxEntriesPerNode)
    (key : Key) :
  (s.tree.get src key).1 = .ok (s.contents key)
    ∧ (s.tree.remove src key).1 = .ok (s.contents key)
    ∧ (isValidKey key = true → ∀ val, (s.tree.insert src key val).1 = .ok (s.contents key))
  := by
  obtain ⟨F, htracks, hF⟩ := h.tracks
  have hheld := htracks.held hsrc hF.flushed hsmall
  have hfaithful := hsrc.faithful hF.flushed
  exact ⟨htracks.get_ok hfaithful fun q hq _ => hheld q hq,
    htracks.remove_ok hfaithful fun q hq _ => hheld q hq,
    fun hkey val => htracks.insert_ok hfaithful val hkey fun q hq _ => hheld q hq⟩

/-- After every history a flush gives the canonical tree of the contents: its root, and among
all blocks flushed exactly its blocks reachable from it. Another history that ends in the same
contents gives the same root. On the way every operation answers from the contents, unless a
node was flushed that has too many entries to be read. -/
theorem flush_canonical (hrun : Relation.ReflTransGen Step start s)
    (hfree : CollisionFree s.toEncode) :
  (∃ w tree T, s.tree.flush = (.ok w, tree) ∧ Canonical s.contents T
      ∧ T.link = .ok (some w.root)
      ∧ (∀ p, p ∈ T.blocks ↔ p ∈ s.flushed ++ w.newBlocks
        ∧ Reachable (store (s.flushed ++ w.newBlocks)) w.root p.1)
      ∧ ∀ s', Relation.ReflTransGen Step start s' → CollisionFree s'.toEncode →
        s'.contents = s.contents →
        ∃ w' tree', s'.tree.flush = (.ok w', tree') ∧ w'.root = w.root)
    ∧ ∀ src, Has src s.flushed →
      (∀ p ∈ s.flushed, ∀ nd, Encodes p.2 nd → nd.entries.length ≤ maxEntriesPerNode) →
      ∀ key, (s.tree.get src key).1 = .ok (s.contents key)
        ∧ (s.tree.remove src key).1 = .ok (s.contents key)
        ∧ (isValidKey key = true → ∀ val, (s.tree.insert src key val).1 = .ok (s.contents key))
  := by
  have hsub : ∀ {s' : History}, ∀ data ∈ s'.encoded, data ∈ s'.toEncode :=
    fun data => List.mem_append_left _
  have htracked := run_tracked hrun (hfree.mono hsub)
  refine ⟨?_, fun src hsrc hsmall => htracked.answers hsrc hsmall⟩
  obtain ⟨w, tree, T, hflush, hcanonical, hlink, htracks, hblocks, -⟩ := htracked.flush hfree
  refine ⟨w, tree, T, hflush, hcanonical, hlink, ?_, ?_⟩
  · have hafter := htracked.step (Step.flush hflush) hfree
    intro p
    apply hafter.reachable hfree htracks.ground hcanonical.isSealed hlink
    intro q hq
    apply (hblocks q hq).1
  · intro s' hrun' hfree' hsame
    have htracked' := run_tracked hrun' (hfree'.mono hsub)
    obtain ⟨w', tree', T', hflush', hcanonical', hlink', -⟩ := htracked'.flush hfree'
    refine ⟨w', tree', hflush', ?_⟩
    rw [hsame] at hcanonical'
    rw [hcanonical'.unique hcanonical, hlink] at hlink'
    exact (Option.some.inj (Except.ok.inj hlink')).symm

/-- Two histories, whatever their operations and their flushes and reloads, give the same root
exactly when they end in the same contents. -/
theorem root_eq_iff {s s' : History} (hrun : Relation.ReflTransGen Step start s)
    (hrun' : Relation.ReflTransGen Step start s')
    (hfree : CollisionFree (s.toEncode ++ s'.toEncode)) :
  ∃ w w' tree tree', s.tree.flush = (.ok w, tree) ∧ s'.tree.flush = (.ok w', tree') ∧
    (w.root = w'.root ↔ s.contents = s'.contents)
  := by
  have hleft := hfree.mono fun data => List.mem_append_left _
  have hright := hfree.mono fun data => List.mem_append_right _
  have hsub : ∀ {s : History}, ∀ data ∈ s.encoded, data ∈ s.toEncode :=
    fun data => List.mem_append_left _
  obtain ⟨w, tree, T, hflush, hT, hlink, -, hblocks, -⟩ :=
    (run_tracked hrun (hleft.mono hsub)).flush hleft
  obtain ⟨w', tree', T', hflush', hT', hlink', -, hblocks', -⟩ :=
    (run_tracked hrun' (hright.mono hsub)).flush hright
  refine ⟨w, w', tree, tree', hflush, hflush', ?_, ?_⟩
  · intro heq
    apply hT.map_eq hfree hT' (fun p hp => List.mem_append_left _ (hblocks p hp).2)
      (fun p hp => List.mem_append_right _ (hblocks' p hp).2)
    rw [hlink, hlink', heq]
  · intro heq
    rw [heq] at hT
    rw [hT.unique hT', hlink'] at hlink
    exact (Option.some.inj (Except.ok.inj hlink)).symm

/-! ### Sources that lack blocks -/

/-- One operation of a history, or one over a source that lacks or cannot read any of the blocks
flushed so far, and so may fail. -/
inductive Attempt : History → History → Prop
  | step {s s' : History} : Step s s' → Attempt s s'
  | get {s : History} {src} (key : Key) : Serves src s.flushed →
      Attempt s { s with tree := (s.tree.get src key).2 }
  | insert {s : History} {src} (key : Key) (val : Cid) : Serves src s.flushed →
      Attempt s { s with
        tree := (s.tree.insert src key val).2
        contents := outcome s.contents key (some val) (s.tree.insert src key val).1 }
  | remove {s : History} {src} (key : Key) : Serves src s.flushed →
      Attempt s { s with
        tree := (s.tree.remove src key).2
        contents := outcome s.contents key none (s.tree.remove src key).1 }

theorem Tracked.attempt (h : s.Tracked) (hstep : s.Attempt s') (hfree : CollisionFree s'.encoded) :
  s'.Tracked
  := by
  obtain ⟨F, htracks, hF⟩ := h.tracks
  cases hstep with
  | step hstep => exact h.step hstep hfree
  | get key hsrc =>
      exact h.replace ⟨F, htracks.get_outcome (fun p hp => hsrc p (hF.flushed p hp)) key, hF⟩
  | insert key val hsrc =>
      exact h.replace ⟨F, htracks.insert_outcome (fun p hp => hsrc p (hF.flushed p hp)) key val, hF⟩
  | remove key hsrc =>
      exact h.replace ⟨F, htracks.remove_outcome (fun p hp => hsrc p (hF.flushed p hp)) key, hF⟩

theorem Attempt.encoded_sub (hstep : s.Attempt s') :
  ∀ data ∈ s.encoded, data ∈ s'.encoded
  := by
  cases hstep with
  | step hstep => exact hstep.encoded_sub
  | get | insert | remove => exact fun _ => id

theorem attempts_tracked (hrun : Relation.ReflTransGen Attempt start s)
    (hfree : CollisionFree s.encoded) :
  s.Tracked
  := by
  induction hrun with
  | refl => exact start_tracked
  | tail _ hstep ih => exact (ih (hfree.mono hstep.encoded_sub)).attempt hstep hfree

/-- Whatever blocks the sources lack, and whichever operations fail for that: a flush gives the
canonical tree of the operations that succeeded, and over a source that has every block again, the
next operation answers from them, unless a node was flushed that has too many entries to be read. -/
theorem attempts_canonical (hrun : Relation.ReflTransGen Attempt start s)
    (hfree : CollisionFree s.toEncode) :
  (∃ w tree T, s.tree.flush = (.ok w, tree) ∧ Canonical s.contents T
      ∧ T.link = .ok (some w.root) ∧ ∀ p ∈ T.blocks, p ∈ s.flushed ++ w.newBlocks)
    ∧ ∀ src, Has src s.flushed →
      (∀ p ∈ s.flushed, ∀ nd, Encodes p.2 nd → nd.entries.length ≤ maxEntriesPerNode) →
      ∀ key, (s.tree.get src key).1 = .ok (s.contents key)
        ∧ (s.tree.remove src key).1 = .ok (s.contents key)
        ∧ (isValidKey key = true → ∀ val, (s.tree.insert src key val).1 = .ok (s.contents key))
  := by
  have htracked := attempts_tracked hrun (hfree.mono fun data => List.mem_append_left _)
  obtain ⟨w, tree, T, hflush, hcanonical, hlink, -, hblocks, -⟩ := htracked.flush hfree
  exact ⟨⟨w, tree, T, hflush, hcanonical, hlink, fun p hp => (hblocks p hp).1⟩,
    fun src hsrc hsmall => htracked.answers hsrc hsmall⟩

end History

end Hashing

/-! ### A history with a reload -/

namespace History

open Session (sampleKey sampleVal)

attribute [local instance] Hashing.checksum

/-- The source that has the blocks flushed so far. -/
def source (s : History) : BlockSource := fun cid => .ok (store s.flushed cid)

/-- The history after a key is inserted. -/
def put (s : History) (x : UInt8) : History :=
  { s with
    tree := (s.tree.insert s.source (sampleKey x) sampleVal).2
    contents := outcome s.contents (sampleKey x) (some sampleVal)
      (s.tree.insert s.source (sampleKey x) sampleVal).1 }

/-- The history after a flush. -/
def settle (s : History) : History :=
  match s.tree.flush with
  | (.ok w, tree) =>
      { s with
        tree
        flushed := s.flushed ++ w.newBlocks
        roots := (w.root, s.contents) :: s.roots
        encoded := s.toEncode }
  | _ => s

/-- The history after the last flushed root is loaded. -/
def reopen (s : History) : History :=
  match s.roots with
  | (root, m) :: _ => { s with tree := .load root, contents := m }
  | [] => s

/-- The history after the keys `c/a` and `c/1` are inserted, flushed and loaded again. -/
def reopened : History := ((start.put 0x61).put 0x31).settle.reopen

/-- The history after then `c/b` is inserted. -/
def grown : History := reopened.put 0x62

theorem step_put {s : History} (h : Has s.source s.flushed) (x : UInt8) :
  s.Step (s.put x)
  := .insert (sampleKey x) sampleVal h

theorem step_settle {s : History} (h : s.tree.flush.1.isOk = true) :
  s.Step s.settle
  := by
  rw [settle]
  rcases hflush : s.tree.flush with ⟨_ | w, tree⟩
  · rw [hflush] at h
    cases h
  · exact .flush hflush

theorem step_reopen {s : History} (h : s.roots.isEmpty = false) :
  s.Step s.reopen
  := by
  rw [reopen]
  split
  · rename_i heq
    apply Step.reload
    rw [heq]
    exact List.mem_cons_self
  · rename_i heq
    rw [heq] at h
    cases h

theorem start_reopened :
  Relation.ReflTransGen Step start reopened
  := by
  have hnew : ∀ {s : History}, s.flushed = [] → Has s.source s.flushed := by
    intro s hs p hp
    rw [hs] at hp
    cases hp
  apply Relation.ReflTransGen.tail _ (step_reopen (by decide +kernel))
  apply Relation.ReflTransGen.tail _ (step_settle (by decide +kernel))
  apply Relation.ReflTransGen.tail _ (step_put (hnew rfl) 0x31)
  exact .single (step_put (hnew rfl) 0x61)

theorem start_grown :
  Relation.ReflTransGen Step start grown
  := by
  have hreopened : ∀ p ∈ reopened.flushed, store reopened.flushed p.1 = some p.2 := by
    decide +kernel
  exact start_reopened.tail
    (step_put (s := reopened) (fun p hp => congrArg Except.ok (hreopened p hp)) 0x62)

theorem grown_collisionFree :
  CollisionFree grown.toEncode
  := by
  have hfree : ∀ a ∈ grown.toEncode, ∀ b ∈ grown.toEncode,
      Cid.compute .drisl a = Cid.compute .drisl b → a = b := by
    decide +kernel
  intro a ha b hb h
  apply hfree a ha b hb h

/-- The flush after the reload gives the canonical tree of the three keys. -/
theorem grown_flush_canonical :
  ∃ w tree T, grown.tree.flush = (.ok w, tree) ∧ Canonical grown.contents T
    ∧ T.link = .ok (some w.root) ∧ grown.contents (sampleKey 0x62) = some sampleVal
  := by
  obtain ⟨⟨w, tree, T, hflush, hcanonical, hlink, -⟩, -⟩ :=
    flush_canonical start_grown grown_collisionFree
  exact ⟨w, tree, T, hflush, hcanonical, hlink, by decide +kernel⟩

/-- A history with a reload does not give the root of the empty tree. -/
theorem grown_root_ne :
  ∃ w w' tree tree', grown.tree.flush = (.ok w, tree) ∧ start.tree.flush = (.ok w', tree') ∧
    w.root ≠ w'.root
  := by
  have hfree : ∀ a ∈ grown.toEncode ++ start.toEncode, ∀ b ∈ grown.toEncode ++ start.toEncode,
      Cid.compute .drisl a = Cid.compute .drisl b → a = b := by
    decide +kernel
  obtain ⟨w, w', tree, tree', hflush, hflush', hiff⟩ := root_eq_iff start_grown .refl
    (fun a ha b hb h => hfree a ha b hb h)
  refine ⟨w, w', tree, tree', hflush, hflush', ?_⟩
  intro heq
  have hcontents := congrFun (hiff.mp heq) (Session.sampleKey 0x62)
  revert hcontents
  decide +kernel

/-- The history after an insert into the loaded tree over a source that has no block. -/
def stalled : History :=
  { reopened with
    tree := (reopened.tree.insert (fun _ => .ok none) (sampleKey 0x62) sampleVal).2
    contents := outcome reopened.contents (sampleKey 0x62) (some sampleVal)
      (reopened.tree.insert (fun _ => .ok none) (sampleKey 0x62) sampleVal).1 }

/-- The insert fails, and the flush after it gives the canonical tree without the key. -/
theorem stalled_canonical :
  ∃ w tree T, stalled.tree.flush = (.ok w, tree) ∧ Canonical stalled.contents T
    ∧ stalled.contents (sampleKey 0x62) = none
  := by
  have hfree : ∀ a ∈ stalled.toEncode, ∀ b ∈ stalled.toEncode,
      Cid.compute .drisl a = Cid.compute .drisl b → a = b := by
    decide +kernel
  have hstep : reopened.Attempt stalled :=
    .insert (sampleKey 0x62) sampleVal fun _ _ _ h => by cases h
  have hrun := (Relation.ReflTransGen.mono (fun _ _ => Attempt.step) _ _ start_reopened).tail hstep
  obtain ⟨⟨w, tree, T, hflush, hcanonical, -⟩, -⟩ :=
    attempts_canonical hrun fun a ha b hb h => hfree a ha b hb h
  exact ⟨w, tree, T, hflush, hcanonical, by decide +kernel⟩

end History

end Shrike.Mst
