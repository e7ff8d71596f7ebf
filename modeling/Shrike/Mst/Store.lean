import Shrike.Mst.Reachable

/-!
# A tree over a store

A tree opened over a store, whose owner adds the new blocks of every flush to the store and
deletes those it retires: after every flush the node blocks of the store are exactly those
reachable from the root.
-/

namespace Shrike.Mst

open Cbor Holed

/-! ### The contents after an operation -/

/-- The contents after an operation that sets a key: as before, if it failed. -/
def outcome (m : Key → Option Cid) (key : Key) (val : Option Cid) :
    Except MstError (Option Cid) → Key → Option Cid
  | .ok _ => Function.update m key val
  | .error _ => m

section Hashing

variable [Hashing]

section Outcome

variable {F : Child} {m : Key → Option Cid} {t : DetachedTree} {src : BlockSource}

theorem Tracks.get_outcome (h : Tracks F m t) (hsrc : Faithful src F) (key : Key) :
  Tracks F m (t.get src key).2
  := h.reading hsrc (t.get_reading src key)

theorem Tracks.insert_outcome (h : Tracks F m t) (hsrc : Faithful src F) (key : Key) (val : Cid) :
  Tracks F (outcome m key (some val) (t.insert src key val).1) (t.insert src key val).2
  := by
  rcases hinsert : t.insert src key val with ⟨r, t'⟩
  cases r with
  | error e => apply h.reading hsrc (DetachedTree.insert_error hinsert)
  | ok a => apply (h.insert hsrc hinsert).2.2

theorem Tracks.remove_outcome (h : Tracks F m t) (hsrc : Faithful src F) (key : Key) :
  Tracks F (outcome m key none (t.remove src key).1) (t.remove src key).2
  := by
  rcases hremove : t.remove src key with ⟨r, t'⟩
  cases r with
  | error e => apply h.reading hsrc (DetachedTree.remove_error hremove)
  | ok a => apply (h.remove hsrc hremove).2

end Outcome

/-! ### The store -/

/-- The store after a flush: with the new blocks, without the retired ones. -/
def Blocks.settle (store : Blocks) (w : TreeWrite) : Blocks := fun cid =>
  if cid ∈ w.retired then none
  else match w.newBlocks.lookup cid with
    | some data => some data
    | none => store cid

/-- A source that has only blocks of a store. It need not have all of them, and its reads
may fail. -/
def Blocks.Serves (store : Blocks) (src : BlockSource) : Prop :=
  ∀ cid data, src cid = .ok (some data) → store cid = some data

/-- The node blocks of a store are those of a tree. -/
def Blocks.Holds (store : Blocks) (F : Child) : Prop :=
  ∀ cid data, store cid = some data ∧ IsNode data ↔ (cid, data) ∈ F.blocks

section Holds

variable {store : Blocks} {F F' : Child} {w : TreeWrite}

omit [Hashing] in
theorem Blocks.Holds.faithful (h : store.Holds F) {src : BlockSource} (hsrc : store.Serves src) :
  Faithful src F
  := by
  intro p hp data hdata
  have hstored := ((h p.1 p.2).mpr hp).1
  rw [hsrc p.1 data hdata] at hstored
  apply Option.some.inj hstored

/-- The blocks of a flushed tree are node blocks, one for each CID. -/
theorem Ground.isNode (hF : Ground F) {p : Cid × Bytes} (hp : p ∈ F.blocks) :
  IsNode p.2
  := by
  obtain ⟨h, b, hmem, hdata⟩ := Child.mem_blocks.mp hp
  obtain ⟨pl, hb⟩ := hF.standing hmem
  obtain ⟨left, links, -, -, hencodes⟩ := hb.encodes hdata
  exact ⟨_, (hencodes _).mpr rfl⟩

theorem Ground.block_unique (hF : Ground F) {cid : Cid} {data data' : Bytes}
    (h : (cid, data) ∈ F.blocks) (h' : (cid, data') ∈ F.blocks) :
  data = data'
  := by
  obtain ⟨hh, b, hmem, hdata⟩ := Child.mem_blocks.mp h
  obtain ⟨hh', b', hmem', hdata'⟩ := Child.mem_blocks.mp h'
  have hsame := (hF.lookup hmem).symm.trans (hF.lookup hmem')
  cases hsame
  rw [hdata] at hdata'
  apply Except.ok.inj hdata'

/-- After a flush the store holds the new tree. -/
theorem Delta.holds (hF' : Ground F') (hd : Delta F F' w) (h : store.Holds F) :
  (store.settle w).Holds F'
  := by
  intro cid data
  rw [Blocks.settle]
  constructor
  · rintro ⟨hdata, hnode⟩
    split at hdata
    · cases hdata
    · rename_i hkept
      split at hdata
      · rename_i data' hlookup
        cases hdata
        apply hd.added _ (List.mem_of_lookup hlookup)
      · have hold := (h cid data).mp ⟨hdata, hnode⟩
        apply (hd.dropped _ hold).resolve_right hkept
  · intro hmem
    refine ⟨?_, hF'.isNode hmem⟩
    have hkept : cid ∉ w.retired := fun hret => hd.retired cid hret (hF'.block_cid hmem).2
    rw [if_neg hkept]
    split
    · rename_i data' hlookup
      rw [hF'.block_unique hmem (hd.added _ (List.mem_of_lookup hlookup))]
    · rename_i hlookup
      rcases hd.kept _ hmem with hnew | hold
      · have hne := List.lookup_eq_none_iff.mp hlookup _ hnew
        simp at hne
      · apply ((h cid data).mpr hold).1

end Holds

/-! ### Runs -/

/-- A tree, the store it is over, and the node blocks encoded so far. -/
structure Session where
  tree : DetachedTree
  store : Blocks
  encoded : List Bytes

/-- The blocks encoded once the tree is flushed. -/
def Session.flushed (s : Session) : List Bytes := s.encoded ++ s.tree.written.map Prod.snd

/-- One operation on the tree: it reads blocks of the store, and a flush updates the
store. -/
inductive Session.Step : Session → Session → Prop
  | get {s : Session} {src} (key : Key) : s.store.Serves src →
      Step s { s with tree := (s.tree.get src key).2 }
  | insert {s : Session} {src} (key : Key) (val : Cid) : s.store.Serves src →
      Step s { s with tree := (s.tree.insert src key val).2 }
  | remove {s : Session} {src} (key : Key) : s.store.Serves src →
      Step s { s with tree := (s.tree.remove src key).2 }
  | flush {s : Session} {w tree} : s.tree.flush = (.ok w, tree) →
      Step s { tree, store := s.store.settle w, encoded := s.flushed }

/-- The start of a run: the new tree over a store without nodes, or the canonical tree of a
map, opened at its root over a store that holds its nodes. -/
inductive Session.Start : Session → Prop
  | new {store : Blocks} : store.Holds .absent → Start ⟨.new, store, []⟩
  | load {m : Key → Option Cid} {T : Child} {root} {store : Blocks} : Canonical m T →
      T.link = .ok (some root) → store.Holds T →
      Start ⟨.load root, store, T.blocks.map Prod.snd⟩

/-- The invariant of a run: the tree stands over a flushed tree that the store holds. -/
def Session.Tracked (s : Session) : Prop :=
  ∃ F m, Tracks F m s.tree ∧ s.store.Holds F ∧ ∀ p ∈ F.blocks, p.2 ∈ s.encoded

/-- No two of some blocks have the same CID. -/
def CollisionFree (blocks : List Bytes) : Prop :=
  Set.InjOn (Cid.compute .drisl) { data | data ∈ blocks }

theorem CollisionFree.mono {blocks blocks' : List Bytes} (h : CollisionFree blocks')
    (hsub : ∀ data ∈ blocks, data ∈ blocks') :
  CollisionFree blocks
  := Set.InjOn.mono hsub h

section Runs

variable {s s' : Session}

theorem Session.Start.tracked (h : s.Start) (hfree : CollisionFree s.encoded) :
  s.Tracked
  := by
  cases h with
  | new hstore => exact ⟨.absent, fun _ => none, tracks_new, hstore, fun p hp => by cases hp⟩
  | @load m T root store hcanonical hlink hstore =>
      have hblocks : ∀ p ∈ T.blocks, p.2 ∈ T.blocks.map Prod.snd := fun p hp =>
        List.mem_map_of_mem hp
      have hT := hcanonical.ground hfree hblocks
      exact ⟨T, m, hcanonical.load hT hlink, hstore, hblocks⟩

/-- A flush succeeds. What it returns is an exact delta of the store. -/
theorem Session.Tracked.flush (h : s.Tracked) (hfree : CollisionFree s.flushed) :
  ∃ w tree F', s.tree.flush = (.ok w, tree) ∧ F'.Sealed ∧ F'.link = .ok (some w.root)
    ∧ (∃ m, Tracks F' m tree) ∧ (s.store.settle w).Holds F' ∧ (∀ p ∈ F'.blocks, p.2 ∈ s.flushed)
    ∧ ∀ c ∈ w.retired, c ∉ w.newBlocks.map Prod.fst
  := by
  obtain ⟨F, m, htracks, hholds, hencoded⟩ := h
  obtain ⟨w, tree, F', hflush, hflushed⟩ := htracks.flush hfree
    (fun p hp => List.mem_append_left _ (hencoded p hp))
    (fun p hp => List.mem_append_right _ (List.mem_map_of_mem hp))
  have hF' := hflushed.tracks.ground
  refine ⟨w, tree, F', hflush, hflushed.canonical.isSealed, hflushed.root, ⟨m, hflushed.tracks⟩,
    hflushed.delta.holds hF' hholds, hflushed.blocks, ?_⟩
  intro c hc hnew
  obtain ⟨p, hp, rfl⟩ := List.mem_map.mp hnew
  apply hflushed.delta.retired _ hc (hF'.block_cid (hflushed.delta.added p hp)).2

theorem Session.Step.tracked (hstep : s.Step s') (h : s.Tracked) (hfree : CollisionFree s'.encoded) :
  s'.Tracked
  := by
  cases hstep with
  | get key hsrc =>
      obtain ⟨F, m, htracks, hholds, hencoded⟩ := h
      exact ⟨F, m, htracks.get_outcome (hholds.faithful hsrc) key, hholds, hencoded⟩
  | insert key val hsrc =>
      obtain ⟨F, m, htracks, hholds, hencoded⟩ := h
      exact ⟨F, _, htracks.insert_outcome (hholds.faithful hsrc) key val, hholds, hencoded⟩
  | remove key hsrc =>
      obtain ⟨F, m, htracks, hholds, hencoded⟩ := h
      exact ⟨F, _, htracks.remove_outcome (hholds.faithful hsrc) key, hholds, hencoded⟩
  | @flush w tree heq =>
      obtain ⟨w', tree', F', hflush, -, -, ⟨m, htracks⟩, hholds, hencoded, -⟩ := h.flush hfree
      rw [heq] at hflush
      cases hflush
      exact ⟨F', m, htracks, hholds, hencoded⟩

theorem Session.Step.encoded_sub (hstep : s.Step s') :
  ∀ data ∈ s.encoded, data ∈ s'.encoded
  := by
  intro data hdata
  cases hstep with
  | get | insert | remove => exact hdata
  | flush => exact List.mem_append_left _ hdata

/-- Every state of a run is tracked, if no two of the node blocks encoded in it have the same
CID. -/
theorem Session.Start.run_tracked {s₀ : Session} (hstart : s₀.Start)
    (hrun : Relation.ReflTransGen Session.Step s₀ s) (hfree : CollisionFree s.encoded) :
  s.Tracked
  := by
  induction hrun with
  | refl => exact hstart.tracked hfree
  | tail _ hstep ih => exact hstep.tracked (ih (hfree.mono hstep.encoded_sub)) hfree

/-- In every run over a store that applies each flush, a flush succeeds, retires none of the
blocks it adds, and leaves in the store exactly the node blocks that are reachable from the
root it returns. -/
theorem Session.Start.flush_exact {s₀ : Session} (hstart : s₀.Start)
    (hrun : Relation.ReflTransGen Session.Step s₀ s) (hfree : CollisionFree s.flushed) :
  ∃ w tree, s.tree.flush = (.ok w, tree)
    ∧ (∀ c ∈ w.retired, c ∉ w.newBlocks.map Prod.fst)
    ∧ ∀ cid, (∃ data, s.store.settle w cid = some data ∧ IsNode data)
      ↔ Reachable (s.store.settle w) w.root cid
  := by
  have htracked := hstart.run_tracked hrun (hfree.mono fun _ => List.mem_append_left _)
  obtain ⟨w, tree, F', hflush, hsealed, hlink, ⟨m, htracks⟩, hholds, -, hdisjoint⟩ :=
    htracked.flush hfree
  refine ⟨w, tree, hflush, hdisjoint, fun cid => ?_⟩
  have hF' := htracks.ground
  rw [hF'.reachable_iff hsealed hlink fun p hp => ((hholds p.1 p.2).mpr hp).1]
  constructor
  · rintro ⟨data, hdata⟩
    apply (hF'.block_cid ((hholds cid data).mp hdata)).2
  · intro hmem
    obtain ⟨data, hdata⟩ := hF'.block_of_cid hmem
    exact ⟨data, (hholds cid data).mpr hdata⟩

end Runs

end Hashing

/-! ### A run with a split, a removal and two flushes -/

namespace Session

attribute [local instance] Hashing.checksum

/-- The value of every entry of the example. -/
def sampleVal : Cid := ⟨.raw, .fill 0⟩

/-- The key `c/x` for a letter `x`. -/
def sampleKey (x : UInt8) : Key := [0x63, 0x2f, x]

/-- A new tree over an empty store. -/
def fresh : Session := ⟨.new, fun _ => none, []⟩

/-- The state after a key is inserted, with every node in memory. -/
def put (s : Session) (x : UInt8) : Session :=
  { s with tree := (s.tree.insert noBlocks (sampleKey x) sampleVal).2 }

/-- The state after a flush. -/
def settle (s : Session) : Session :=
  match s.tree.flush with
  | (.ok w, tree) => { tree, store := s.store.settle w, encoded := s.flushed }
  | _ => s

/-- The state after the keys `c/a`, `c/1` and `c/2` are inserted. -/
def filled : Session := ((fresh.put 0x61).put 0x31).put 0x32

/-- The state after the three keys are flushed and `c/1` is removed again. -/
def pruned : Session :=
  { filled.settle with tree := (filled.settle.tree.remove noBlocks (sampleKey 0x31)).2 }

theorem serves_noBlocks (store : Blocks) :
  store.Serves noBlocks
  := by
  intro cid data h
  cases h

theorem step_put (s : Session) (x : UInt8) :
  s.Step (s.put x)
  := .insert (sampleKey x) sampleVal (serves_noBlocks s.store)

theorem step_settle {s : Session} (h : s.tree.flush.1.isOk = true) :
  s.Step s.settle
  := by
  rw [settle]
  rcases hflush : s.tree.flush with ⟨_ | w, tree⟩
  · rw [hflush] at h
    cases h
  · exact .flush hflush

theorem fresh_pruned :
  Relation.ReflTransGen Step fresh pruned
  := by
  apply Relation.ReflTransGen.tail _ (Step.remove _ (serves_noBlocks _))
  apply Relation.ReflTransGen.tail _ (step_settle (by decide +kernel))
  apply Relation.ReflTransGen.tail _ (step_put _ 0x32)
  apply Relation.ReflTransGen.tail _ (step_put _ 0x31)
  exact .single (step_put fresh 0x61)

theorem pruned_collisionFree :
  CollisionFree pruned.flushed
  := by
  have hfree : ∀ a ∈ pruned.flushed, ∀ b ∈ pruned.flushed,
      Cid.compute .drisl a = Cid.compute .drisl b → a = b := by
    decide +kernel
  intro a ha b hb h
  apply hfree a ha b hb h

/-- The flush after the removal leaves exactly the node blocks reachable from its root. -/
theorem pruned_flush_exact :
  ∃ w tree, pruned.tree.flush = (.ok w, tree)
    ∧ (∀ c ∈ w.retired, c ∉ w.newBlocks.map Prod.fst)
    ∧ ∀ cid, (∃ data, pruned.store.settle w cid = some data ∧ IsNode data)
      ↔ Reachable (pruned.store.settle w) w.root cid
  := by
  apply @Start.flush_exact _ _ fresh _ fresh_pruned pruned_collisionFree
  apply Start.new
  intro cid data
  simp [Child.blocks, Child.nodes]

end Session

end Shrike.Mst
