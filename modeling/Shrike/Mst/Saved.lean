import Shrike.Data.History
import Shrike.Mst.Lockstep
import Shrike.Mst.Store

/-!
# A tree that saves its blocks

A tree over a store, which puts the blocks of every flush into the store. A block that the store
rejects is put again by the next flush. Nothing that the tree has written is lost when a put fails,
and what follows a flush that failed goes as it would have gone without it.
-/

namespace Shrike.Mst

open Cbor

/-! ### The tree and its store -/

/-- The `Tree` that a store backs, with the blocks that the store has not accepted yet, the next to
be put first. -/
structure BackedTree where
  inner : DetachedTree
  unsaved : List (Cid × Bytes)

/-- What a store answers to the puts of a call, one after the other. -/
abbrev Puts := ℕ → Except MstError Unit

/-- Put blocks into a store, up to the first that it rejects. Returns the blocks that are left. -/
def saveBlocks (puts : Puts) :
    ℕ → List (Cid × Bytes) → Blocks → Except MstError Unit × List (Cid × Bytes) × Blocks
  | _, [], store => (.ok (), [], store)
  | i, (cid, data) :: rest, store =>
      match puts i with
      | .error e => (.error e, (cid, data) :: rest, store)
      | .ok () => saveBlocks puts (i + 1) rest (Function.update store cid (some data))

namespace BackedTree

/-- The empty tree. -/
def new : BackedTree := ⟨.new, []⟩

/-- The tree with the given root, of which nothing has been read. -/
def load (root : Cid) : BackedTree := ⟨.load root, []⟩

variable [Hashing]

/-- Look up a key. -/
def get (t : BackedTree) (src : BlockSource) (key : Key) :
    Except MstError (Option Cid) × BackedTree :=
  let (r, inner) := t.inner.get src key
  (r, { t with inner })

/-- Insert or update a key. -/
def insert (t : BackedTree) (src : BlockSource) (key : Key) (val : Cid) :
    Except MstError Unit × BackedTree :=
  let (r, inner) := t.inner.insert src key val
  (r.map fun _ => (), { t with inner })

/-- Remove a key, returning its value. -/
def remove (t : BackedTree) (src : BlockSource) (key : Key) :
    Except MstError (Option Cid) × BackedTree :=
  let (r, inner) := t.inner.remove src key
  (r, { t with inner })

/-- The CID of the root, once the new blocks are in the store, and those that an earlier call could
not put. -/
def rootCid (t : BackedTree) (puts : Puts) (store : Blocks) :
    Except MstError Cid × BackedTree × Blocks :=
  match t.inner.flush with
  | (.error e, inner) => (.error e, { t with inner }, store)
  | (.ok write, inner) =>
      match saveBlocks puts 0 (write.newBlocks.reverse ++ t.unsaved) store with
      | (.error e, unsaved, store) => (.error e, ⟨inner, unsaved⟩, store)
      | (.ok (), unsaved, store) => (.ok write.root, ⟨inner, unsaved⟩, store)

end BackedTree

/-! ### Calls -/

/-- What is asked of a tree. -/
inductive Request where
  | get (key : Key)
  | insert (key : Key) (val : Cid)
  | remove (key : Key)
  | rootCid
  deriving DecidableEq

/-- What a tree answers. -/
inductive Reply where
  | value (r : Except MstError (Option Cid))
  | done (r : Except MstError Unit)
  | root (r : Except MstError Cid)
  deriving DecidableEq

/-- A call, with what the store answers to its reads and its puts. -/
structure Call where
  request : Request
  source : BlockSource
  puts : Puts

/-- A tree over a store. -/
structure Stored where
  tree : BackedTree
  store : Blocks

/-- A new tree over any store, or one that is opened at any root. -/
inductive Stored.Start : Stored → Prop where
  | new (store : Blocks) : Start ⟨.new, store⟩
  | load (root : Cid) (store : Blocks) : Start ⟨.load root, store⟩

section Hashing

variable [Hashing]

namespace Stored

/-- Answer a call. -/
def perform (s : Stored) (c : Call) : Reply × Stored :=
  match c.request with
  | .get key =>
      let (r, tree) := s.tree.get c.source key
      (.value r, { s with tree })
  | .insert key val =>
      let (r, tree) := s.tree.insert c.source key val
      (.done r, { s with tree })
  | .remove key =>
      let (r, tree) := s.tree.remove c.source key
      (.value r, { s with tree })
  | .rootCid =>
      let (r, tree, store) := s.tree.rootCid c.puts s.store
      (.root r, { tree, store })

/-- The answers to calls, one after the other. -/
def answers : List Call → Stored → List Reply
  | [], _ => []
  | c :: calls, s => (s.perform c).1 :: answers calls (s.perform c).2

/-- A call whose reads are of the store. -/
inductive Step : Stored → Request × Reply → Stored → Prop where
  | mk {s : Stored} (c : Call) (reads : s.store.Serves c.source) :
      Step s (c.request, (s.perform c).1) (s.perform c).2

theorem Step.exists_call {s s' : Stored} {label : Request × Reply} (h : Step s label s') :
  ∃ c, s.store.Serves c.source ∧ label = (c.request, (s.perform c).1) ∧ s' = (s.perform c).2
  := by
  obtain ⟨c, reads⟩ := h
  exact ⟨c, reads, rfl, rfl⟩

/-- The store has a block with a CID, whose bytes are those of the CID. -/
def Saves (s : Stored) (cid : Cid) : Prop :=
  ∃ data, s.store cid = some data ∧ Cid.compute .drisl data = cid

/-- The store has a block, or is yet to accept it. -/
def Pending (s : Stored) (cid : Cid) : Prop :=
  cid ∈ s.tree.unsaved.map Prod.fst ∨ s.Saves cid

end Stored

/-- What happened to a tree over a store. -/
abbrev Events := List (History.Event Stored (Request × Reply))

/-- A tree knows a CID from the blocks it was loaded from: it is that of its root, or linked in a
block that was read. -/
def Knows (s₀ : Stored) (events : Events) (cid : Cid) : Prop :=
  s₀.tree.inner.refs cid ≠ none ∨ ∃ e ∈ events, e.label.1 ≠ .rootCid
    ∧ e.before.tree.inner.refs cid = none ∧ e.after.tree.inner.refs cid ≠ none

/-- The CIDs of the blocks that a flush would add or retire. -/
def DetachedTree.changes (t : DetachedTree) : List Cid :=
  match t.flush with
  | (.ok write, _) => write.newBlocks.map Prod.fst ++ write.retired
  | (.error _, _) => []

/-- No block that can be read from the tree, in a call before the next for the root, links one of
the given CIDs. -/
def Stored.ReadsApart (X : List Cid) : List Call → Stored → Prop
  | [], _ => True
  | c :: calls, s => c.request = .rootCid
      ∨ (c.source.Apart X s.tree.inner.root ∧ ReadsApart X calls (s.perform c).2)

/-- Two calls that ask the same, and read the same. -/
structure Call.Same (c c' : Call) : Prop where
  request : c'.request = c.request
  source : c'.source = c.source

/-- Two answers that are the same, or to requests for the root of which one fails. -/
inductive Reply.Agrees : Reply → Reply → Prop where
  | same (a : Reply) : Agrees a a
  | left {e r} : Agrees (.root (.error e)) (.root r)
  | right {e r} : Agrees (.root r) (.root (.error e))

/-! ### Saving -/

/-- Blocks that are put are in the store or left. -/
theorem saveBlocks_pending {puts : Puts} :
  ∀ {i : ℕ} {unsaved left : List (Cid × Bytes)} {store store' : Blocks}
    {r : Except MstError Unit}, saveBlocks puts i unsaved store = (r, left, store') →
    (∀ p ∈ unsaved, p.1 = Cid.compute .drisl p.2) →
    (∀ p ∈ left, p.1 = Cid.compute .drisl p.2) ∧ (r = .ok () → left = [])
      ∧ ∀ cid, (cid ∈ unsaved.map Prod.fst ∨ ∃ data, store cid = some data
        ∧ Cid.compute .drisl data = cid) → cid ∈ left.map Prod.fst ∨ ∃ data,
        store' cid = some data ∧ Cid.compute .drisl data = cid
  | _, [], _, _, _, _, h, hashed => by
      cases h
      exact ⟨hashed, fun _ => rfl, fun _ h => h⟩
  | i, (x, data) :: rest, left, store, store', r, h, hashed => by
      rw [saveBlocks] at h
      split at h
      · cases h
        exact ⟨hashed, nofun, fun _ h => h⟩
      · obtain ⟨hleft, hall, hpending⟩ := saveBlocks_pending h
          (fun p hp => hashed p (List.mem_cons_of_mem _ hp))
        refine ⟨hleft, hall, fun cid hcid => hpending cid ?_⟩
        by_cases hx : cid = x
        · right
          refine ⟨data, ?_, ?_⟩
          · rw [hx, Function.update_self]
          · rw [hx]
            exact (hashed _ List.mem_cons_self).symm
        · rcases hcid with hmem | hsaved
          · rw [List.map_cons, List.mem_cons] at hmem
            exact .inl (hmem.resolve_left hx)
          · rw [Function.update_of_ne hx]
            exact .inr hsaved

omit [Hashing] in
theorem Knows.mono {s₀ : Stored} {events : Events} {cid : Cid} (h : Knows s₀ events cid)
    (later : Events) :
  Knows s₀ (later ++ events) cid
  := by
  rcases h with h | ⟨e, he, h⟩
  · exact .inl h
  · exact .inr ⟨e, List.mem_append_right _ he, h⟩

/-- What holds after every run while the tree is usable: the CIDs that it counts are those of blocks
it knows, and of its own that are in the store or left, and so are the blocks that it has written. -/
structure Stored.Kept (s₀ : Stored) (events : Events) (s : Stored) : Prop where
  sound : s.tree.inner.Sound
  hashed : ∀ p ∈ s.tree.unsaved, p.1 = Cid.compute .drisl p.2
  linked : ∀ cid, s.tree.inner.refs cid ≠ none → Knows s₀ events cid ∨ s.Pending cid
  written : ∀ later e earlier, events = later ++ e :: earlier → e.label.1 = .rootCid →
    ∀ p ∈ e.before.tree.inner.written, Knows s₀ earlier p.1 ∨ s.Pending p.1

section Kept

variable {s₀ s s' : Stored} {events : Events}

theorem Stored.Start.kept (h : s₀.Start) :
  Stored.Kept s₀ [] s₀
  := by
  have hwritten : ∀ (later : Events) e earlier, [] = later ++ e :: earlier →
      e.label.1 = Request.rootCid → ∀ p ∈ e.before.tree.inner.written,
      Knows s₀ earlier p.1 ∨ s₀.Pending p.1 := by
    intro later e earlier heq
    simp at heq
  have hlinked : ∀ cid, s₀.tree.inner.refs cid ≠ none → Knows s₀ [] cid ∨ s₀.Pending cid :=
    fun _ h => .inl (.inl h)
  cases h with
  | new store => exact ⟨DetachedTree.sound_new, nofun, hlinked, hwritten⟩
  | load root store => exact ⟨DetachedTree.sound_load root, nofun, hlinked, hwritten⟩

/-- A call that asks for something else than the root only reads. -/
theorem Stored.Kept.read (h : Stored.Kept s₀ events s) {label : Request × Reply}
    (hlabel : label.1 ≠ .rootCid) {inner : DetachedTree} (hsound : inner.Sound) :
  Stored.Kept s₀ (⟨s, label, { s with tree := { s.tree with inner } }⟩ :: events)
    { s with tree := { s.tree with inner } }
  := by
  refine ⟨hsound, h.hashed, ?_, ?_⟩
  · intro cid hcid
    by_cases hold : s.tree.inner.refs cid = none
    · exact .inl (.inr ⟨_, List.mem_cons_self, hlabel, hold, hcid⟩)
    · exact (h.linked cid hold).imp_left fun hknows => hknows.mono [_]
  · intro later e earlier heq he p hp
    cases later with
    | nil =>
        cases heq
        exact absurd he hlabel
    | cons e' later =>
        obtain ⟨-, heq⟩ := List.cons.inj heq
        exact h.written later e earlier heq he p hp

/-- A call for the root writes the changed nodes, whose blocks are then in the store or left. -/
theorem Stored.Kept.rootCid (h : Stored.Kept s₀ events s) (hp : s.tree.inner.poisoned = false)
    {puts : Puts} {r : Except MstError Cid} {tree : BackedTree} {store : Blocks} {a : Reply}
    (hroot : s.tree.rootCid puts s.store = (r, tree, store)) :
  Stored.Kept s₀ (⟨s, (.rootCid, a), ⟨tree, store⟩⟩ :: events) ⟨tree, store⟩
    ∧ ∀ root, r = .ok root → tree.unsaved = []
  := by
  obtain ⟨w, inner, hflushed⟩ := h.sound.flush hp
  rw [BackedTree.rootCid, hflushed.flush] at hroot
  rcases hsave : saveBlocks puts 0 (w.newBlocks.reverse ++ s.tree.unsaved) s.store
    with ⟨r', unsaved, store'⟩
  have hhashed : ∀ p ∈ w.newBlocks.reverse ++ s.tree.unsaved,
      p.1 = Cid.compute .drisl p.2 := by
    intro p hp
    rcases List.mem_append.mp hp with hp | hp
    · exact hflushed.newBlocks p (List.mem_reverse.mp hp)
    · exact h.hashed p hp
  obtain ⟨hleft, hall, hpending⟩ := saveBlocks_pending hsave hhashed
  have hkeeps : ∀ cid, s.Pending cid → Stored.Pending ⟨⟨inner, unsaved⟩, store'⟩ cid := by
    intro cid hcid
    apply hpending
    rw [List.map_append, List.mem_append, or_assoc]
    exact .inr hcid
  have hnew : ∀ cid ∈ w.newBlocks.map Prod.fst,
      Stored.Pending ⟨⟨inner, unsaved⟩, store'⟩ cid := by
    intro cid hcid
    apply hpending
    rw [List.map_append, List.mem_append, List.map_reverse, List.mem_reverse]
    exact .inl (.inl hcid)
  have hresult : tree = ⟨inner, unsaved⟩ ∧ store = store' ∧ (∀ root, r = .ok root → r' = .ok ()) := by
    dsimp only at hroot
    rw [hsave] at hroot
    cases r' with
    | error e =>
        cases hroot
        exact ⟨rfl, rfl, nofun⟩
    | ok u =>
        cases hroot
        exact ⟨rfl, rfl, fun _ _ => rfl⟩
  obtain ⟨rfl, rfl, hok⟩ := hresult
  refine ⟨⟨hflushed.sound, hleft, ?_, ?_⟩, fun root hr => hall (hok root hr)⟩
  · intro cid hcid
    rcases hflushed.grows cid hcid with hold | hadded
    · exact (h.linked cid hold).imp (fun hknows => hknows.mono [_]) (hkeeps cid)
    · exact .inr (hnew cid hadded)
  · intro later e earlier heq he p hp
    cases later with
    | nil =>
        cases heq
        rcases hflushed.written p hp with hold | hadded
        · exact (h.linked p.1 hold).imp_right (hkeeps p.1)
        · exact .inr (hnew p.1 hadded)
    | cons e' later =>
        obtain ⟨-, heq⟩ := List.cons.inj heq
        exact (h.written later e earlier heq he p hp).imp_right (hkeeps p.1)

/-- A tree that a failed mutation left unusable stays so. -/
theorem Stored.perform_poisoned (c : Call) (h : s.tree.inner.poisoned = true) :
  (s.perform c).2.tree.inner.poisoned = true
  := by
  obtain ⟨request, source, puts⟩ := c
  cases request with
  | get key => simp [perform, BackedTree.get, DetachedTree.get, h]
  | insert key val => simp [perform, BackedTree.insert, DetachedTree.insert, h]
  | remove key => simp [perform, BackedTree.remove, DetachedTree.remove, h]
  | rootCid => simp [perform, BackedTree.rootCid, DetachedTree.flush, h, DetachedTree.unusable]

theorem Stored.perform_get (key : Key) (src : BlockSource) (puts : Puts) :
  s.perform ⟨.get key, src, puts⟩ = (.value (s.tree.inner.get src key).1,
    { s with tree := { s.tree with inner := (s.tree.inner.get src key).2 } })
  := by simp [perform, BackedTree.get]

theorem Stored.perform_insert (key : Key) (val : Cid) (src : BlockSource) (puts : Puts) :
  s.perform ⟨.insert key val, src, puts⟩
    = (.done ((s.tree.inner.insert src key val).1.map fun _ => ()),
      { s with tree := { s.tree with inner := (s.tree.inner.insert src key val).2 } })
  := by simp [perform, BackedTree.insert]

theorem Stored.perform_remove (key : Key) (src : BlockSource) (puts : Puts) :
  s.perform ⟨.remove key, src, puts⟩ = (.value (s.tree.inner.remove src key).1,
    { s with tree := { s.tree with inner := (s.tree.inner.remove src key).2 } })
  := by simp [perform, BackedTree.remove]

/-- A call keeps what holds while the tree is usable. -/
theorem Stored.Kept.perform (c : Call)
    (h : s.tree.inner.poisoned = true ∨ Stored.Kept s₀ events s) :
  (s.perform c).2.tree.inner.poisoned = true
    ∨ Stored.Kept s₀ (⟨s, (c.request, (s.perform c).1), (s.perform c).2⟩ :: events) (s.perform c).2
  := by
  by_cases hp : s.tree.inner.poisoned = true
  · exact .inl (perform_poisoned c hp)
  · have hkept := h.resolve_left hp
    obtain ⟨request, source, puts⟩ := c
    cases request with
    | get key =>
        rw [perform_get]
        exact .inr (hkept.read (by simp) (hkept.sound.reading (s.tree.inner.get_reading source key)))
    | insert key val =>
        rw [perform_insert]
        have hinsert := hkept.sound.insert (Prod.eta (s.tree.inner.insert source key val)).symm
        exact hinsert.imp_right fun hsound => hkept.read (by simp) hsound
    | remove key =>
        rw [perform_remove]
        have hremove := hkept.sound.remove (Prod.eta (s.tree.inner.remove source key)).symm
        exact hremove.imp_right fun hsound => hkept.read (by simp) hsound
    | rootCid => exact .inr (hkept.rootCid (by simpa using hp) rfl).1

theorem Stored.Start.kept_of_run (start : s₀.Start) (run : History.Run Stored.Step s₀ events s) :
  s.tree.inner.poisoned = true ∨ Stored.Kept s₀ events s
  := by
  induction run with
  | refl => exact .inr start.kept
  | tail run last ih =>
      obtain ⟨c, reads⟩ := last
      exact Stored.Kept.perform c ih

end Kept

/-! ### Later answers -/

/-- A tree over a store that some calls have led to. -/
def Stored.Reached (s : Stored) : Prop :=
  s.tree.inner.poisoned = true ∨ ∃ s₀ events, Stored.Kept s₀ events s

theorem Stored.Reached.perform {s : Stored} (h : s.Reached) (c : Call) :
  (s.perform c).2.Reached
  := by
  rcases h with hp | ⟨s₀, events, hkept⟩
  · exact .inl (perform_poisoned c hp)
  · exact (Stored.Kept.perform c (.inr hkept)).imp_right fun h => ⟨_, _, h⟩

theorem Stored.readsApart_nil :
  ∀ (calls : List Call) (s : Stored), s.ReadsApart [] calls
  | [], _ => trivial
  | _ :: calls, _ => .inr ⟨fun _ _ _ _ _ _ _ _ => List.not_mem_nil, readsApart_nil calls _⟩

section Later

variable {X : List Cid} {s u : Stored} {c c' : Call}

/-- A read or a change goes alike for two trees in lockstep. -/
theorem Lockstep.perform (h : Lockstep X s.tree.inner u.tree.inner) (hsame : c.Same c')
    (hrequest : c.request ≠ .rootCid) (hsrc : c.source.Apart X s.tree.inner.root) :
  (u.perform c').1 = (s.perform c).1
    ∧ Lockstep X (s.perform c).2.tree.inner (u.perform c').2.tree.inner
  := by
  obtain ⟨request, source, puts⟩ := c
  obtain ⟨request', source', puts'⟩ := c'
  obtain ⟨hreq, hsource⟩ := hsame
  cases hreq
  cases hsource
  cases request with
  | get key =>
      obtain ⟨hresult, hlock⟩ := h.get hsrc key
      rw [Stored.perform_get, Stored.perform_get, hresult]
      exact ⟨rfl, hlock⟩
  | insert key val =>
      obtain ⟨hresult, hlock⟩ := h.insert hsrc key val
      rw [Stored.perform_insert, Stored.perform_insert, hresult]
      exact ⟨rfl, hlock⟩
  | remove key =>
      obtain ⟨hresult, hlock⟩ := h.remove hsrc key
      rw [Stored.perform_remove, Stored.perform_remove, hresult]
      exact ⟨rfl, hlock⟩
  | rootCid => exact absurd rfl hrequest

theorem Stored.perform_rootCid {r : Except MstError Cid} {tree : BackedTree} {store : Blocks}
    (hrequest : c.request = .rootCid) (hroot : s.tree.rootCid c.puts s.store = (r, tree, store)) :
  s.perform c = (.root r, ⟨tree, store⟩)
  := by rw [perform, hrequest, hroot]

theorem Stored.perform_rootCid_poisoned (hp : s.tree.inner.poisoned = true)
    (hrequest : c.request = .rootCid) :
  ∃ e, s.perform c = (.root (.error e), s)
  := by
  obtain ⟨request, source, puts⟩ := c
  cases hrequest
  use .internal .unusable
  simp [perform, BackedTree.rootCid, DetachedTree.flush, hp, DetachedTree.unusable]

/-- A call for the root of a tree that is usable leaves what a flush does, and returns its root
unless a put fails. -/
theorem Stored.perform_rootCid_flushed {w : TreeWrite} {inner : DetachedTree}
    (h : s.tree.inner.FlushedTo w inner) (hrequest : c.request = .rootCid) :
  (s.perform c).2.tree.inner = inner
    ∧ ((s.perform c).1 = .root (.ok w.root) ∨ ∃ e, (s.perform c).1 = .root (.error e))
  := by
  obtain ⟨request, source, puts⟩ := c
  cases hrequest
  rw [perform]
  dsimp only
  rw [BackedTree.rootCid, h.flush]
  dsimp only
  rcases saveBlocks puts 0 (w.newBlocks.reverse ++ s.tree.unsaved) s.store
    with ⟨e | u, unsaved, store⟩
  · exact ⟨rfl, .inr ⟨e, rfl⟩⟩
  · exact ⟨rfl, .inl rfl⟩

theorem Stored.Reached.sound (h : s.Reached) (hp : s.tree.inner.poisoned = false) :
  s.tree.inner.Sound
  := by
  rcases h with hp' | ⟨s₀, events, hkept⟩
  · rw [hp] at hp'
    cases hp'
  · exact hkept.sound

/-- Calls for the root of two trees in lockstep return the same, unless one fails, and leave them in
lockstep. -/
theorem Lockstep.perform_rootCid (h : Lockstep X s.tree.inner u.tree.inner) (hs : s.Reached)
    (hu : u.Reached) (hp : s.tree.inner.poisoned = false) (hrequest : c.request = .rootCid)
    (hrequest' : c'.request = .rootCid) :
  (s.perform c).1.Agrees (u.perform c').1
    ∧ Lockstep [] (s.perform c).2.tree.inner (u.perform c').2.tree.inner
  := by
  have hp' : u.tree.inner.poisoned = false := h.poisoned.trans hp
  obtain ⟨w, inner, hflushed⟩ := (hs.sound hp).flush hp
  obtain ⟨v, inner', hflushed'⟩ := (hu.sound hp').flush hp'
  obtain ⟨rfl, hroot⟩ := hflushed.unique hflushed' h
  obtain ⟨hinner, hanswer⟩ := Stored.perform_rootCid_flushed hflushed hrequest
  obtain ⟨hinner', hanswer'⟩ := Stored.perform_rootCid_flushed hflushed' hrequest'
  rw [hinner, hinner']
  refine ⟨?_, .refl _ _⟩
  rcases hanswer with hanswer | ⟨e, hanswer⟩
  · rcases hanswer' with hanswer' | ⟨e', hanswer'⟩
    · rw [hanswer, hanswer', hroot]
      exact .same _
    · rw [hanswer, hanswer']
      exact .right
  · rcases hanswer' with hanswer' | ⟨e', hanswer'⟩
    · rw [hanswer, hanswer']
      exact .left
    · rw [hanswer, hanswer']
      exact .left

/-- A tree that is unusable answers by what is asked only. -/
theorem Stored.answers_poisoned {calls calls' : List Call}
    (hcalls : List.Forall₂ Call.Same calls calls') (hs : s.tree.inner.poisoned = true)
    (hu : u.tree.inner.poisoned = true) :
  List.Forall₂ Reply.Agrees (s.answers calls) (u.answers calls')
  := by
  induction hcalls generalizing s u with
  | nil => exact .nil
  | @cons c c' calls calls' hsame _ ih =>
      rw [answers, answers]
      refine .cons ?_ (ih (perform_poisoned c hs) (perform_poisoned c' hu))
      obtain ⟨request, source, puts⟩ := c
      obtain ⟨request', source', puts'⟩ := c'
      obtain ⟨hreq, -⟩ := hsame
      cases hreq
      cases request with
      | get key =>
          rw [perform_get, perform_get, DetachedTree.get, if_pos hs, DetachedTree.get, if_pos hu]
          exact .same _
      | insert key val =>
          rw [perform_insert, perform_insert, DetachedTree.insert, if_pos hs, DetachedTree.insert,
            if_pos hu]
          exact .same _
      | remove key =>
          rw [perform_remove, perform_remove, DetachedTree.remove, if_pos hs, DetachedTree.remove,
            if_pos hu]
          exact .same _
      | rootCid =>
          obtain ⟨e, hperform⟩ := @perform_rootCid_poisoned _ s ⟨.rootCid, source, puts⟩ hs rfl
          rw [hperform]
          obtain ⟨e', hperform'⟩ := @perform_rootCid_poisoned _ u ⟨.rootCid, source', puts'⟩ hu rfl
          rw [hperform']
          exact .left

/-- The same calls are answered alike by two trees in lockstep. -/
theorem Lockstep.answers {calls calls' : List Call} (hcalls : List.Forall₂ Call.Same calls calls')
    (h : Lockstep X s.tree.inner u.tree.inner) (hs : s.Reached) (hu : u.Reached)
    (hreads : s.ReadsApart X calls) :
  List.Forall₂ Reply.Agrees (s.answers calls) (u.answers calls')
  := by
  induction hcalls generalizing X s u with
  | nil => exact .nil
  | @cons c c' calls calls' hsame hcalls ih =>
      rw [Stored.answers, Stored.answers]
      by_cases hp : s.tree.inner.poisoned = true
      · exact Stored.answers_poisoned (.cons hsame hcalls) hp (h.poisoned.trans hp)
      by_cases hrequest : c.request = .rootCid
      · obtain ⟨hagrees, hlock⟩ := h.perform_rootCid hs hu (by simpa using hp) hrequest
          (hsame.request.trans hrequest)
        exact .cons hagrees (ih hlock (hs.perform c) (hu.perform c') (Stored.readsApart_nil _ _))
      · obtain ⟨hsrc, hrest⟩ := hreads.resolve_left hrequest
        obtain ⟨hanswer, hlock⟩ := h.perform hsame hrequest hsrc
        rw [hanswer]
        exact .cons (.same _) (ih hlock (hs.perform c) (hu.perform c') hrest)

/-- A call for the root that fails leaves the contents, and a tree in lockstep with the one before,
but for the blocks that are new and those that are retired. -/
theorem Stored.Reached.perform_rootCid (h : s.Reached) (hrequest : c.request = .rootCid) :
  (s.perform c).2.tree.inner.root.items = s.tree.inner.root.items
    ∧ Lockstep s.tree.inner.changes s.tree.inner (s.perform c).2.tree.inner
  := by
  by_cases hp : s.tree.inner.poisoned = true
  · obtain ⟨e, hperform⟩ := Stored.perform_rootCid_poisoned hp hrequest
    rw [hperform]
    exact ⟨rfl, .refl _ _⟩
  · have hp : s.tree.inner.poisoned = false := by simpa using hp
    obtain ⟨w, inner, hflushed⟩ := (h.sound hp).flush hp
    obtain ⟨hinner, -⟩ := Stored.perform_rootCid_flushed hflushed hrequest
    rw [hinner, DetachedTree.changes, hflushed.flush]
    have hitems := (DetachedTree.flush_items hflushed.flush).resolve_left
      (by simp [hflushed.poisoned])
    exact ⟨hitems, hflushed.lockstep (h.sound hp) hp⟩

end Later

/-! ### What a run saves -/

section Runs

variable {s₀ s s' : Stored} {events : Events}

/-- When the root is returned, every block that a flush has written is in the store, if its CID was
not known from the blocks that the tree was loaded from. A call for the root that fails leaves the
contents, and the calls after it are answered as they would be without it. -/
theorem Stored.Start.saved_of_run (start : s₀.Start) (run : History.Run Stored.Step s₀ events s) :
  (∀ root s', Stored.Step s (.rootCid, .root (.ok root)) s' →
      ∀ later e earlier,
        ⟨s, (.rootCid, .root (.ok root)), s'⟩ :: events = later ++ e :: earlier →
        e.label.1 = .rootCid → ∀ p ∈ e.before.tree.inner.written,
        Knows s₀ earlier p.1 ∨ s'.Saves p.1)
    ∧ ∀ err s', Stored.Step s (.rootCid, .root (.error err)) s' →
      s'.tree.inner.root.items = s.tree.inner.root.items
        ∧ ∀ calls calls', List.Forall₂ Call.Same calls calls' →
          s.ReadsApart s.tree.inner.changes calls →
          List.Forall₂ Reply.Agrees (s.answers calls) (s'.answers calls')
  := by
  have hreached : s.Reached := (start.kept_of_run run).imp_right fun h => ⟨_, _, h⟩
  constructor
  · intro root s' hstep later e earlier heq he p hp
    obtain ⟨c, -, hlabel, rfl⟩ := hstep.exists_call
    obtain ⟨hrequest, hanswer⟩ := Prod.mk.inj hlabel
    by_cases hpoisoned : s.tree.inner.poisoned = true
    · obtain ⟨e, hperform⟩ := Stored.perform_rootCid_poisoned hpoisoned hrequest.symm
      rw [hperform] at hanswer
      cases hanswer
    · rcases hroot : s.tree.rootCid c.puts s.store with ⟨r, tree, store⟩
      have hperform := Stored.perform_rootCid hrequest.symm hroot
      rw [hperform] at hanswer heq ⊢
      cases hanswer
      obtain ⟨hkept, hall⟩ := ((start.kept_of_run run).resolve_left hpoisoned).rootCid
        (by simpa using hpoisoned) hroot
      refine (hkept.written later e earlier heq he p hp).imp_right fun hpending => ?_
      refine hpending.resolve_left ?_
      rw [hall root rfl]
      exact List.not_mem_nil
  · intro err s' hstep
    obtain ⟨c, -, hlabel, rfl⟩ := hstep.exists_call
    obtain ⟨hrequest, -⟩ := Prod.mk.inj hlabel
    obtain ⟨hitems, hlock⟩ := hreached.perform_rootCid hrequest.symm
    exact ⟨hitems, fun calls calls' hcalls hreads =>
      hlock.answers hcalls hreached (hreached.perform c) hreads⟩

end Runs

end Hashing

/-! ### A store that rejects a block -/

namespace Stored

attribute [local instance] Hashing.checksum

open Session (sampleKey sampleVal)

/-- A new tree over an empty store. -/
def fresh : Stored := ⟨.new, fun _ => none⟩

/-- A call that sets the key `c/x`, and reads from the source. -/
def put (x : UInt8) (source : BlockSource) : Call :=
  ⟨.insert (sampleKey x) sampleVal, source, fun _ => .ok ()⟩

/-- A call for the root, of whose blocks the store takes the first ones only. -/
def save (taken : ℕ) : Call :=
  ⟨.rootCid, noBlocks, fun i => if i < taken then .ok () else .error .storage⟩

/-- The tree of `c/a`. -/
def filled : Stored := (fresh.perform (put 0x61 noBlocks)).2

/-- The tree of `c/a`, after the store has rejected its block. -/
def rejected : Stored := (filled.perform (save 0)).2

/-- The tree of `c/a` and `c/k`, after the store has rejected the block of the first. -/
def refilled : Stored := (rejected.perform (put 0x6b noBlocks)).2

/-- The root of the tree of `c/a` and `c/k`. -/
def sampleRoot : Cid :=
  .compute .drisl (encodeNodeData
    ⟨none, [⟨0, sampleKey 0x61, sampleVal, none⟩, ⟨2, [0x6b], sampleVal, none⟩]⟩)

theorem step_sample (s : Stored) {c : Call} (hsource : c.source = noBlocks) :
  Step s (c.request, (s.perform c).1) (s.perform c).2
  := by
  apply Step.mk c
  rw [hsource]
  exact Session.serves_noBlocks s.store

theorem step_save {s : Stored} {taken : ℕ} {r : Except MstError Cid}
    (h : (s.perform (save taken)).1 = .root r) :
  Step s (.rootCid, .root r) (s.perform (save taken)).2
  := by
  rw [← h]
  exact @step_sample s (save taken) rfl

/-- The block of the first tree is in the store after a later call. The call that failed does not
show in the answers after it. -/
theorem saved_after_reject :
  (∀ p ∈ filled.tree.inner.written,
      Knows fresh [⟨fresh, (.insert (sampleKey 0x61) sampleVal, .done (.ok ())), filled⟩] p.1
        ∨ (refilled.perform (save 2)).2.Saves p.1)
    ∧ List.Forall₂ Reply.Agrees (filled.answers [put 0x6b noBlocks, save 2])
      (rejected.answers [put 0x6b noBlocks, save 2])
  := by
  have hinsert : (fresh.perform (put 0x61 noBlocks)).1 = .done (.ok ()) := by decide
  have hrun : History.Run Step fresh
      [⟨fresh, (.insert (sampleKey 0x61) sampleVal, .done (.ok ())), filled⟩] filled := by
    refine .tail .refl ?_
    rw [← hinsert]
    exact @step_sample fresh (put 0x61 noBlocks) rfl
  have hreject : (filled.perform (save 0)).1 = .root (.error .storage) := by decide
  have hagain : (rejected.perform (put 0x6b noBlocks)).1 = .done (.ok ()) := by decide
  have hrun' : History.Run Step fresh
      [⟨rejected, (.insert (sampleKey 0x6b) sampleVal, .done (.ok ())), refilled⟩,
        ⟨filled, (.rootCid, .root (.error .storage)), rejected⟩,
        ⟨fresh, (.insert (sampleKey 0x61) sampleVal, .done (.ok ())), filled⟩] refilled := by
    refine .tail (.tail hrun (step_save hreject)) ?_
    rw [← hagain]
    exact @step_sample rejected (put 0x6b noBlocks) rfl
  have hsave : (refilled.perform (save 2)).1 = .root (.ok sampleRoot) := by decide +kernel
  constructor
  · exact (Start.saved_of_run (.new _) hrun').1 sampleRoot _ (step_save hsave) [_, _] _ [_] rfl rfl
  · refine ((Start.saved_of_run (.new _) hrun).2 .storage _ (step_save hreject)).2 _ _
      (.cons ⟨rfl, rfl⟩ (.cons ⟨rfl, rfl⟩ .nil)) ?_
    exact .inr ⟨noBlocks_apart _ _, .inl rfl⟩

/-! ### A store with a block that links a node of another place -/

/-- The root of the tree of `c/b`. -/
def linkedCid : Cid :=
  .compute .drisl (encodeNodeData ⟨none, [⟨0, sampleKey 0x62, sampleVal, none⟩]⟩)

/-- The node of `c/1`, which links the tree of `c/b` to its left. -/
def linkingData : Bytes :=
  encodeNodeData ⟨some linkedCid, [⟨0, sampleKey 0x31, sampleVal, none⟩]⟩

/-- The node of `c/2`, which links the node of `c/1` to its left. -/
def openedData : Bytes :=
  encodeNodeData ⟨some (.compute .drisl linkingData), [⟨0, sampleKey 0x32, sampleVal, none⟩]⟩

/-- A store with the two nodes. -/
def linkingStore : Blocks := fun cid =>
  if cid = .compute .drisl openedData then some openedData
  else if cid = .compute .drisl linkingData then some linkingData else none

/-- The source that reads the store. -/
def linkingSource : BlockSource := fun cid => .ok (linkingStore cid)

/-- The tree of the store, after `c/b` is inserted. -/
def linking : Stored :=
  (perform ⟨.load (.compute .drisl openedData), linkingStore⟩ (put 0x62 linkingSource)).2

/-- A call that looks up `c/1` in the store. -/
def look : Call := ⟨.get (sampleKey 0x31), linkingSource, fun _ => .ok ()⟩

/-- The tree of the store, after `c/1` is looked up and `c/b` is inserted. -/
def known : Stored :=
  ((perform ⟨.load (.compute .drisl openedData), linkingStore⟩ look).2.perform
    (put 0x62 linkingSource)).2

/-- The root that a call returns. -/
def Reply.savedRoot : Reply → Option Cid
  | .root r => r.toOption
  | _ => none

/-- A call for the root that fails shows in the calls after it: the store rejects its block again,
and a block is not read that links one of its blocks. A block is not put if a block that was read
links it, although the store lacks it. -/
theorem failed_call_shows :
  (filled.answers [save 0, put 0x6b noBlocks, save 1]
        = [.root (.error .storage), .done (.ok ()), .root (.error .storage)]
      ∧ filled.answers [put 0x6b noBlocks, save 1] = [.done (.ok ()), .root (.ok sampleRoot)])
    ∧ linking.answers [save 0, look]
        = [.root (.error .storage), .value (.error (.invalidNode (.linkedTwice linkedCid)))]
      ∧ linking.answers [look] = [.value (.ok (some sampleVal))]
    ∧ (Reply.savedRoot (known.perform (save 9)).1).isSome = true
      ∧ linkedCid ∈ known.tree.inner.written.map Prod.fst
      ∧ (known.perform (save 9)).2.store linkedCid = none
  := by decide +kernel

end Stored

end Shrike.Mst
