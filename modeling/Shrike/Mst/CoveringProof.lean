import Shrike.Mst.Operations

/-!
# Covering proofs

The nodes that prove the value of a key and its neighbours on either side: for each key three
paths down the tree, each by a rule of its own, followed for all keys at once. Collecting them
only reads the tree.
-/

namespace Shrike.Mst

open Holed

/-- A position in a node: the left subtree, an entry, or the right subtree of an entry. -/
inductive Slot where
  | left
  | leaf (i : ℕ)
  | right (i : ℕ)
  deriving DecidableEq

/-- The index of the subtree at a slot, unless the slot holds an entry. -/
def Slot.subtree : Slot → Option ℕ
  | .left => some 0
  | .leaf _ => none
  | .right i => some (i + 1)

namespace Body

/-- The key of the entry at an index. -/
def keyAt : Body → ℕ → Option Key
  | .edge _, _ => none
  | .entry _ key _ _, 0 => some key
  | .entry _ _ _ rest, i + 1 => rest.keyAt i

/-- Whether there is a subtree before the entry at an index, or after the last one. -/
def hasSubtree (b : Body) (i : ℕ) : Bool := !(b.childAt i .root).1.isAbsent

/-- The index of the first entry whose key is at least the given one, or the entry count. -/
def gteEntry (b : Body) (key : Key) : ℕ := (b.search key).2

/-- The slot just before an entry, or the last slot for the entry count. -/
def slotBefore (b : Body) : ℕ → Option Slot
  | 0 => if b.hasSubtree 0 then some .left else none
  | j + 1 =>
      if j < b.size then
        if b.hasSubtree (j + 1) then some (.right j) else some (.leaf j)
      else none

/-- The slot just after an entry. -/
def slotAfter (b : Body) (i : ℕ) : Option Slot :=
  if i < b.size then
    if b.hasSubtree (i + 1) then some (.right i)
    else if i + 1 < b.size then some (.leaf (i + 1)) else none
  else none

end Body

/-- One rule of a covering proof at a loaded node, for one key: whether the node is in the
proof, and the slot the rule continues into. -/
abbrev ProofStep := Body → Key → Bool × Option Slot

/-- The search path down to a key, without the nodes below the last one that could hold it. -/
def keyStep : ProofStep := fun b key =>
  let i := b.gteEntry key
  if b.keyAt i = some key then (true, none)
  else
    let next := b.slotBefore i
    (next.any fun slot => slot.subtree.isSome, next)

/-- The path down the subtree just left of a key. -/
def leftSibStep : ProofStep := fun b key => (true, b.slotBefore (b.gteEntry key))

/-- The path down to the entry just right of a key. -/
def rightSibStep : ProofStep := fun b key =>
  let i := b.gteEntry key
  let found := if i < b.size then some (.leaf i) else b.slotBefore i
  match found with
  | some (.leaf j) =>
      if b.keyAt j = some key then (true, b.slotAfter j) else (true, b.slotBefore i)
  | subtree => (true, subtree)

/-- The runs of keys that continue into the same subtree, with one more key. -/
def addToRuns (runs : List (Slot × ℕ × ℕ)) (next : Option Slot × ℕ) : List (Slot × ℕ × ℕ) :=
  match next with
  | (none, _) => runs
  | (some slot, k) =>
      if slot.subtree.isNone then runs
      else match runs.getLast? with
        | none => runs ++ [(slot, k, k + 1)]
        | some (last, start, _) =>
            if last = slot then runs.dropLast ++ [(last, start, k + 1)]
            else runs ++ [(slot, k, k + 1)]

/-- Follow each run of keys into its subtree by `pass`. -/
def passRuns (pass : List Key → Refs → Child → Place → Except MstError (List Cid) × Child × Refs)
    (keys : List Key) (pl : Place) :
    List (Slot × ℕ × ℕ) → Refs → Body → Except MstError (List Cid) × Body × Refs
  | [], refs, body => (.ok [], body, refs)
  | (slot, start, stop) :: runs, refs, body =>
      match slot.subtree with
      | none => passRuns pass keys pl runs refs body
      | some i =>
          let (child, childPl) := body.childAt i pl
          if child.isAbsent then passRuns pass keys pl runs refs body
          else match pass ((keys.take stop).drop start) refs child childPl with
            | (.error e, child, refs) => (.error e, body.setChildAt child i, refs)
            | (.ok out, child, refs) =>
                match passRuns pass keys pl runs refs (body.setChildAt child i) with
                | (.error e, body, refs) => (.error e, body, refs)
                | (.ok more, body, refs) => (.ok (out ++ more), body, refs)

variable [Hashing]

/-- Apply a rule for every key from a node down, and collect the nodes it selects. -/
def proofPass (src : BlockSource) (step : ProofStep) :
    ℕ → List Key → Refs → Child → Place → Except MstError (List Cid) × Child × Refs
  | 0, _, refs, n, _ => (.error (.internal .recursionLimit), n, refs)
  | fuel + 1, keys, refs, n, pl =>
      match ensureLoaded src refs n pl with
      | (.error e, n, refs) => (.error e, n, refs)
      | (.ok (), .node cid h body, refs) =>
          let steps := keys.map (step body)
          let runs := (steps.map Prod.snd).zipIdx.foldl addToRuns []
          let included := steps.any Prod.fst
          if included && cid.isNone then (.error (.internal .unflushed), .node cid h body, refs)
          else
            let (r, body, refs) := passRuns (proofPass src step fuel) keys pl runs refs body
            (r.map ((if included then cid.toList else []) ++ ·), .node cid h body, refs)
      | (.ok (), n, refs) => (.ok [], n, refs)

/-- Apply each of the rules in turn. -/
def proofPasses (src : BlockSource) (keys : List Key) :
    List ProofStep → Refs → Child → Except MstError (List Cid) × Child × Refs
  | [], refs, root => (.ok [], root, refs)
  | step :: steps, refs, root =>
      match proofPass src step root.reach keys refs root .root with
      | (.error e, root, refs) => (.error e, root, refs)
      | (.ok out, root, refs) =>
          match proofPasses src keys steps refs root with
          | (.error e, root, refs) => (.error e, root, refs)
          | (.ok more, root, refs) => (.ok (out ++ more), root, refs)

/-- The CIDs of the nodes in the covering proofs of the given keys, sorted, without
duplicates. -/
def DetachedTree.coveringProof (t : DetachedTree) (src : BlockSource) (keys : List Key) :
    Except MstError (List Cid) × DetachedTree :=
  if t.poisoned then (unusable, t)
  else
    let keys := (keys.insertionSort (· ≤ ·)).dedup
    if keys.isEmpty then (.ok [], t)
    else if t.root.isAbsent then (.ok [emptyNodeBlock.1], t)
    else
      let (r, root, refs) :=
        proofPasses src keys [keyStep, leftSibStep, rightSibStep] t.refs t.root
      (r.map fun cids => (cids.insertionSort (· ≤ ·)).dedup, { t with root, refs })

/-! ### Covering proofs only read -/

section Traversed

variable (src : BlockSource)

theorem passRuns_traversed
    {pass : List Key → Refs → Child → Place → Except MstError (List Cid) × Child × Refs}
    (hpass : ∀ keys refs n pl,
      Traversed src pl n refs (pass keys refs n pl).2.1 (pass keys refs n pl).2.2)
    (keys : List Key) (pl : Place) :
  ∀ (runs : List (Slot × ℕ × ℕ)) (refs : Refs) (b : Body),
    TraversedBody src pl b refs (passRuns pass keys pl runs refs b).2.1
      (passRuns pass keys pl runs refs b).2.2
  | [], _, _ => .refl
  | (slot, start, stop) :: runs, refs, b => by
      rw [passRuns]
      split
      · apply passRuns_traversed hpass keys pl runs
      · rename_i i hslot
        dsimp only
        split
        · apply passRuns_traversed hpass keys pl runs
        · have hchild := hpass ((keys.take stop).drop start) refs (b.childAt i pl).1
            (b.childAt i pl).2
          split
          · rename_i heq
            rw [heq] at hchild
            apply TraversedBody.child hchild
          · rename_i child refs' heq
            rw [heq] at hchild
            have ih := passRuns_traversed hpass keys pl runs refs' (b.setChildAt child i)
            split
            · rename_i heq'
              rw [heq'] at ih
              apply (TraversedBody.child hchild).trans ih
            · rename_i heq'
              rw [heq'] at ih
              apply (TraversedBody.child hchild).trans ih

theorem proofPass_traversed (step : ProofStep) :
  ∀ (fuel : ℕ) (keys : List Key) (refs : Refs) (n : Child) (pl : Place),
    Traversed src pl n refs (proofPass src step fuel keys refs n pl).2.1
      (proofPass src step fuel keys refs n pl).2.2
  | 0, _, _, _, _ => .refl
  | fuel + 1, keys, refs, n, pl => by
      have hload := ensureLoaded_traversed src refs n pl
      rw [proofPass]
      split
      · rename_i heq
        rw [heq] at hload
        apply hload
      · rename_i heq
        rw [heq] at hload
        dsimp only
        split
        · apply hload
        · apply hload.trans
          apply Traversed.node
          apply passRuns_traversed src (proofPass_traversed step fuel)
      · rename_i heq
        rw [heq] at hload
        apply hload

theorem proofPasses_traversed (keys : List Key) :
  ∀ (steps : List ProofStep) (refs : Refs) (root : Child),
    Traversed src .root root refs (proofPasses src keys steps refs root).2.1
      (proofPasses src keys steps refs root).2.2
  | [], _, _ => .refl
  | step :: steps, refs, root => by
      have hpass := proofPass_traversed src step root.reach keys refs root .root
      rw [proofPasses]
      split
      · rename_i heq
        rw [heq] at hpass
        apply hpass
      · rename_i root' refs' heq
        rw [heq] at hpass
        have ih := proofPasses_traversed keys steps refs' root'
        split
        · rename_i heq'
          rw [heq'] at ih
          apply hpass.trans ih
        · rename_i heq'
          rw [heq'] at ih
          apply hpass.trans ih

theorem DetachedTree.coveringProof_reading (t : DetachedTree) (keys : List Key) :
  Reading src t (t.coveringProof src keys).2
  := by
  rw [coveringProof]
  split
  · apply Reading.refl
  · dsimp only
    split
    · apply Reading.refl
    · split
      · apply Reading.refl
      · apply Reading.of_traversed (proofPasses_traversed src _ _ t.refs t.root)

end Traversed

end Shrike.Mst
