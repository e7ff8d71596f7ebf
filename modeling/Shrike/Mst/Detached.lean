import Shrike.Mst.Mutate

/-!
# The detached tree

The tree with its bookkeeping: the counts of the CIDs its nodes carry, the CIDs given up
since the last flush, the node of the empty tree if the last flush wrote it, and whether a
mutation failed partway. Every operation returns its result and the tree it leaves.
-/

namespace Shrike.Mst

open Cbor

mutual

/-- The number of levels of loaded nodes in a subtree. -/
def Child.depth : Child → ℕ
  | .absent => 0
  | .stub _ _ => 0
  | .node _ _ body => body.depth + 1

/-- The number of levels of loaded nodes in the subtrees of a node. -/
def Body.depth : Body → ℕ
  | .edge c => c.depth
  | .entry c _ _ rest => max c.depth rest.depth

end

/-- How far a traversal of a tree can descend: through its loaded nodes, then through as
many stubs as may load. -/
def Child.reach (root : Child) : ℕ := root.depth + maxLevels + 2

/-- A Merkle search tree that owns no block storage. -/
structure DetachedTree where
  root : Child
  refs : Refs
  released : List Cid
  emptyRoot : Option Cid
  poisoned : Bool

/-- What a flush returns: the root, the blocks to persist, and the blocks no longer
referenced. -/
structure TreeWrite where
  root : Cid
  newBlocks : List (Cid × Bytes)
  retired : List Cid

namespace DetachedTree

/-- The empty tree. -/
def new : DetachedTree where
  root := .absent
  refs := fun _ => none
  released := []
  emptyRoot := none
  poisoned := false

/-- The tree with the given root, of which nothing has been read. -/
def load (root : Cid) : DetachedTree :=
  { new with root := .stub root 0, refs := Function.update (fun _ => none) root (some 1) }

/-- The error of an operation on a tree that a failed mutation left unusable. -/
def unusable {α : Type} : Except MstError α := .error (.internal .unusable)

/-- The tree after a mutation failed partway. -/
def poison (t : DetachedTree) : DetachedTree := { t with poisoned := true, root := .absent }

variable [Hashing]

/-- Look up a key. -/
def get (t : DetachedTree) (src : BlockSource) (key : Key) :
    Except MstError (Option Cid) × DetachedTree :=
  if t.poisoned then (unusable, t)
  else if t.root.isAbsent then (.ok none, t)
  else
    let (r, root, refs) := getNode src key t.root.reach t.refs t.root .root
    (r, { t with root, refs })

/-- Load the nodes on the paths of the given keys, and collect what the source lacks. -/
def visitKeys (src : BlockSource) (visit : Visit) :
    List Key → Refs → Child → Except MstError (List Cid) × Child × Refs
  | [], refs, root => (.ok [], root, refs)
  | key :: keys, refs, root =>
      match visitKeyPath src key visit root.reach refs root true .root with
      | (.error e, root, refs) => (.error e, root, refs)
      | (.ok missing, root, refs) =>
          match visitKeys src visit keys refs root with
          | (.error e, root, refs) => (.error e, root, refs)
          | (.ok more, root, refs) => (.ok (missing ++ more), root, refs)

/-- The blocks the source lacks that an operation on any of the given keys needs, sorted,
without duplicates. -/
def missing (t : DetachedTree) (src : BlockSource) (keys : List Key) (visit : Visit) :
    Except MstError (List Cid) × DetachedTree :=
  if t.poisoned then (unusable, t)
  else if t.root.isAbsent then (.ok [], t)
  else
    let (r, root, refs) := visitKeys src visit keys t.refs t.root
    (r.map (fun cids => (cids.insertionSort (· ≤ ·)).dedup), { t with root, refs })

/-- The blocks the source lacks that a get or insert of any of the given keys needs. -/
def missingBlocks (t : DetachedTree) (src : BlockSource) (keys : List Key) :
    Except MstError (List Cid) × DetachedTree :=
  t.missing src keys .lookup

/-- The blocks the source lacks that a remove of any of the given keys needs. -/
def missingBlocksForRemove (t : DetachedTree) (src : BlockSource) (keys : List Key) :
    Except MstError (List Cid) × DetachedTree :=
  t.missing src keys .remove

/-- Load every node an insert or remove of a key touches, and return the key's value. -/
def loadKeyPath (t : DetachedTree) (src : BlockSource) (key : Key) (visit : Visit) :
    Except MstError (Option Cid) × DetachedTree :=
  if t.root.isAbsent then (.ok none, t)
  else match visitKeyPath src key visit t.root.reach t.refs t.root true .root with
    | (.error e, root, refs) => (.error e, { t with root, refs })
    | (.ok (cid :: _), root, refs) => (.error (.blockNotFound cid), { t with root, refs })
    | (.ok [], root, refs) =>
        let (r, root, refs) := getNode noBlocks key root.reach refs root .root
        (r, { t with root, refs })

/-- The tree that stops being empty if it was: the node of the empty tree goes. -/
def dropEmptyRoot (t : DetachedTree) : DetachedTree :=
  if t.root.isAbsent then
    { t with released := t.released ++ t.emptyRoot.toList, emptyRoot := none }
  else t

/-- Insert or update a key, returning the value it replaced. -/
def insert (t : DetachedTree) (src : BlockSource) (key : Key) (val : Cid) :
    Except MstError (Option Cid) × DetachedTree :=
  if t.poisoned then (unusable, t)
  else if !isValidKey key then (.error (.invalidKey key), t)
  else match t.loadKeyPath src key .lookup with
    | (.error e, t) => (.error e, t)
    | (.ok (some prev), t) =>
        if prev = val then (.ok (some prev), t)
        else match updateNode key val t.root with
          | .error e => (.error e, t.poison)
          | .ok (root, released) =>
              (.ok (some prev), { t with root, released := t.released ++ released })
    | (.ok none, t) =>
        match insertNode key val (heightForKey key) t.root with
        | .error e => (.error e, t.dropEmptyRoot.poison)
        | .ok (root, released) =>
            (.ok none, { t.dropEmptyRoot with
              root, released := t.dropEmptyRoot.released ++ released })

/-- Remove a key, returning its value. -/
def remove (t : DetachedTree) (src : BlockSource) (key : Key) :
    Except MstError (Option Cid) × DetachedTree :=
  if t.poisoned then (unusable, t)
  else match t.loadKeyPath src key .remove with
    | (.error e, t) => (.error e, t)
    | (.ok none, t) => (.ok none, t)
    | (.ok (some _), t) =>
        match removeFromRoot t.root key with
        | .error e => (.error e, t.poison)
        | .ok (root, removed, released) =>
            (.ok removed, { t with root, released := t.released ++ released })

/-- Walk the tree in order, calling `f` for each entry. -/
def walk {σ : Type} (t : DetachedTree) (src : BlockSource)
    (f : σ → Key → Cid → Except MstError σ) (s : σ) : Except MstError σ × DetachedTree :=
  if t.poisoned then (unusable, t)
  else if t.root.isAbsent then (.ok s, t)
  else
    let (r, root, refs) := walkNode src f t.root.reach s t.refs t.root .root
    (r, { t with root, refs })

/-- The entries of the tree, in order. -/
def entries (t : DetachedTree) (src : BlockSource) :
    Except MstError (List (Key × Cid)) × DetachedTree :=
  t.walk src (fun result key val => .ok (result ++ [(key, val)])) []

/-- Walk the entries reachable through blocks the source has, in order. -/
def walkReachable {σ : Type} (t : DetachedTree) (src : BlockSource)
    (f : σ → Key → Cid → Except MstError σ) (s : σ) : Except MstError σ × DetachedTree :=
  if t.poisoned then (unusable, t)
  else if t.root.isAbsent then (.ok s, t)
  else match ensureLoaded src t.refs t.root .root with
    | (.error e, root, refs) => (.error e, { t with root, refs })
    | (.ok (), root, refs) =>
        let (r, root, refs) := walkReachableNode src f root.reach s refs root .root
        (r, { t with root, refs })

/-! ### Flushing -/

/-- Count down the released CIDs. -/
def release (refs : Refs) : List Cid → Except MstError Refs
  | [] => .ok refs
  | cid :: rest =>
      match refs cid with
      | some (n + 1) => release (Function.update refs cid (some n)) rest
      | _ => .error (.internal (.releasedTwice cid))

/-- Count the written blocks, keeping those that had no count. -/
def retain (refs : Refs) : List (Cid × Bytes) → List (Cid × Bytes) × Refs
  | [] => ([], refs)
  | (cid, data) :: rest =>
      match refs cid with
      | some n => retain (Function.update refs cid (some (n + 1))) rest
      | none =>
          let (kept, refs) := retain (Function.update refs cid (some 1)) rest
          ((cid, data) :: kept, refs)

/-- Remove the released CIDs that no node carries any more. -/
def retire (refs : Refs) : List Cid → List Cid × Refs
  | [] => ([], refs)
  | cid :: rest =>
      if refs cid = some 0 then
        let (retired, refs) := retire (Function.update refs cid none) rest
        (cid :: retired, refs)
      else retire refs rest

/-- Count the nodes a flush wrote and retire the CIDs released since the last flush that no
node carries any more. -/
def settle (t : DetachedTree) (written : List (Cid × Bytes)) (root : Cid) :
    Except MstError TreeWrite × DetachedTree :=
  match release t.refs t.released with
  | .error e => (.error e, t.poison)
  | .ok refs =>
      let (newBlocks, refs) := retain refs written
      let (retired, refs) := retire refs t.released
      (.ok { root, newBlocks, retired := retired.insertionSort (· ≤ ·) },
        { t with refs, released := [] })

/-- Serialize the nodes changed since the last flush. -/
def flush (t : DetachedTree) : Except MstError TreeWrite × DetachedTree :=
  if t.poisoned then (unusable, t)
  else if t.root.isAbsent then
    settle { t with released := t.released ++ t.emptyRoot.toList,
                    emptyRoot := some emptyNodeBlock.1 }
      [emptyNodeBlock] emptyNodeBlock.1
  else match writeNode t.root with
    | .error e => (.error e, t.poison)
    | .ok (root, written) =>
        match root.link with
        | .ok (some cid) => settle { t with root } written cid
        | _ => (.error (.internal .cidNotComputed), t.poison)

end DetachedTree

end Shrike.Mst
