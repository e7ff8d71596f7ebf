import Shrike.Mst.Node
import Mathlib.Data.List.Sort

/-!
# The in-memory tree

The nodes of a Merkle search tree in memory, with unread nodes as stubs, how a stub is
read from a block source, and the traversals that read the nodes an operation needs.

A traversal changes the tree in place: it returns the subtree it was given with some of its
stubs read, and the counts of the links it has seen, also when it fails.
-/

namespace Shrike.Mst

open Cbor

mutual

/-- The slot of a subtree: it is absent, an unread node of which only the CID and the
height its parent implies are known, or a loaded node with its CID, if it has not changed
since the last flush, its height, and its subtrees and entries. -/
inductive Child where
  | absent
  | stub (cid : Cid) (height : ℕ)
  | node (cid : Option Cid) (height : ℕ) (body : Body)

/-- The left subtree of a node, then each entry followed by its right subtree: either a
last subtree alone, or a subtree, an entry, and what follows the entry. -/
inductive Body where
  | edge (child : Child)
  | entry (child : Child) (key : Key) (val : Cid) (rest : Body)

end

/-- Induction along the entries of a node. -/
@[elab_as_elim]
theorem Body.spine {motive : Body → Prop} (edge : ∀ c, motive (.edge c))
    (entry : ∀ c k v rest, motive rest → motive (.entry c k v rest)) :
  ∀ b : Body, motive b
  | .edge c => edge c
  | .entry c k v rest => entry c k v rest (Body.spine edge entry rest)

/-- How many levels below the root a node may load. -/
def maxLevels : ℕ := 128

/-- Where a node sits in the tree: how many levels below the root, and the keys its
position allows, those strictly between `lo` and `hi`. -/
structure Place where
  depth : ℕ
  lo : Option Key
  hi : Option Key

namespace Place

/-- The place of the root. -/
def root : Place where
  depth := 0
  lo := none
  hi := none

/-- Whether a key is in the range a place allows. -/
def admits (pl : Place) (key : Key) : Bool :=
  pl.lo.all (· < key) && pl.hi.all (key < ·)

/-- The place one level down, in the same range. -/
def below (pl : Place) : Place := { pl with depth := pl.depth + 1 }

/-- The part of a place before a key. -/
def before (pl : Place) (key : Key) : Place := { pl with hi := some key }

/-- The part of a place after a key. -/
def after (pl : Place) (key : Key) : Place := { pl with lo := some key }

end Place

/-- Whether there is no node. -/
def Child.isAbsent : Child → Bool
  | .absent => true
  | _ => false

theorem Child.isAbsent_iff {c : Child} :
  c.isAbsent = true ↔ c = .absent
  := by
  cases c <;> simp [isAbsent]

/-! ### Positions in a node -/

namespace Body

/-- The left subtree. -/
def first : Body → Child
  | .edge c => c
  | .entry c _ _ _ => c

/-- The node with its left subtree replaced. -/
def setFirst (c : Child) : Body → Body
  | .edge _ => .edge c
  | .entry _ key val rest => .entry c key val rest

/-- The number of entries. -/
def size : Body → ℕ
  | .edge _ => 0
  | .entry _ _ _ rest => rest.size + 1

/-- The search for a key among the entries: whether it is there, and the index of the first
entry whose key is at least it. -/
def search (key : Key) : Body → Bool × ℕ
  | .edge _ => (false, 0)
  | .entry _ k _ rest =>
      if k < key then ((rest.search key).1, (rest.search key).2 + 1) else (k = key, 0)

/-- The value of the entry at an index. -/
def valueAt : Body → ℕ → Option Cid
  | .edge _, _ => none
  | .entry _ _ val _, 0 => some val
  | .entry _ _ _ rest, i + 1 => rest.valueAt i

/-- The subtree before the entry at an index, or the last one, and its place, given the
place of the node. -/
def childAt : Body → ℕ → Place → Child × Place
  | .edge c, _, pl => (c, pl.below)
  | .entry c key _ _, 0, pl => (c, (pl.before key).below)
  | .entry _ key _ rest, i + 1, pl => rest.childAt i (pl.after key)

/-- The node with the subtree before the entry at an index, or the last one, replaced. -/
def setChildAt (c : Child) : Body → ℕ → Body
  | .edge _, _ => .edge c
  | .entry _ key val rest, 0 => .entry c key val rest
  | .entry d key val rest, i + 1 => .entry d key val (rest.setChildAt c i)

end Body

/-! ### Reading a stub -/

/-- Where blocks are read from. -/
abbrev BlockSource := Cid → Except MstError (Option Bytes)

/-- The block source with no blocks. -/
def noBlocks : BlockSource := fun _ => .ok none

/-- How many nodes in memory carry each CID. -/
abbrev Refs := Cid → Option ℕ

/-- Count the links to the given children, up to the first that is linked already. Returns
it, the children counted, and the counts. -/
def countLinks (refs : Refs) : List Cid → Option Cid × List Cid × Refs
  | [] => (none, [], refs)
  | child :: rest =>
      if (refs child).getD 0 > 0 then (some child, [], refs)
      else
        let (twice, linked, refs') := countLinks (Function.update refs child (some 1)) rest
        (twice, child :: linked, refs')

/-- Forget the counts of the given CIDs. -/
def forget (refs : Refs) (cids : List Cid) : Refs := fun c => if c ∈ cids then none else refs c

/-- The stub of a linked node, if there is a link. -/
def stubAt (height : ℕ) : Option Cid → Child
  | none => .absent
  | some cid => .stub cid height

/-- The subtrees and entries of a node: the left subtree, and entries with their keys, whose
right subtrees are stubs of the given height. -/
def stubBody (height : ℕ) (left : Option Cid) : List (Key × EntryData) → Body
  | [] => .edge (stubAt height left)
  | (key, ed) :: rest =>
      .entry (stubAt height left) key ed.value (stubBody height ed.right rest)

variable [Hashing]

/-- The height and the contents in memory of a node that decodes to `nd` and was seeded with
a height, at a place. -/
def populateNode (height : ℕ) (nd : NodeData) (pl : Place) : Except MstError (ℕ × Body) := do
  let keys ← forEachKey nd
  match (keys.head?.toList ++ keys.getLast?.toList).find? (fun key => !pl.admits key) with
  | some key => .error (.invalidNode (.outOfPlace key))
  | none =>
      let height := (keys.head?.map heightForKey).getD height
      .ok (height, stubBody (height - 1) nd.left (keys.zip nd.entries))

/-- Decode a node at a place, if it is a stub. Returns the CID of its block if the source
does not have it. -/
def load (src : BlockSource) (refs : Refs) (n : Child) (pl : Place) :
    Except MstError (Option Cid) × Child × Refs :=
  match n with
  | .stub cid height =>
      if pl.depth > maxLevels then (.error (.invalidNode (.tooDeep cid)), n, refs)
      else match src cid with
        | .error e => (.error e, n, refs)
        | .ok none => (.ok (some cid), n, refs)
        | .ok (some data) =>
            match decodeNodeData data with
            | .error e => (.error e, n, refs)
            | .ok nd =>
                match countLinks refs nd.children with
                | (some child, linked, refs') =>
                    (.error (.invalidNode (.linkedTwice child)), n, forget refs' linked)
                | (none, linked, refs') =>
                    match populateNode height nd pl with
                    | .error e => (.error e, n, forget refs' linked)
                    | .ok (height, body) => (.ok none, .node (some cid) height body, refs')
  | _ => (.ok none, n, refs)

/-- Decode a node at a place, if it is a stub, failing if the source does not have it. -/
def ensureLoaded (src : BlockSource) (refs : Refs) (n : Child) (pl : Place) :
    Except MstError Unit × Child × Refs :=
  match load src refs n pl with
  | (.error e, n, refs) => (.error e, n, refs)
  | (.ok none, n, refs) => (.ok (), n, refs)
  | (.ok (some cid), n, refs) => (.error (.blockNotFound cid), n, refs)

/-! ### Traversals -/

/-- Which operation nodes are loaded for: a get or insert, or a remove. -/
inductive Visit where
  | lookup
  | remove

/-- The height a node was given. -/
def Child.height : Child → ℕ
  | .absent => 0
  | .stub _ h => h
  | .node _ h _ => h

/-- If `chain` is set, load the nodes `trimTop` inspects when a node is left as the root's
only subtree. Returns the CIDs of the nodes it needs and the source does not have. -/
def visitRootChain (src : BlockSource) :
    ℕ → Refs → Child → Place → Bool → Except MstError (List Cid) × Child × Refs
  | 0, refs, n, _, _ => (.error (.internal .recursionLimit), n, refs)
  | fuel + 1, refs, n, pl, chain =>
      if !chain then (.ok [], n, refs)
      else match load src refs n pl with
        | (.error e, n, refs) => (.error e, n, refs)
        | (.ok (some cid), n, refs) => (.ok (if n.height > 0 then [cid] else []), n, refs)
        | (.ok none, .node cid h body, refs) =>
            let (left, leftPl) := body.childAt 0 pl
            if left.isAbsent then (.ok [], .node cid h body, refs)
            else
              let (r, left, refs) := visitRootChain src fuel refs left leftPl (body.size = 0)
              (r, .node cid h (body.setChildAt left 0), refs)
        | (.ok none, n, refs) => (.ok [], n, refs)

/-- Load the nodes that merging two subtrees reads: both sides of each level while both
have a node there, down their facing edges. -/
def visitMerge (src : BlockSource) :
    ℕ → Refs → Child × Place → Child × Place → Bool →
      Except MstError (List Cid) × Child × Child × Refs
  | 0, refs, (l, _), (r, _), _ => (.error (.internal .recursionLimit), l, r, refs)
  | fuel + 1, refs, (l, lpl), (r, rpl), chain =>
      if r.isAbsent then
        let (res, l, refs) := visitRootChain src (fuel + 1) refs l lpl chain
        (res, l, r, refs)
      else if l.isAbsent then
        let (res, r, refs) := visitRootChain src (fuel + 1) refs r rpl chain
        (res, l, r, refs)
      else match load src refs l lpl with
        | (.error e, l, refs) => (.error e, l, r, refs)
        | (.ok lmissing, l, refs) =>
            match load src refs r rpl with
            | (.error e, r, refs) => (.error e, l, r, refs)
            | (.ok rmissing, r, refs) =>
                match l, r with
                | .node lcid lh lbody, .node rcid rh rbody =>
                    let (res, lchild, rchild, refs) :=
                      visitMerge src fuel refs (lbody.childAt lbody.size lpl)
                        (rbody.childAt 0 rpl)
                        (chain && lbody.size = 0 && rbody.size = 0)
                    (res, .node lcid lh (lbody.setChildAt lchild lbody.size),
                      .node rcid rh (rbody.setChildAt rchild 0), refs)
                | l, r => (.ok (lmissing.toList ++ rmissing.toList), l, r, refs)

/-- Load the nodes that a get, insert, or remove of a key touches, collecting the CIDs of
the stubs the source cannot supply. `top` is set while no node above has an entry. -/
def visitKeyPath (src : BlockSource) (key : Key) (visit : Visit) :
    ℕ → Refs → Child → Bool → Place → Except MstError (List Cid) × Child × Refs
  | 0, refs, n, _, _ => (.error (.internal .recursionLimit), n, refs)
  | fuel + 1, refs, n, top, pl =>
      match load src refs n pl with
      | (.error e, n, refs) => (.error e, n, refs)
      | (.ok (some cid), n, refs) => (.ok [cid], n, refs)
      | (.ok none, .node cid h body, refs) =>
          match body.search key, visit with
          | (true, _), .lookup => (.ok [], .node cid h body, refs)
          | (true, i), .remove =>
              let (res, l, r, refs) :=
                visitMerge src fuel refs (body.childAt i pl) (body.childAt (i + 1) pl)
                  (top && body.size = 1)
              (res, .node cid h ((body.setChildAt l i).setChildAt r (i + 1)), refs)
          | (false, i), _ =>
              let (child, childPl) := body.childAt i pl
              if child.isAbsent then (.ok [], .node cid h body, refs)
              else
                let (res, child, refs) :=
                  visitKeyPath src key visit fuel refs child (top && body.size = 0) childPl
                (res, .node cid h (body.setChildAt child i), refs)
      | (.ok none, n, refs) => (.ok [], n, refs)

/-- Look up a key below a node. -/
def getNode (src : BlockSource) (key : Key) :
    ℕ → Refs → Child → Place → Except MstError (Option Cid) × Child × Refs
  | 0, refs, n, _ => (.error (.internal .recursionLimit), n, refs)
  | fuel + 1, refs, n, pl =>
      match ensureLoaded src refs n pl with
      | (.error e, n, refs) => (.error e, n, refs)
      | (.ok (), .node cid h body, refs) =>
          match body.search key with
          | (true, i) => (.ok (body.valueAt i), .node cid h body, refs)
          | (false, i) =>
              let (child, childPl) := body.childAt i pl
              if child.isAbsent then (.ok none, .node cid h body, refs)
              else
                let (res, child, refs) := getNode src key fuel refs child childPl
                (res, .node cid h (body.setChildAt child i), refs)
      | (.ok (), n, refs) => (.ok none, n, refs)

section Walk

variable {σ : Type}

/-- Walk the subtrees and entries of a node in order, each subtree by `walk`. -/
def walkBody (f : σ → Key → Cid → Except MstError σ)
    (walk : σ → Refs → Child → Place → Except MstError σ × Child × Refs) :
    σ → Refs → Body → Place → Except MstError σ × Body × Refs
  | s, refs, .edge c, pl =>
      let (r, c, refs) := walk s refs c pl.below
      (r, .edge c, refs)
  | s, refs, .entry c key val rest, pl =>
      match walk s refs c (pl.before key).below with
      | (.error e, c, refs) => (.error e, .entry c key val rest, refs)
      | (.ok s, c, refs) =>
          match f s key val with
          | .error e => (.error e, .entry c key val rest, refs)
          | .ok s =>
              let (r, rest, refs) := walkBody f walk s refs rest (pl.after key)
              (r, .entry c key val rest, refs)

/-- Walk the entries below a node in order, calling `f` for each. -/
def walkNode (src : BlockSource) (f : σ → Key → Cid → Except MstError σ) :
    ℕ → σ → Refs → Child → Place → Except MstError σ × Child × Refs
  | 0, _, refs, n, _ => (.error (.internal .recursionLimit), n, refs)
  | fuel + 1, s, refs, n, pl =>
      match ensureLoaded src refs n pl with
      | (.error e, n, refs) => (.error e, n, refs)
      | (.ok (), .node cid h body, refs) =>
          let (r, body, refs) := walkBody f (walkNode src f fuel) s refs body pl
          (r, .node cid h body, refs)
      | (.ok (), n, refs) => (.ok s, n, refs)

/-- Walk the entries below a loaded node in order, skipping every subtree whose node the
source does not have. -/
def walkReachableNode (src : BlockSource) (f : σ → Key → Cid → Except MstError σ) :
    ℕ → σ → Refs → Child → Place → Except MstError σ × Child × Refs
  | 0, _, refs, n, _ => (.error (.internal .recursionLimit), n, refs)
  | fuel + 1, s, refs, n, pl =>
      match load src refs n pl with
      | (.error e, n, refs) => (.error e, n, refs)
      | (.ok none, .node cid h body, refs) =>
          let (r, body, refs) := walkBody f (walkReachableNode src f fuel) s refs body pl
          (r, .node cid h body, refs)
      | (.ok _, n, refs) => (.ok s, n, refs)

end Walk

end Shrike.Mst
