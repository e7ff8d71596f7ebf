import Shrike.Mst.Tree

/-!
# Changing and writing the tree

Insertion with its splits, removal with its merges, and the encoding of changed nodes.
Everything a mutation touches is loaded before it starts, so reaching a stub is an internal
error. Each mutation returns, besides its result, the CIDs that the nodes it changed or
dropped gave up.
-/

namespace Shrike.Mst

open Cbor

/-- The error of a mutation that reaches a stub. -/
def notLoaded {α : Type} : Except MstError α := .error (.internal .notLoaded)

/-- A node without a CID, dropped if it has no entries and no subtree. -/
def trimNode (height : ℕ) : Body → Child
  | .edge .absent => .absent
  | body => .node none height body

mutual

/-- Split a subtree at a key: what is below the key, and what is not. -/
def splitNode (key : Key) : Child → Except MstError (Child × Child × List Cid)
  | .absent => .ok (.absent, .absent, [])
  | .stub _ _ => notLoaded
  | .node cid height body => do
      let (l, r, released) ← splitBody key body
      .ok (trimNode height l, trimNode height r, cid.toList ++ released)

/-- Split the contents of a node at a key, before the first entry that is not below it. -/
def splitBody (key : Key) : Body → Except MstError (Body × Body × List Cid)
  | .edge c => do
      let (l, r, released) ← splitNode key c
      .ok (.edge l, .edge r, released)
  | .entry c k val rest =>
      if k < key then do
        let (l, r, released) ← splitBody key rest
        .ok (.entry c k val l, r, released)
      else do
        let (l, r, released) ← splitNode key c
        .ok (.edge l, .entry r k val rest, released)

end

mutual

/-- Merge two sibling subtrees. -/
def mergeNodes : Child → Child → Except MstError (Child × List Cid)
  | .absent, r => .ok (r, [])
  | .stub cid height, r =>
      match r with
      | .absent => .ok (.stub cid height, [])
      | _ => notLoaded
  | .node lcid height lbody, r =>
      match r with
      | .absent => .ok (.node lcid height lbody, [])
      | .stub _ _ => notLoaded
      | .node rcid _ rbody => do
          let (body, released) ← mergeBody lbody rbody
          .ok (.node none height body, released ++ lcid.toList ++ rcid.toList)

/-- Append the contents of a node to those of the one before it, merging the two subtrees
that meet. -/
def mergeBody : Body → Body → Except MstError (Body × List Cid)
  | .edge c, right => do
      let (merged, released) ← mergeNodes c right.first
      .ok (right.setFirst merged, released)
  | .entry c key val rest, right => do
      let (body, released) ← mergeBody rest right
      .ok (.entry c key val body, released)

end

/-! ### Insertion -/

section Insert

variable (key : Key) (val : Cid) (height : ℕ)

/-- A new node for a key below a chain of `n` empty nodes. -/
def freshChain : ℕ → Child
  | 0 => .node none height (.entry .absent key val (.edge .absent))
  | n + 1 => .node none (height + n + 1) (.edge (freshChain n))

/-- A node below a chain of `n` empty nodes. -/
def wrap (c : Child) : ℕ → Child
  | 0 => c
  | n + 1 => .node none (c.height + n + 1) (.edge (wrap c n))

/-- Insert a key among the entries of a node of its own height. -/
def insertAtLevel : Body → Except MstError (Body × List Cid)
  | .edge c => do
      let (l, r, released) ← splitNode key c
      .ok (.entry l key val (.edge r), released)
  | .entry c k v rest =>
      if k < key then do
        let (rest, released) ← insertAtLevel rest
        .ok (.entry c k v rest, released)
      else if k = key then .ok (.entry c k val rest, [])
      else do
        let (l, r, released) ← splitNode key c
        .ok (.entry l key val (.entry r k v rest), released)

mutual

/-- Insert a key of a given height below a node: above the node, in it, or in a subtree of
it, as the heights say. -/
def insertNode : Child → Except MstError (Child × List Cid)
  | .absent => .ok (freshChain key val height 0, [])
  | .stub _ _ => notLoaded
  | .node cid h body =>
      if h < height then do
        let (body, released) ←
          insertAtLevel key val (.edge (wrap (.node cid h body) (height - h - 1)))
        .ok (.node none height body, released)
      else if height < h then do
        let (body, released) ← insertBelow h body
        .ok (.node none h body, released ++ cid.toList)
      else do
        let (body, released) ← insertAtLevel key val body
        .ok (.node none h body, released ++ cid.toList)

/-- Insert a key of a given height into a subtree of a node of height `h`. Where there is
no subtree, empty nodes fill the levels down to the key's. -/
def insertBelow (h : ℕ) : Body → Except MstError (Body × List Cid)
  | .edge c =>
      if c.isAbsent then .ok (.edge (freshChain key val height (h - 1 - height)), [])
      else do
        let (c, released) ← insertNode c
        .ok (.edge c, released)
  | .entry c k v rest =>
      if k < key then do
        let (rest, released) ← insertBelow h rest
        .ok (.entry c k v rest, released)
      else if c.isAbsent then
        .ok (.entry (freshChain key val height (h - 1 - height)) k v rest, [])
      else do
        let (c, released) ← insertNode c
        .ok (.entry c k v rest, released)

end

end Insert

mutual

/-- Set the value of a key that is in the tree, changing each node on its search path. -/
def updateNode (key : Key) (val : Cid) : Child → Except MstError (Child × List Cid)
  | .absent => .error (.internal .updatedKeyAbsent)
  | .stub _ _ => notLoaded
  | .node cid h body => do
      let (body, released) ← updateBody key val body
      .ok (.node none h body, cid.toList ++ released)

/-- Set the value of a key in the contents of a node. -/
def updateBody (key : Key) (val : Cid) : Body → Except MstError (Body × List Cid)
  | .edge c => do
      let (c, released) ← updateNode key val c
      .ok (.edge c, released)
  | .entry c k v rest =>
      if k < key then do
        let (rest, released) ← updateBody key val rest
        .ok (.entry c k v rest, released)
      else if k = key then .ok (.entry c k val rest, [])
      else do
        let (c, released) ← updateNode key val c
        .ok (.entry c k v rest, released)

end

/-! ### Removal -/

/-- A node left by a remove, dropped if it has no entries and no subtree. -/
def pruneEmpty (cid : Option Cid) (height : ℕ) : Body → Child × List Cid
  | .edge .absent => (.absent, cid.toList)
  | body => (.node cid height body, [])

mutual

/-- Remove a key below a node. Returns its value, if it is there. -/
def removeNode (key : Key) : Child → Except MstError (Child × Option Cid × List Cid)
  | .absent => .ok (.absent, none, [])
  | .stub _ _ => notLoaded
  | .node cid h body => do
      match ← removeBody key body with
      | none => .ok (.node cid h body, none, [])
      | some (body, none, released) =>
          let (n, dropped) := pruneEmpty cid h body
          .ok (n, none, released ++ dropped)
      | some (body, some val, released) =>
          let (n, dropped) := pruneEmpty none h body
          .ok (n, some val, released ++ cid.toList ++ dropped)

/-- Remove a key from the contents of a node, unless the subtree where it belongs is
absent. -/
def removeBody (key : Key) : Body → Except MstError (Option (Body × Option Cid × List Cid))
  | .edge c =>
      if c.isAbsent then .ok none
      else do
        let (c, removed, released) ← removeNode key c
        .ok (some (.edge c, removed, released))
  | .entry c k v rest =>
      if key = k then do
        let (merged, released) ← mergeNodes c rest.first
        .ok (some (rest.setFirst merged, some v, released))
      else if key < k then
        if c.isAbsent then .ok none
        else do
          let (c, removed, released) ← removeNode key c
          .ok (some (.entry c k v rest, removed, released))
      else do
        match ← removeBody key rest with
        | none => .ok none
        | some (rest, removed, released) => .ok (some (.entry c k v rest, removed, released))

end

/-- Collapse a chain of nodes without entries at the root. An unread node of height 0 is
accepted as the root. -/
def trimTop : Child → Except MstError (Child × List Cid)
  | .absent => .ok (.absent, [])
  | .stub cid h => if h = 0 then .ok (.stub cid h, []) else notLoaded
  | .node cid _ (.edge c) => do
      let (n, released) ← trimTop c
      .ok (n, cid.toList ++ released)
  | .node cid h (.entry c key val rest) => .ok (.node cid h (.entry c key val rest), [])

/-- Remove a key below the root, then collapse the root chain it may leave. -/
def removeFromRoot (root : Child) (key : Key) :
    Except MstError (Child × Option Cid × List Cid) := do
  let (root, removed, released) ← removeNode key root
  let (root, trimmed) ← trimTop root
  .ok (root, removed, released ++ trimmed)

/-! ### Writing -/

/-- The CID that a parent links, which a changed node does not have yet. -/
def Child.link : Child → Except MstError (Option Cid)
  | .absent => .ok none
  | .stub cid _ => .ok (some cid)
  | .node (some cid) _ _ => .ok (some cid)
  | .node none _ _ => .error (.internal .cidNotComputed)

/-- The entries of a node with their right links. -/
def Body.links : Body → Except MstError (List (Key × Cid × Option Cid))
  | .edge _ => .ok []
  | .entry _ key val rest => do
      let right ← rest.first.link
      let links ← rest.links
      .ok ((key, val, right) :: links)

/-- The block of a node in memory. -/
def encodeNode (body : Body) : Except MstError Bytes := do
  let left ← body.first.link
  let links ← body.links
  .ok (encodeNodeData { left, entries := compress [] links })

variable [Hashing]

/-- The node of the empty tree and its CID. -/
def emptyNodeBlock : Cid × Bytes :=
  let data := encodeNodeData { left := none, entries := [] }
  (Cid.compute .drisl data, data)

mutual

/-- Encode the changed nodes of a subtree, children first. Returns the subtree with its
CIDs, and the blocks. -/
def writeNode : Child → Except MstError (Child × List (Cid × Bytes))
  | .absent => .ok (.absent, [])
  | .stub cid h => .ok (.stub cid h, [])
  | .node (some cid) h body => .ok (.node (some cid) h body, [])
  | .node none h body => do
      let (body, out) ← writeBody body
      let data ← encodeNode body
      let cid := Cid.compute .drisl data
      .ok (.node (some cid) h body, out ++ [(cid, data)])

/-- Encode the changed nodes of the subtrees of a node. -/
def writeBody : Body → Except MstError (Body × List (Cid × Bytes))
  | .edge c => do
      let (c, out) ← writeNode c
      .ok (.edge c, out)
  | .entry c key val rest => do
      let (c, out) ← writeNode c
      let (rest, out') ← writeBody rest
      .ok (.entry c key val rest, out ++ out')

end

end Shrike.Mst
