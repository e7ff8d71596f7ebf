import Shrike.Cbor.RoundTrip
import Mathlib.Data.List.TakeWhile

/-!
# Node blocks of a Merkle search tree

The keys of an MST, the contents of a node block with its prefix-compressed keys, the
encoding of a node as `encode_node_data` writes it and its decoding as `decode_node_data`
reads it.
-/

namespace Shrike.Mst

open Cbor

/-- An MST key, as the bytes of its text. -/
abbrev Key := Bytes

/-- The length an MST key may have. -/
def maxKeyLen : ℕ := 1024

/-- The number of entries a node may have when it is decoded. -/
def maxEntriesPerNode : ℕ := 10000

/-- Whether a byte may stand in either part of a key: an ASCII letter or digit, or one of
`_~-:.`. -/
def allowed (b : UInt8) : Bool :=
  (0x30 ≤ b && b ≤ 0x39) || (0x41 ≤ b && b ≤ 0x5a) || (0x61 ≤ b && b ≤ 0x7a)
    || [0x5f, 0x7e, 0x2d, 0x3a, 0x2e].contains b

/-- Whether a key is valid: a collection and a record key separated by one `/`, neither
empty, of allowed bytes, not too long in all. -/
def isValidKey (key : Key) : Bool :=
  match key.findIdx? (· == 0x2f) with
  | none => false
  | some slash => key.length ≤ maxKeyLen && 0 < slash && slash + 1 < key.length
      && (key.take slash).all allowed && (key.drop (slash + 1)).all allowed

/-- The length of the longest common prefix of two keys. -/
def sharedPrefixLen : Key → Key → ℕ
  | a :: as, b :: bs => if a = b then sharedPrefixLen as bs + 1 else 0
  | _, _ => 0

/-- An entry of a node block: how much of its key it shares with the entry before, the rest
of its key, its value, and the subtree to its right. -/
structure EntryData where
  prefixLen : ℕ
  keySuffix : Bytes
  value : Cid
  right : Option Cid

/-- The contents of a node block. -/
structure NodeData where
  left : Option Cid
  entries : List EntryData

/-- The subtrees a node links, in key order. -/
def NodeData.children (nd : NodeData) : List Cid :=
  nd.left.toList ++ nd.entries.filterMap EntryData.right

/-- The ways a block can fail to be a node, or a node to fit its place in a tree. -/
inductive Fault where
  | expectedMap
  | expectedArray
  | tooManyEntries (n : ℕ)
  | expectedLink
  | unexpectedKey (key : Bytes)
  | expectedEntry
  | expectedBytes
  | prefixLimit (n : ℕ)
  | expectedUint
  | expectedRight
  | expectedValue
  | unexpectedEntryKey (key : Bytes)
  | missingPrefixLen
  | missingKeySuffix
  | missingValue
  | prefixLen (n prev : ℕ)
  | notUtf8
  | invalidKey (key : Key)
  | notAscending (key prev : Key)
  | linkedTwice (cid : Cid)
  | tooDeep (cid : Cid)
  | outOfPlace (key : Key)
  deriving DecidableEq

/-- The internal errors of a tree. -/
inductive Bug where
  | notLoaded
  | cidNotComputed
  | updatedKeyAbsent
  | releasedTwice (cid : Cid)
  | unusable
  | unflushed
  | recursionLimit
  deriving DecidableEq

/-- The errors of MST operations. -/
inductive MstError where
  | blockNotFound (cid : Cid)
  | invalidNode (fault : Fault)
  | invalidKey (key : Key)
  | cbor (e : Cbor.Error)
  | internal (bug : Bug)
  | storage
  deriving DecidableEq

/-! ### Encoding -/

/-- The start of a node block of `n` entries. -/
def startNode (n : ℕ) : Bytes := putHead 5 2 ++ putText [0x65] ++ putHead 4 n

/-- An entry of a node block: a map of `k`, `p`, `t` and `v`. -/
def putEntry (e : EntryData) : Bytes :=
  putHead 5 4
    ++ (putText [0x6b] ++ putBytes e.keySuffix)
    ++ (putText [0x70] ++ putHead 0 e.prefixLen)
    ++ (putText [0x74] ++ putCidOrNull e.right)
    ++ (putText [0x76] ++ putCid e.value)

/-- The end of a node block: the left subtree. -/
def finishNode (left : Option Cid) : Bytes := putText [0x6c] ++ putCidOrNull left

/-- The block of a node. -/
def encodeNodeData (nd : NodeData) : Bytes :=
  startNode nd.entries.length ++ nd.entries.flatMap putEntry ++ finishNode nd.left

/-! ### Decoding -/

/-- The fields of an entry read so far. -/
structure EntryFields where
  prefixLen : Option ℕ := none
  keySuffix : Option Bytes := none
  value : Option Cid := none
  right : Option Cid := none

/-- The entry fields with one more field of the entry's map. -/
def EntryFields.read (f : EntryFields) : Bytes × Value → Except MstError EntryFields
  | ([0x6b], v) => match v with
      | .bytes b => .ok { f with keySuffix := some b }
      | _ => .error (.invalidNode .expectedBytes)
  | ([0x70], v) => match v with
      | .unsigned n =>
          if n > maxKeyLen then .error (.invalidNode (.prefixLimit n))
          else .ok { f with prefixLen := some n }
      | _ => .error (.invalidNode .expectedUint)
  | ([0x74], v) => match v with
      | .null => .ok f
      | .cid c => .ok { f with right := some c }
      | _ => .error (.invalidNode .expectedRight)
  | ([0x76], v) => match v with
      | .cid c => .ok { f with value := some c }
      | _ => .error (.invalidNode .expectedValue)
  | (key, _) => .error (.invalidNode (.unexpectedEntryKey key))

/-- The entry an entry map stands for. -/
def decodeEntryData : Value → Except MstError EntryData
  | .map fields => do
      let f ← fields.foldlM EntryFields.read {}
      match f.prefixLen, f.keySuffix, f.value with
      | some p, some k, some v =>
          .ok { prefixLen := p, keySuffix := k, value := v, right := f.right }
      | none, _, _ => .error (.invalidNode .missingPrefixLen)
      | some _, none, _ => .error (.invalidNode .missingKeySuffix)
      | some _, some _, none => .error (.invalidNode .missingValue)
  | _ => .error (.invalidNode .expectedEntry)

/-- The node with one more field of the node's map. -/
def NodeData.read (nd : NodeData) : Bytes × Value → Except MstError NodeData
  | ([0x65], v) => match v with
      | .array items =>
          if items.length > maxEntriesPerNode then
            .error (.invalidNode (.tooManyEntries items.length))
          else do
            let entries ← items.mapM decodeEntryData
            .ok { nd with entries := entries }
      | _ => .error (.invalidNode .expectedArray)
  | ([0x6c], v) => match v with
      | .null => .ok nd
      | .cid c => .ok { nd with left := some c }
      | _ => .error (.invalidNode .expectedLink)
  | (key, _) => .error (.invalidNode (.unexpectedKey key))

/-- The node a block stands for. -/
def decodeNodeData (data : Bytes) : Except MstError NodeData :=
  match decode data with
  | .error e => .error (.cbor e)
  | .ok (.map fields) => fields.foldlM NodeData.read { left := none, entries := [] }
  | .ok _ => .error (.invalidNode .expectedMap)

/-- The full keys of the entries after an entry with key `prev`, or after the start of the
node, in order. -/
def keysFrom (first : Bool) (prev : Key) : List EntryData → Except MstError (List Key)
  | [] => .ok []
  | ed :: rest =>
      if prev.length < ed.prefixLen then
        .error (.invalidNode (.prefixLen ed.prefixLen prev.length))
      else
        let key := prev.take ed.prefixLen ++ ed.keySuffix
        if !Bytes.utf8 key then .error (.invalidNode .notUtf8)
        else if !isValidKey key then .error (.invalidNode (.invalidKey key))
        else if !first && key ≤ prev then .error (.invalidNode (.notAscending key prev))
        else do
          let keys ← keysFrom false key rest
          .ok (key :: keys)

/-- The full keys of a node's entries, in order. -/
def forEachKey (nd : NodeData) : Except MstError (List Key) := keysFrom true [] nd.entries

/-- What it takes for the keys of a nonempty list of entries to be read. -/
theorem keysFrom_cons_ok {first : Bool} {prev : Key} {ed : EntryData} {es : List EntryData}
    {ks : List Key} (h : keysFrom first prev (ed :: es) = .ok ks) :
  ∃ key rest, ks = key :: rest ∧ key = prev.take ed.prefixLen ++ ed.keySuffix
    ∧ isValidKey key = true ∧ (first = false → prev < key) ∧ keysFrom false key es = .ok rest
  := by
  rw [keysFrom] at h
  split at h
  · cases h
  · dsimp only at h
    split at h
    · cases h
    · split at h
      · cases h
      · rename_i hvalid
        split at h
        · cases h
        · rename_i hlt
          obtain ⟨rest, hrest, h⟩ := Except.bind_eq_ok.mp h
          cases h
          refine ⟨_, rest, rfl, rfl, by simpa using hvalid, ?_, hrest⟩
          rintro rfl
          simpa using hlt

theorem keysFrom_length :
  ∀ {es : List EntryData} {first : Bool} {prev : Key} {ks : List Key},
    keysFrom first prev es = .ok ks → ks.length = es.length
  | [], _, _, _, h => by
      cases h
      rfl
  | _ :: _, _, _, _, h => by
      obtain ⟨_, _, rfl, -, -, -, hrest⟩ := keysFrom_cons_ok h
      rw [List.length_cons, List.length_cons, keysFrom_length hrest]

/-- The keys of a node's entries are valid. -/
theorem keysFrom_valid :
  ∀ {es : List EntryData} {first : Bool} {prev : Key} {ks : List Key},
    keysFrom first prev es = .ok ks → ∀ k ∈ ks, isValidKey k = true
  | [], _, _, _, h, k, hk => by
      cases h
      cases hk
  | _ :: _, _, _, _, h, k, hk => by
      obtain ⟨_, _, rfl, -, hvalid, -, hrest⟩ := keysFrom_cons_ok h
      rcases List.mem_cons.mp hk with rfl | hk
      · apply hvalid
      · apply keysFrom_valid hrest k hk

/-- The keys of a node's entries ascend, and follow the key before them. -/
theorem keysFrom_sorted :
  ∀ {es : List EntryData} {first : Bool} {prev : Key} {ks : List Key},
    keysFrom first prev es = .ok ks →
    ks.Pairwise (· < ·) ∧ (first = false → ∀ k ∈ ks, prev < k)
  | [], _, _, _, h => by
      cases h
      use .nil
      simp
  | _ :: _, _, _, _, h => by
      obtain ⟨_, _, rfl, -, -, hprev, hrest⟩ := keysFrom_cons_ok h
      obtain ⟨hsorted, hlt⟩ := keysFrom_sorted hrest
      constructor
      · apply List.pairwise_cons.mpr ⟨hlt rfl, hsorted⟩
      · intro hfirst k hk
        rcases List.mem_cons.mp hk with rfl | hk
        · apply hprev hfirst
        · apply lt_trans (hprev hfirst) (hlt rfl k hk)

/-! ### Compressing keys -/

/-- The entries of a node with the given keys, values and right subtrees, after an entry
with key `prev`. -/
def compress (prev : Key) : List (Key × Cid × Option Cid) → List EntryData
  | [] => []
  | (key, value, right) :: rest =>
      { prefixLen := sharedPrefixLen prev key,
        keySuffix := key.drop (sharedPrefixLen prev key), value, right } :: compress key rest

theorem sharedPrefixLen_le_left (a b : Key) :
  sharedPrefixLen a b ≤ a.length
  := by
  fun_induction sharedPrefixLen a b with
  | case1 a as bs ih =>
      rw [List.length_cons]
      omega
  | case2 => omega
  | case3 => omega

theorem take_sharedPrefixLen (a b : Key) :
  a.take (sharedPrefixLen a b) = b.take (sharedPrefixLen a b)
  := by
  fun_induction sharedPrefixLen a b with
  | case1 a as bs ih => rw [List.take_succ_cons, List.take_succ_cons, ih]
  | case2 => rfl
  | case3 => rfl

/-- A key is the part it shares with the key before it followed by its suffix. -/
theorem take_append_drop_sharedPrefixLen (a b : Key) :
  a.take (sharedPrefixLen a b) ++ b.drop (sharedPrefixLen a b) = b
  := by
  rw [take_sharedPrefixLen, List.take_append_drop]

theorem allowed_lt {b : UInt8} (h : allowed b = true) :
  b < 0x80
  := by
  rw [UInt8.lt_iff_toNat_lt]
  simp only [allowed, Bool.or_eq_true, Bool.and_eq_true, decide_eq_true_eq,
    UInt8.le_iff_toNat_le, List.contains_cons, List.contains_nil, beq_iff_eq,
    Bool.false_eq_true, or_false] at h
  rcases h with ((h | h) | h) | h | h | h | h | h
  · have := h.2
    simp at this ⊢
    omega
  · have := h.2
    simp at this ⊢
    omega
  · have := h.2
    simp at this ⊢
    omega
  all_goals subst h; decide

/-- A valid key is ASCII. -/
theorem ascii_of_isValidKey {key : Key} (h : isValidKey key = true) :
  ∀ b ∈ key, b < 0x80
  := by
  rw [isValidKey] at h
  split at h
  · cases h
  · rename_i slash hslash
    simp only [Bool.and_eq_true, List.all_eq_true] at h
    obtain ⟨⟨-, hcollection⟩, hrkey⟩ := h
    obtain ⟨hlt, hbyte, -⟩ := List.findIdx?_eq_some_iff_getElem.mp hslash
    intro b hb
    rw [← List.take_append_drop slash key, List.mem_append] at hb
    rcases hb with hb | hb
    · apply allowed_lt (hcollection b hb)
    · rw [List.drop_eq_getElem_cons hlt, List.mem_cons] at hb
      rcases hb with rfl | hb
      · rw [beq_iff_eq.mp hbyte]
        decide
      · apply allowed_lt (hrkey b hb)

theorem length_le_of_isValidKey {key : Key} (h : isValidKey key = true) :
  key.length ≤ maxKeyLen
  := by
  rw [isValidKey] at h
  split at h
  · cases h
  · simp only [Bool.and_eq_true, decide_eq_true_eq] at h
    apply h.1.1.1.1

/-- The keys of compressed entries are the keys that were compressed, when these are valid
and ascending. -/
theorem keysFrom_compress :
  ∀ (es : List (Key × Cid × Option Cid)) (first : Bool) (prev : Key),
    (∀ e ∈ es, isValidKey e.1 = true) → (es.map Prod.fst).Pairwise (· < ·) →
    (first = false → ∀ e ∈ es, prev < e.1) →
    keysFrom first prev (compress prev es) = .ok (es.map Prod.fst)
  | [], _, _, _, _, _ => rfl
  | (key, value, right) :: es, first, prev, hvalid, hsorted, hprev => by
      have hkey := hvalid (key, value, right) List.mem_cons_self
      obtain ⟨hlt, hrest⟩ := List.pairwise_cons.mp hsorted
      have hord : (!first && decide (key ≤ prev)) = false := by
        cases first with
        | true => rfl
        | false =>
            have h := hprev rfl (key, value, right) List.mem_cons_self
            simpa using h
      have ih := keysFrom_compress es false key
        (fun e he => hvalid e (List.mem_cons_of_mem _ he)) hrest
        (fun _ e he => hlt e.1 (List.mem_map_of_mem he))
      rw [compress, keysFrom, if_neg (Nat.not_lt.mpr (sharedPrefixLen_le_left prev key))]
      simp only [take_append_drop_sharedPrefixLen, Bytes.utf8_of_ascii (ascii_of_isValidKey hkey),
        hkey, hord, Bool.not_true, Bool.false_eq_true, if_false, ih, Except.ok_bind, List.map_cons]

end Shrike.Mst
