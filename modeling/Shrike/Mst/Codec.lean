import Shrike.Mst.Node

/-!
# Node blocks read back

A node block within the decoder's limits decodes to the node it encodes, one beyond them
does not decode, and no two nodes have the same block.
-/

namespace Shrike.Mst

open Cbor

/-- The value an entry of a node block encodes. -/
def entryValue (e : EntryData) : Value :=
  .map [([0x6b], .bytes e.keySuffix), ([0x70], .unsigned e.prefixLen),
    ([0x74], e.right.elim .null .cid), ([0x76], .cid e.value)]

/-- The value a node block encodes. -/
def nodeValue (nd : NodeData) : Value :=
  .map [([0x65], .array (nd.entries.map entryValue)), ([0x6c], nd.left.elim .null .cid)]

/-- An entry whose key is not too long to be decoded. -/
def EntryData.Fits (e : EntryData) : Prop := e.prefixLen ≤ maxKeyLen ∧ e.keySuffix.length ≤ maxKeyLen

theorem writeItem_link (c : Option Cid) :
  writeItem (c.elim .null .cid) = .ok (putCidOrNull c)
  := by
  cases c with
  | none => rfl
  | some c => rfl

theorem writeItem_entryValue (e : EntryData) :
  writeItem (entryValue e) = .ok (putEntry e)
  := by
  have hkt : keyLt [0x6b] [0x70] = true := by decide
  have htt : keyLt [0x70] [0x74] = true := by decide
  have htv : keyLt [0x74] [0x76] = true := by decide
  simp only [entryValue, writeItem, writeEntries, writeItem_link, Option.any_none, Option.any_some,
    hkt, htt, htv, Bool.not_true, Bool.false_eq_true, if_false, Except.ok_bind,
    List.length_cons, List.length_nil, putEntry, List.append_assoc, List.append_nil]

theorem writeItems_entryValue (es : List EntryData) :
  writeItems (es.map entryValue) = .ok (es.flatMap putEntry)
  := by
  induction es with
  | nil => rfl
  | cons e es ih =>
      rw [List.map_cons, writeItems, writeItem_entryValue, Except.ok_bind, ih, Except.ok_bind,
        List.flatMap_cons]

theorem writeItem_nodeValue (nd : NodeData) :
  writeItem (nodeValue nd) = .ok (encodeNodeData nd)
  := by
  have hel : keyLt [0x65] [0x6c] = true := by decide
  simp only [nodeValue, writeItem, writeEntries, writeItem_link, writeItems_entryValue,
    Option.any_none, Option.any_some, hel, Bool.not_true, Bool.false_eq_true, if_false,
    Except.ok_bind, List.length_cons, List.length_nil, List.length_map,
    encodeNodeData, startNode, finishNode, List.append_assoc, List.append_nil]

theorem fits_link (budget : ℕ) (c : Option Cid) :
  (c.elim Value.null Value.cid).Fits (budget + 1)
  := by
  cases c with
  | none => trivial
  | some c => trivial

theorem fits_key {b : UInt8} (h : b < 0x80) :
  Bytes.utf8 [b] = true ∧ [b].length < 2 ^ 64
  := by
  constructor
  · apply Bytes.utf8_of_ascii
    simpa using h
  · simp

variable {e e' : EntryData}

theorem fits_entryValue (h : e.Fits) (budget : ℕ) :
  (entryValue e).Fits (budget + 2)
  := by
  obtain ⟨hp, hk⟩ := h
  rw [maxKeyLen] at hp hk
  refine ⟨by simp [maxCollectionLen], ?_⟩
  intro x hx
  simp only [List.mem_cons, List.not_mem_nil, or_false] at hx
  rcases hx with rfl | rfl | rfl | rfl
  · refine ⟨fits_key (by decide), ?_⟩
    show e.keySuffix.length < 2 ^ 64
    omega
  · refine ⟨fits_key (by decide), ?_⟩
    show e.prefixLen ≤ 2 ^ 63 - 1
    omega
  · exact ⟨fits_key (by decide), fits_link _ _⟩
  · exact ⟨fits_key (by decide), trivial⟩

variable {nd nd' : NodeData}

theorem fits_nodeValue (h : ∀ e ∈ nd.entries, e.Fits)
    (hlen : nd.entries.length ≤ maxCollectionLen) (budget : ℕ) :
  (nodeValue nd).Fits (budget + 4)
  := by
  refine ⟨by simp [maxCollectionLen], ?_⟩
  intro x hx
  simp only [List.mem_cons, List.not_mem_nil, or_false] at hx
  rcases hx with rfl | rfl
  · refine ⟨fits_key (by decide), by rwa [List.length_map], ?_⟩
    intro v hv
    obtain ⟨e, he, rfl⟩ := List.mem_map.mp hv
    apply fits_entryValue (h e he)
  · exact ⟨fits_key (by decide), fits_link _ _⟩

/-! ### Decoding -/

theorem decodeEntryData_entryValue (h : e.Fits) :
  decodeEntryData (entryValue e) = .ok e
  := by
  have hp : ¬ e.prefixLen > maxKeyLen := Nat.not_lt.mpr h.1
  obtain ⟨p, k, v, right⟩ := e
  cases right <;>
    simp [entryValue, decodeEntryData, EntryFields.read, hp, bind, Except.bind, pure, Except.pure]

theorem mapM_decodeEntryData {es : List EntryData} (h : ∀ e ∈ es, e.Fits) :
  (es.map entryValue).mapM decodeEntryData = .ok es
  := by
  induction es with
  | nil => rfl
  | cons e es ih =>
      rw [List.map_cons, List.mapM_cons, decodeEntryData_entryValue (h e List.mem_cons_self),
        ih (fun x hx => h x (List.mem_cons_of_mem e hx))]
      rfl

/-- What reading the fields of a node's value gives. -/
theorem read_nodeValue (h : ∀ e ∈ nd.entries, e.Fits) :
  [([0x65], Value.array (nd.entries.map entryValue)), ([0x6c], nd.left.elim .null .cid)].foldlM
      NodeData.read { left := none, entries := [] }
    = if nd.entries.length > maxEntriesPerNode then
        .error (.invalidNode (.tooManyEntries nd.entries.length))
      else .ok nd
  := by
  obtain ⟨left, entries⟩ := nd
  rw [List.foldlM_cons]
  simp only [NodeData.read, List.length_map, mapM_decodeEntryData h]
  split
  · rfl
  · cases left with
    | none => rfl
    | some c => rfl

/-- A node block that is not too long decodes to the node. -/
theorem decodeNodeData_encodeNodeData (h : ∀ e ∈ nd.entries, e.Fits)
    (hlen : nd.entries.length ≤ maxEntriesPerNode) :
  decodeNodeData (encodeNodeData nd) = .ok nd
  := by
  have hmax : nd.entries.length ≤ maxCollectionLen := by
    rw [maxEntriesPerNode] at hlen
    rw [maxCollectionLen]
    omega
  have hdecode := decode_writeItem (fits_nodeValue h hmax 60) (writeItem_nodeValue nd)
  rw [decodeNodeData, hdecode]
  show List.foldlM NodeData.read _ _ = _
  rw [read_nodeValue h, if_neg (Nat.not_lt.mpr hlen)]

/-- The head of an array that is too long does not decode. -/
theorem collectionLen_too_long {n : ℕ} (hn : n > maxCollectionLen) :
  ∃ b arg, putHead 4 n = b :: arg ∧ b.toNat / 32 = 4
    ∧ ∀ rest, ∃ e, collectionLen (b.toNat % 32) .arrayLength (arg ++ rest) = .error e
  := by
  rcases Nat.lt_or_ge n (2 ^ 64) with hlt | hge
  · obtain ⟨b, arg, hput, hmajor, harg⟩ := putHead_read (by omega : 4 < 8) hlt
    refine ⟨b, arg, hput, hmajor, fun rest => ?_⟩
    use .arrayLength
    rw [collectionLen, harg]
    rw [Except.ok_bind]
    apply if_pos hn
  · have hput : putHead 4 n = 0x9b :: Bytes.be 8 n := by
      unfold putHead
      repeat rw [if_neg (by omega)]
      rfl
    refine ⟨0x9b, Bytes.be 8 n, hput, by decide, fun rest => ?_⟩
    have harg : readArgument (UInt8.toNat 0x9b % 32) (Bytes.be 8 n ++ rest)
        = readWide 8 4294967295 (Bytes.be 8 n ++ rest) := rfl
    rw [collectionLen, harg, readWide, readSlice_append (Bytes.length_be 8 n)]
    simp only [Except.ok_bind]
    split
    · exact ⟨_, rfl⟩
    · rename_i hlimit
      use .arrayLength
      rw [Except.ok_bind]
      simp only
      rw [if_pos (by rw [maxCollectionLen]; omega)]

theorem decodeValue_too_long {n budget : ℕ} (hn : n > maxCollectionLen) (rest : Bytes) :
  ∃ e, decodeValue (budget + 1) (putHead 4 n ++ rest) = .error e
  := by
  obtain ⟨b, arg, hput, hmajor, herr⟩ := collectionLen_too_long hn
  obtain ⟨e, he⟩ := herr rest
  use e
  rw [hput]
  simp only [List.cons_append, decodeValue, readByte, Except.ok_bind, hmajor, he,
    Except.error_bind]

/-- A node block with too many entries does not decode. -/
theorem decodeNodeData_too_many (h : ∀ e ∈ nd.entries, e.Fits)
    (hlen : nd.entries.length > maxEntriesPerNode) :
  ∃ e, decodeNodeData (encodeNodeData nd) = .error e
  := by
  rcases Nat.lt_or_ge maxCollectionLen nd.entries.length with hmax | hmax
  · obtain ⟨e, he⟩ := (@decodeValue_too_long _ 62) hmax
      (nd.entries.flatMap putEntry ++ finishNode nd.left)
    use .cbor e
    have hkey := (@readMapKey_putText [] [0x65])
      (putHead 4 nd.entries.length ++ (nd.entries.flatMap putEntry ++ finishNode nd.left))
      (by decide) (by decide) (.inl rfl)
    have hbytes : encodeNodeData nd = 0xa2 :: (putText [0x65]
        ++ (putHead 4 nd.entries.length ++ (nd.entries.flatMap putEntry ++ finishNode nd.left))) := by
      rw [encodeNodeData, startNode]
      simp only [List.append_assoc]
      rfl
    have hdecode : decode (encodeNodeData nd) = .error e := by
      rw [decode, hbytes]
      show (decodeEntries (decodeValue (62 + 1)) 2 [] _ >>= _) >>= _ = _
      rw [decodeEntries, hkey, Except.ok_bind]
      simp only [he, Except.error_bind]
    rw [decodeNodeData, hdecode]
  · have hdecode := decode_writeItem (fits_nodeValue h hmax 60) (writeItem_nodeValue nd)
    rw [decodeNodeData, hdecode]
    use .invalidNode (.tooManyEntries nd.entries.length)
    show List.foldlM NodeData.read _ _ = _
    rw [read_nodeValue h, if_pos hlen]

/-- What a node block decodes to, if it does, is the node. -/
theorem decodeNodeData_ok_iff (h : ∀ e ∈ nd.entries, e.Fits) :
  decodeNodeData (encodeNodeData nd) = .ok nd'
    ↔ nd' = nd ∧ nd.entries.length ≤ maxEntriesPerNode
  := by
  rcases Nat.lt_or_ge maxEntriesPerNode nd.entries.length with hlen | hlen
  · obtain ⟨e, he⟩ := decodeNodeData_too_many h hlen
    rw [he]
    simp [Nat.not_le.mpr hlen]
  · rw [decodeNodeData_encodeNodeData h hlen]
    simp [hlen, eq_comm]

/-! ### No two nodes have the same block -/

theorem entryValue_injective :
  Function.Injective entryValue
  := by
  rintro ⟨p, k, v, right⟩ ⟨p', k', v', right'⟩ h
  cases right <;> cases right' <;> simp_all [entryValue]

/-- An entry of a node block ends where its bytes say. -/
theorem putEntry_append_inj (h : e.Fits) (h' : e'.Fits) {r r' : Bytes}
    (heq : putEntry e ++ r = putEntry e' ++ r') :
  e = e' ∧ r = r'
  := by
  have hread := decodeValue_writeItem r (fits_entryValue h 0) (writeItem_entryValue e)
  have hread' := decodeValue_writeItem r' (fits_entryValue h' 0) (writeItem_entryValue e')
  rw [heq, hread'] at hread
  obtain ⟨hvalue, hrest⟩ := Prod.mk.inj (Except.ok.inj hread)
  use (entryValue_injective hvalue).symm, hrest.symm

theorem putCidOrNull_inj {c c' : Option Cid} (h : putCidOrNull c = putCidOrNull c') :
  c = c'
  := by
  have hread := decodeValue_writeItem [] (fits_link 0 c) (writeItem_link c)
  have hread' := decodeValue_writeItem [] (fits_link 0 c') (writeItem_link c')
  rw [h, hread'] at hread
  have hvalue := (Prod.mk.inj (Except.ok.inj hread)).1
  cases c <;> cases c' <;> simp_all

theorem putEntry_ne_finishNode (e : EntryData) (left : Option Cid) (r : Bytes) :
  putEntry e ++ r ≠ finishNode left
  := by
  intro h
  have hhead := congrArg List.head? h
  rw [putEntry, finishNode] at hhead
  simp [putHead, putText] at hhead

theorem entries_finishNode_inj :
  ∀ {es es' : List EntryData} {left left' : Option Cid}, (∀ e ∈ es, e.Fits) →
    (∀ e ∈ es', e.Fits) →
    es.flatMap putEntry ++ finishNode left = es'.flatMap putEntry ++ finishNode left' →
    es = es' ∧ left = left'
  | [], [], _, _, _, _, h => by
      use rfl
      rw [List.flatMap_nil, List.nil_append, List.nil_append, finishNode, finishNode] at h
      apply putCidOrNull_inj (List.append_cancel_left h)
  | [], e' :: es', left, _, _, _, h => by
      rw [List.flatMap_cons, List.append_assoc] at h
      exact absurd h.symm (putEntry_ne_finishNode e' left _)
  | e :: es, [], _, left', _, _, h => by
      rw [List.flatMap_cons, List.append_assoc] at h
      exact absurd h (putEntry_ne_finishNode e left' _)
  | e :: es, e' :: es', _, _, hes, hes', h => by
      rw [List.flatMap_cons, List.flatMap_cons, List.append_assoc, List.append_assoc] at h
      obtain ⟨rfl, hrest⟩ := putEntry_append_inj (hes e List.mem_cons_self)
        (hes' e' List.mem_cons_self) h
      obtain ⟨rfl, rfl⟩ := entries_finishNode_inj (fun x hx => hes x (List.mem_cons_of_mem e hx))
        (fun x hx => hes' x (List.mem_cons_of_mem e hx)) hrest
      exact ⟨rfl, rfl⟩

/-- The first byte of a head says how long it is. -/
theorem putHead_width (n : ℕ) :
  ∃ b arg, putHead 4 n = b :: arg
    ∧ arg.length = if b.toNat < 152 then 0 else 2 ^ (b.toNat - 152)
  := by
  unfold putHead
  split
  · refine ⟨_, _, rfl, ?_⟩
    rw [if_pos]
    · rfl
    · rw [UInt8.toNat_ofNat']
      omega
  · split
    · exact ⟨_, _, rfl, Bytes.length_be 1 n⟩
    · split
      · exact ⟨_, _, rfl, Bytes.length_be 2 n⟩
      · split
        · exact ⟨_, _, rfl, Bytes.length_be 4 n⟩
        · exact ⟨_, _, rfl, Bytes.length_be 8 n⟩

theorem putHead_append_inj {n n' : ℕ} {r r' : Bytes} (h : putHead 4 n ++ r = putHead 4 n' ++ r') :
  r = r'
  := by
  obtain ⟨b, arg, hput, hlen⟩ := putHead_width n
  obtain ⟨b', arg', hput', hlen'⟩ := putHead_width n'
  rw [hput, hput', List.cons_append, List.cons_append] at h
  obtain ⟨rfl, hargs⟩ := List.cons_eq_cons.mp h
  apply (List.append_inj hargs (hlen.trans hlen'.symm)).2

/-- No two nodes have the same block. -/
theorem encodeNodeData_inj (h : ∀ e ∈ nd.entries, e.Fits)
    (h' : ∀ e ∈ nd'.entries, e.Fits) (heq : encodeNodeData nd = encodeNodeData nd') :
  nd = nd'
  := by
  obtain ⟨left, entries⟩ := nd
  obtain ⟨left', entries'⟩ := nd'
  simp only [encodeNodeData, startNode, List.append_assoc, List.append_cancel_left_eq] at heq
  obtain ⟨rfl, rfl⟩ := entries_finishNode_inj h h' (putHead_append_inj heq)
  rfl

/-! ### Compressed keys -/

theorem compress_length (prev : Key) (es : List (Key × Cid × Option Cid)) :
  (compress prev es).length = es.length
  := by
  induction es generalizing prev with
  | nil => rfl
  | cons e es ih => rw [compress, List.length_cons, List.length_cons, ih]

/-- The entries of valid keys are not too long to be decoded. -/
theorem compress_fits {es : List (Key × Cid × Option Cid)} (h : ∀ e ∈ es, isValidKey e.1 = true) :
  ∀ prev : Key, prev.length ≤ maxKeyLen → ∀ e ∈ compress prev es, e.Fits
  := by
  induction es with
  | nil => simp [compress]
  | cons e es ih =>
      intro prev hprev x hx
      have hkey := length_le_of_isValidKey (h e List.mem_cons_self)
      rw [compress, List.mem_cons] at hx
      rcases hx with rfl | hx
      · constructor
        · apply (sharedPrefixLen_le_left prev e.1).trans hprev
        · apply le_trans _ hkey
          rw [List.length_drop]
          omega
      · apply ih (fun y hy => h y (List.mem_cons_of_mem e hy)) e.1 hkey x hx

end Shrike.Mst
