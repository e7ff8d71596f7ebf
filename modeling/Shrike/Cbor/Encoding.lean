import Shrike.Cbor.Writer

/-!
# Encoding values that can be read back

The bytes of an encodable value, which every pass and the streaming encoder write, and from which
its normal form is decoded.
-/

namespace Shrike.Cbor

open Bytes Except Writer

/-! ### The bytes of a value -/

mutual

/-- The encoding of a value, the entries of its maps in the order of their keys. -/
def Value.encoding : Value → Bytes
  | .unsigned n => putHead 0 n
  | .signed i => if 0 ≤ i then putHead 0 i.toNat else putHead 1 (-1 - i).toNat
  | .float bits => 0xfb :: Bytes.be 8 bits
  | .bool b => [if b then 0xf5 else 0xf4]
  | .null => [0xf6]
  | .text s => putText s
  | .bytes b => putBytes b
  | .cid c => putCid c
  | .array items => putHead 4 items.length ++ (itemEncodings items).flatten
  | .map entries => putHead 5 entries.length ++ joinEntries (sortEntries (entryEncodings entries))

/-- The encodings of the items of an array. -/
def itemEncodings : List Value → List Bytes
  | [] => []
  | v :: vs => v.encoding :: itemEncodings vs

/-- The keys of a map with the encodings of their values. -/
def entryEncodings : List (Bytes × Value) → List (Bytes × Bytes)
  | [] => []
  | (key, v) :: entries => (key, v.encoding) :: entryEncodings entries

end

theorem itemEncodings_eq (items : List Value) :
  itemEncodings items = items.map Value.encoding
  := by
  induction items with
  | nil => rfl
  | cons v vs ih => rw [itemEncodings, ih, List.map_cons]

theorem entryEncodings_eq :
  ∀ (entries : List (Bytes × Value)),
    entryEncodings entries = entries.map fun e => (e.1, e.2.encoding)
  | [] => rfl
  | (key, v) :: entries => by rw [entryEncodings, entryEncodings_eq entries, List.map_cons]

/-! ### Sorting entries -/

/-- The entries of a map in the order of their keys. -/
def inKeyOrder {α : Type} (entries : List (Bytes × α)) : List (Bytes × α) :=
  entries.insertionSort (fun a b => cborKeyCmp a.1 b.1 ≠ .gt)

theorem inKeyOrder_perm {α : Type} (entries : List (Bytes × α)) :
  (inKeyOrder entries).Perm entries
  := List.perm_insertionSort _ _

/-- Sorting looks at the keys only. -/
theorem inKeyOrder_map {α β : Type} (f : α → β) (entries : List (Bytes × α)) :
  inKeyOrder (entries.map fun e => (e.1, f e.2)) = (inKeyOrder entries).map fun e => (e.1, f e.2)
  := by
  symm
  apply List.map_insertionSort
  exact fun _ _ _ _ => Iff.rfl

theorem inKeyOrder_keys {α : Type} (entries : List (Bytes × α)) :
  (entries.map Prod.fst).insertionSort (fun a b => cborKeyCmp a b ≠ .gt)
    = (inKeyOrder entries).map Prod.fst
  := by
  symm
  apply List.map_insertionSort
  exact fun _ _ _ _ => Iff.rfl

/-- Sorting leaves entries that are in order as they are. -/
theorem inKeyOrder_of_isChain {α : Type} {entries : List (Bytes × α)}
    (h : entries.IsChain fun a b => cborKeyCmp a.1 b.1 = .lt) :
  inKeyOrder entries = entries
  := by
  have htrans : IsTrans (Bytes × α) fun a b => cborKeyCmp a.1 b.1 = .lt :=
    ⟨fun a b c hab hbc => by
      rw [cborKeyCmp_eq_lt, keyLt_iff] at *
      exact hab.trans hbc⟩
  apply List.Pairwise.insertionSort_eq
  apply h.pairwise.imp
  intro a b hlt
  rw [hlt]
  exact Ordering.noConfusion

theorem joinEntries_map {α : Type} (f : α → Bytes) (entries : List (Bytes × α)) :
  joinEntries (entries.map fun e => (e.1, f e.2)) = entries.flatMap fun e => putText e.1 ++ f e.2
  := by rw [joinEntries, List.flatMap_map]

/-- The encodings of the entries of a map, one after the other in the order of their keys. -/
theorem joinEntries_sortEntries (entries : List (Bytes × Value)) :
  joinEntries (sortEntries (entryEncodings entries))
    = (inKeyOrder entries).flatMap fun e => putText e.1 ++ e.2.encoding
  := by
  rw [entryEncodings_eq, ← joinEntries_map]
  congr 1
  apply inKeyOrder_map

/-! ### The pass that sorts maps -/

mutual

theorem writeItemSorted_encoding :
  ∀ {v : Value}, v.Encodable → writeItemSorted v = .ok v.encoding
  | .unsigned n, _ => rfl
  | .signed i, _ => rfl
  | .float bits, h => by
      rw [writeItemSorted, writeItem, if_pos h.2]
      · rfl
      all_goals intro _ heq; cases heq
  | .bool b, _ => rfl
  | .null, _ => rfl
  | .text s, _ => rfl
  | .bytes b, _ => rfl
  | .cid c, _ => rfl
  | .array items, h => by
      rw [writeItemSorted, writeItemsSorted_encoding h.2]
      rfl
  | .map entries, h => by
      rw [writeItemSorted, writeEntriesSorted_encoding h.2.2, ok_bind]
      split_ifs with hchain
      · have hsame : sortEntries (entryEncodings entries) = entryEncodings entries := by
          apply inKeyOrder_of_isChain
          rw [entryEncodings_eq]
          exact (List.isChain_map _).mpr hchain
        rw [Value.encoding, hsame]
      · rfl

theorem writeItemsSorted_encoding :
  ∀ {items : List Value}, EncodableItems items →
    writeItemsSorted items = .ok (itemEncodings items).flatten
  | [], _ => rfl
  | v :: vs, h => by
      rw [writeItemsSorted, writeItemSorted_encoding h.1, ok_bind, writeItemsSorted_encoding h.2]
      rfl

theorem writeEntriesSorted_encoding :
  ∀ {entries : List (Bytes × Value)}, EncodableEntries entries →
    writeEntriesSorted entries = .ok (entryEncodings entries)
  | [], _ => rfl
  | (key, v) :: entries, h => by
      rw [writeEntriesSorted, writeItemSorted_encoding h.2.1, ok_bind,
        writeEntriesSorted_encoding h.2.2]
      rfl

end

variable {v : Value} {bs buf out : Bytes}

/-- What the pass that takes maps as they are accepts has the same encoding. -/
theorem encoding_of_writeItem (h : v.Encodable) (hwrite : writeItem v = .ok bs) :
  bs = v.encoding
  := by
  have hsorted := writeItemSorted_of_writeItem hwrite
  rw [writeItemSorted_encoding h] at hsorted
  exact (Except.ok.inj hsorted).symm

/-- An encodable value is encoded. -/
theorem encodeValue_encoding (h : v.Encodable) :
  encodeValue v = .ok v.encoding
  := by
  rw [encodeValue]
  cases hwrite : writeItem v with
  | ok bs => rw [encoding_of_writeItem h hwrite]
  | error e => exact writeItemSorted_encoding h

/-! ### The normal form -/

theorem writeItems_of_forall {items : List Value} {f : Value → Value}
    (h : ∀ v ∈ items, writeItem (f v) = .ok v.encoding) :
  writeItems (items.map f) = .ok (itemEncodings items).flatten
  := by
  induction items with
  | nil => rfl
  | cons v vs ih =>
      rw [List.map_cons, writeItems, h v List.mem_cons_self, ok_bind,
        ih fun w hw => h w (List.mem_cons_of_mem v hw)]
      rfl

/-- Entries with their keys in order are written one after the other. -/
theorem writeEntries_of_pairwise {f : Value → Value} :
  ∀ {entries : List (Bytes × Value)} {p : Option Bytes},
    (∀ e ∈ entries, writeItem (f e.2) = .ok e.2.encoding) →
    entries.Pairwise (fun a b => keyLt a.1 b.1 = true) →
    (∀ key ∈ p, ∀ e ∈ entries.head?, keyLt key e.1 = true) →
    writeEntries p (entries.map fun e => (e.1, f e.2))
      = .ok (entries.flatMap fun e => putText e.1 ++ e.2.encoding)
  | [], _, _, _, _ => rfl
  | (key, v) :: entries, prev, hwrite, horder, hprev => by
      obtain ⟨hkey, horder⟩ := List.pairwise_cons.mp horder
      have hany : ¬prev.any (fun p => !keyLt p key) = true := by
        cases prev with
        | none => exact Bool.false_ne_true
        | some p => simp [hprev p rfl (key, v) rfl]
      have hrest := writeEntries_of_pairwise (p := some key)
        (fun e he => hwrite e (List.mem_cons_of_mem _ he)) horder
        (fun p hp e he => by
          cases hp
          exact hkey e (List.mem_of_mem_head? he))
      rw [List.map_cons, writeEntries, if_neg hany, hwrite (key, v) List.mem_cons_self, ok_bind,
        hrest]
      rfl

mutual

/-- The normal form of an encodable value is encoded by the pass that takes maps as they are. -/
theorem writeItem_normal :
  ∀ {v : Value}, v.Encodable → writeItem v.normal = .ok v.encoding
  | .unsigned n, _ => rfl
  | .signed i, _ => by
      rw [Value.normal, Value.encoding]
      split_ifs with hneg
      · rfl
      · rw [writeItem, if_neg hneg]
  | .float bits, h => by
      rw [Value.normal, writeItem, if_pos h.2]
      · rfl
      all_goals intro _ heq; cases heq
  | .bool b, _ => rfl
  | .null, _ => rfl
  | .text s, _ => rfl
  | .bytes b, _ => rfl
  | .cid c, _ => rfl
  | .array items, h => by
      rw [Value.normal, writeItem, normalItems_eq,
        writeItems_of_forall (writeItem_normalItems h.2), List.length_map]
      rfl
  | .map entries, h => by
      have hperm := inKeyOrder_perm entries
      have hsorted : (normalEntries entries).insertionSort (fun a b => cborKeyCmp a.1 b.1 ≠ .gt)
          = (inKeyOrder entries).map fun e => (e.1, e.2.normal) := by
        rw [normalEntries_eq]
        apply inKeyOrder_map
      rw [Value.normal, hsorted, writeItem,
        writeEntries_of_pairwise
          (fun e he => writeItem_normalEntries h.2.2 e (hperm.mem_iff.mp he))
          (sorted_keyLt h.2.1) (fun p hp => by cases hp),
        List.length_map, hperm.length_eq, Value.encoding, joinEntries_sortEntries]
      rfl

theorem writeItem_normalItems :
  ∀ {items : List Value}, EncodableItems items →
    ∀ v ∈ items, writeItem v.normal = .ok v.encoding
  | w :: ws, h, v, hv => by
      rcases List.mem_cons.mp hv with heq | hv
      · rw [heq]
        exact writeItem_normal h.1
      · exact writeItem_normalItems h.2 v hv

theorem writeItem_normalEntries :
  ∀ {entries : List (Bytes × Value)}, EncodableEntries entries →
    ∀ e ∈ entries, writeItem e.2.normal = .ok e.2.encoding
  | (key, w) :: ws, h, e, he => by
      rcases List.mem_cons.mp he with heq | he
      · rw [heq]
        exact writeItem_normal h.2.1
      · exact writeItem_normalEntries h.2.2 e he

end

/-- The normal form of an encodable value that is nested within the budget fits it. -/
theorem fits_normal :
  ∀ {budget : ℕ} {v : Value}, v.Encodable → v.nesting < budget → v.normal.Fits budget
  | _ + 1, .unsigned n, h, _ => h
  | _ + 1, .signed i, h, _ => by
      obtain ⟨hlow, hhigh⟩ : -(2 ^ 63) ≤ i ∧ i < 2 ^ 63 := h
      rw [Value.normal]
      split_ifs with hneg
      · show i.toNat ≤ 2 ^ 63 - 1
        omega
      · exact ⟨by omega, hlow⟩
  | _ + 1, .float bits, h, _ => h.1
  | _ + 1, .bool b, _, _ => trivial
  | _ + 1, .null, _, _ => trivial
  | _ + 1, .text s, h, _ => h
  | _ + 1, .bytes b, h, _ => h
  | _ + 1, .cid c, _, _ => trivial
  | budget + 1, .array items, ⟨hlen, hitems⟩, hnest => by
      rw [Value.nesting] at hnest
      rw [Value.normal, normalItems_eq]
      refine ⟨by rwa [List.length_map], ?_⟩
      intro w hw
      obtain ⟨v, hv, rfl⟩ := List.mem_map.mp hw
      have hle := nesting_le_items hv
      exact fits_normal (encodableItems_iff.mp hitems v hv) (by omega)
  | budget + 1, .map entries, ⟨hlen, _, hentries⟩, hnest => by
      rw [Value.nesting] at hnest
      rw [Value.normal, normalEntries_eq]
      refine ⟨by rwa [List.length_insertionSort, List.length_map], ?_⟩
      intro w hw
      obtain ⟨e, he, rfl⟩ := List.mem_map.mp ((List.mem_insertionSort _).mp hw)
      obtain ⟨hkey, hvalue⟩ := encodableEntries_iff.mp hentries e he
      have hle := nesting_le_entries he
      exact ⟨hkey, fits_normal hvalue (by omega)⟩

/-! ### The pass that sorts maps, over the buffer -/

mutual

theorem writeItemTo_encoding :
  ∀ {v : Value}, v.Encodable → (writeItemTo true v).Writes (.ok v.encoding)
  | .unsigned n, _ => put_writes _
  | .signed i, _ => by
      rw [writeItemTo, Value.encoding]
      split_ifs
      · exact put_writes _
      · exact put_writes _
  | .float bits, h => by
      rw [writeItemTo, if_pos h.2]
      exact (put_writes _).andThen (put_writes _)
  | .bool b, _ => put_writes _
  | .null, _ => put_writes _
  | .text s, _ => (put_writes _).andThen (put_writes _)
  | .bytes b, _ => (put_writes _).andThen (put_writes _)
  | .cid c, _ => put_writes _
  | .array items, h => (put_writes _).andThen (writeItemsTo_encoding h.2)
  | .map entries, h => by
      have hentries := writeEntriesTo_encoding h.2.2
      rw [writeItemTo, Value.encoding, joinEntries_sortEntries]
      apply (put_writes _).andThen
      split_ifs with hchain
      · have hsorted : (entryWriters true entries).insertionSort
            (fun a b => cborKeyCmp a.1 b.1 ≠ .gt)
            = (inKeyOrder entries).map fun e => (e.1, writeItemTo true e.2) := by
          rw [entryWriters_eq]
          apply inKeyOrder_map
        rw [hsorted, List.map_map]
        apply inTurn_writes
        intro e he
        exact (put_writes _).andThen (hentries.2 e ((inKeyOrder_perm entries).mem_iff.mp he))
      · rw [not_and, not_not] at hchain
        rw [inKeyOrder_of_isChain (hchain rfl)]
        exact hentries.1 none

theorem writeItemsTo_encoding :
  ∀ {items : List Value}, EncodableItems items →
    (writeItemsTo true items).Writes (.ok (itemEncodings items).flatten)
  | [], _ => put_writes []
  | _ :: _, h => (writeItemTo_encoding h.1).andThen (writeItemsTo_encoding h.2)

theorem writeEntriesTo_encoding :
  ∀ {entries : List (Bytes × Value)}, EncodableEntries entries →
    (∀ prev, (writeEntriesTo true prev entries).Writes
      (.ok (entries.flatMap fun e => putText e.1 ++ e.2.encoding)))
    ∧ ∀ e ∈ entries, (writeItemTo true e.2).Writes (.ok e.2.encoding)
  | [], _ => ⟨fun _ => put_writes [], fun e he => by cases he⟩
  | (key, v) :: entries, h => by
      have hv := writeItemTo_encoding h.2.1
      have hentries := writeEntriesTo_encoding h.2.2
      constructor
      · intro prev
        rw [writeEntriesTo, if_neg fun h => Bool.false_ne_true h.1.symm, List.flatMap_cons,
          List.append_assoc]
        exact (put_writes _).andThen (hv.andThen (hentries.1 (some key)))
      · intro e he
        rcases List.mem_cons.mp he with rfl | he
        · exact hv
        · exact hentries.2 e he

end

/-! ### The streaming encoder -/

/-- An entry of a map without duplicate keys is found by its key. -/
theorem find?_key {α : Type} {entries : List (Bytes × α)} {e : Bytes × α}
    (hnodup : (entries.map Prod.fst).Nodup) (he : e ∈ entries) :
  entries.find? (fun f => f.1 = e.1) = some e
  := by
  induction entries with
  | nil => cases he
  | cons f entries ih =>
      obtain ⟨hnot, hnodup⟩ := List.nodup_cons.mp hnodup
      rw [List.find?_cons]
      rcases List.mem_cons.mp he with rfl | he
      · rw [decide_eq_true rfl]
      · have hne : f.1 ≠ e.1 := fun heq => hnot (List.mem_map.mpr ⟨e, he, heq.symm⟩)
        rw [decide_eq_false hne]
        exact ih hnodup he

mutual

theorem streamValue_encoding :
  ∀ {v : Value}, v.Encodable → (streamValue v).Writes (.ok v.encoding)
  | .unsigned n, _ => writeTypeValue_writes 0 n
  | .signed i, _ => by
      rw [streamValue, encodeI64, Value.encoding]
      split_ifs
      · exact writeTypeValue_writes _ _
      · exact writeTypeValue_writes _ _
  | .float bits, h => by
      rw [streamValue, encodeF64, if_pos h.2]
      exact put_writes _
  | .bool b, _ => put_writes _
  | .null, _ => put_writes _
  | .text s, _ => encodeText_writes s
  | .bytes b, _ => (writeTypeValue_writes _ _).andThen (put_writes _)
  | .cid c, _ => put_writes _
  | .array items, h => by
      have hitems := @inTurn_writes _ items streamValue Value.encoding (streamItems_encoding h.2)
      rw [streamValue, streamItems_eq, Value.encoding, itemEncodings_eq, ← List.flatMap_def]
      exact (writeTypeValue_writes _ _).andThen hitems
  | .map entries, h => by
      have hperm := inKeyOrder_perm entries
      rw [streamValue, encodeTextMap, inKeyOrder_keys, List.length_map, hperm.length_eq,
        List.map_map, Value.encoding, joinEntries_sortEntries]
      apply (writeTypeValue_writes _ _).andThen
      apply inTurn_writes
      intro e he
      have hmem := hperm.mem_iff.mp he
      have hfind := find?_key h.2.1 hmem
      have hvalue := streamEntries_encoding h.2.2 e hmem
      apply ((writeTypeValue_writes _ _).andThen (put_writes _)).andThen
      rw [streamEntries_eq, List.find?_map]
      simp only [Function.comp_def, hfind, Option.map_some, Option.getD_some]
      exact hvalue

theorem streamItems_encoding :
  ∀ {items : List Value}, EncodableItems items →
    ∀ v ∈ items, (streamValue v).Writes (.ok v.encoding)
  | w :: ws, h, v, hv => by
      rcases List.mem_cons.mp hv with heq | hv
      · rw [heq]
        exact streamValue_encoding h.1
      · exact streamItems_encoding h.2 v hv

theorem streamEntries_encoding :
  ∀ {entries : List (Bytes × Value)}, EncodableEntries entries →
    ∀ e ∈ entries, (streamValue e.2).Writes (.ok e.2.encoding)
  | (key, w) :: ws, h, e, he => by
      rcases List.mem_cons.mp he with heq | he
      · rw [heq]
        exact streamValue_encoding h.2.1
      · exact streamEntries_encoding h.2.2 e he

end

/-! ### Encoding, then decoding -/

variable {e : Rejected}

/-- Whatever the first pass appended before it stopped, cutting the buffer to its length restores
it. -/
theorem writeItemTo_truncate (v : Value) (h : writeItemTo false v buf = (.error e, out)) :
  out.take buf.length = buf
  := by
  have hwrites := writeItemTo_writes v
  cases hwrite : writeItem v with
  | ok bs =>
      rw [hwrite] at hwrites
      rw [hwrites buf] at h
      cases h
  | error _ =>
      rw [hwrite] at hwrites
      obtain ⟨part, hpart⟩ := hwrites buf
      rw [hpart] at h
      cases h
      exact List.take_left

/-- After a first pass that was rejected, the pass that sorts maps begins with the buffer as it
was. -/
theorem writeValue_of_rejected (v : Value) (h : writeItemTo false v buf = (.error e, out)) :
  writeValue v buf = writeItemTo true v buf
  := by
  rw [writeValue, h]
  dsimp only
  rw [writeItemTo_truncate v h]

/-- What the pass that takes maps as they are appends, if it is not rejected. -/
theorem writeItemTo_unsorted (h : v.Encodable) (hout : writeItemTo false v buf = (.ok (), out)) :
  out = buf ++ v.encoding
  := by
  have hwrites := writeItemTo_writes v
  cases hwrite : writeItem v with
  | ok bs =>
      rw [hwrite] at hwrites
      rw [hwrites buf, encoding_of_writeItem h hwrite] at hout
      cases hout
      rfl
  | error _ =>
      rw [hwrite] at hwrites
      obtain ⟨part, hpart⟩ := hwrites buf
      rw [hpart] at hout
      cases hout

theorem writeValue_encoding (h : v.Encodable) :
  (writeValue v).Writes (.ok v.encoding)
  := by
  intro buf
  rcases hout : writeItemTo false v buf with ⟨⟨⟩ | ⟨⟩, out⟩
  · rw [writeValue_of_rejected v hout]
    exact writeItemTo_encoding h buf
  · rw [writeValue, hout, writeItemTo_unsorted h hout]

/-- An encodable value within the nesting limit is encoded, and decodes to its normal form. Both
passes and the streaming encoder append the same bytes to any buffer, and a first pass that is
rejected leaves nothing behind in it. -/
theorem encodeValue_decode {v : Value} (h : v.Encodable) (hnest : v.nesting < maxDepth) :
  ∃ bs, encodeValue v = .ok bs ∧ decode bs = .ok v.normal
    ∧ ∀ buf, writeValue v buf = (.ok (), buf ++ bs)
      ∧ (∀ out, writeItemTo false v buf = (.ok (), out) → out = buf ++ bs)
      ∧ (∀ e out, writeItemTo false v buf = (.error e, out) →
          out.take buf.length = buf ∧ writeValue v buf = writeItemTo true v buf)
      ∧ writeItemTo true v buf = (.ok (), buf ++ bs)
      ∧ streamValue v buf = (.ok (), buf ++ bs)
  := by
  use v.encoding, encodeValue_encoding h, decode_writeItem (fits_normal h hnest) (writeItem_normal h)
  intro buf
  refine ⟨writeValue_encoding h buf, fun _ => writeItemTo_unsorted h, ?_,
    writeItemTo_encoding h buf, streamValue_encoding h buf⟩
  intro e out hout
  exact ⟨writeItemTo_truncate v hout, writeValue_of_rejected v hout⟩

/-- A map with its keys in order, around one with its keys out of order. -/
def unordered : Value :=
  .map [(ascii "a", .signed 1),
    (ascii "bb", .array [.map [(ascii "d", .null), (ascii "c", .float 0)]])]

theorem unordered_decode :
  ∃ bs, encodeValue unordered = .ok bs
    ∧ decode bs = .ok (.map [(ascii "a", .unsigned 1),
        (ascii "bb", .array [.map [(ascii "c", .float 0), (ascii "d", .null)]])])
    ∧ streamValue unordered [0] = (.ok (), 0 :: bs)
  := by
  have htext : ∀ s ∈ ["a", "bb", "c", "d"], IsText (ascii s) := by
    intro s hs
    simp only [List.mem_cons, List.not_mem_nil, or_false] at hs
    rcases hs with rfl | rfl | rfl | rfl <;> exact ⟨by decide, by decide⟩
  have hinner : EncodableEntries [(ascii "d", .null), (ascii "c", .float 0)] :=
    ⟨htext _ (by simp), trivial, htext _ (by simp), ⟨by decide, by decide⟩, trivial⟩
  have h : unordered.Encodable :=
    ⟨by decide, by decide, htext _ (by simp), ⟨by decide, by decide⟩, htext _ (by simp),
      ⟨by decide, ⟨by decide, by decide, hinner⟩, trivial⟩, trivial⟩
  obtain ⟨bs, hencode, hdecode, hwrite⟩ := encodeValue_decode h (by decide)
  exact ⟨bs, hencode, hdecode, (hwrite [0]).2.2.2.2⟩

end Shrike.Cbor
