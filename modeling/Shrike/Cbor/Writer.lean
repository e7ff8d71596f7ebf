import Shrike.Cbor.JsonRoundTrip

/-!
# Writing DRISL to a buffer

The passes of the encoder over an output buffer, where what was written before something is rejected
stays behind, and the streaming encoder, which sorts the keys of a map before it writes them.
-/

namespace Shrike.Cbor

open Bytes Except

/-! ### Writers -/

/-- What is done to an output buffer, until something is rejected. -/
abbrev Writer := Bytes → Except Rejected Unit × Bytes

/-- Append some bytes. -/
def put (bs : Bytes) : Writer := fun buf => (.ok (), buf ++ bs)

/-- Stop. -/
def reject : Writer := fun buf => (.error {}, buf)

namespace Writer

/-- Go on if nothing was rejected. -/
def andThen (w w' : Writer) : Writer := fun buf =>
  match w buf with
  | (.ok (), buf) => w' buf
  | (.error e, buf) => (.error e, buf)

/-- One after the other. -/
def inTurn : List Writer → Writer
  | [] => put []
  | w :: ws => w.andThen (inTurn ws)

/-- What a writer appends, or that it stops after it appended something. -/
def Writes (w : Writer) : Except Rejected Bytes → Prop
  | .ok bs => ∀ buf, w buf = (.ok (), buf ++ bs)
  | .error _ => ∀ buf, ∃ part, w buf = (.error {}, buf ++ part)

theorem put_writes (bs : Bytes) :
  Writes (put bs) (.ok bs)
  := fun _ => rfl

theorem reject_writes (e : Rejected) :
  Writes reject (.error e)
  := fun buf => ⟨[], by rw [reject, List.append_nil]⟩

variable {w w' : Writer}

theorem Writes.andThen {bs bs' : Bytes} (h : w.Writes (.ok bs)) (h' : w'.Writes (.ok bs')) :
  (w.andThen w').Writes (.ok (bs ++ bs'))
  := by
  intro buf
  rw [Writer.andThen, h buf]
  dsimp only
  rw [h' (buf ++ bs), List.append_assoc]

theorem Writes.andThen_error {bs : Bytes} {e : Rejected} (h : w.Writes (.ok bs))
    (h' : w'.Writes (.error e)) :
  (w.andThen w').Writes (.error e)
  := by
  intro buf
  obtain ⟨part, hpart⟩ := h' (buf ++ bs)
  rw [Writer.andThen, h buf]
  exact ⟨bs ++ part, by rw [← List.append_assoc]; exact hpart⟩

theorem Writes.error_andThen {e : Rejected} (h : w.Writes (.error e)) :
  (w.andThen w').Writes (.error e)
  := by
  intro buf
  obtain ⟨part, hpart⟩ := h buf
  rw [Writer.andThen, hpart]
  exact ⟨part, rfl⟩

/-- What is appended one after the other. -/
theorem inTurn_writes {α : Type} {l : List α} {w : α → Writer} {bs : α → Bytes}
    (h : ∀ a ∈ l, (w a).Writes (.ok (bs a))) :
  (inTurn (l.map w)).Writes (.ok (l.flatMap bs))
  := by
  induction l with
  | nil => exact put_writes []
  | cons a l ih =>
      rw [List.map_cons, inTurn, List.flatMap_cons]
      exact (h a List.mem_cons_self).andThen
        (ih fun b hb => h b (List.mem_cons_of_mem a hb))

end Writer

open Writer

/-! ### The passes over the buffer -/

mutual

/-- One pass over a value, that sorts maps or takes them as they are. -/
def writeItemTo (sort : Bool) : Value → Writer
  | .unsigned n => put (putHead 0 n)
  | .signed i => if 0 ≤ i then put (putHead 0 i.toNat) else put (putHead 1 (-1 - i).toNat)
  | .float bits =>
      if isFinite bits then (put [0xfb]).andThen (put (Bytes.be 8 bits)) else reject
  | .bool b => put [if b then 0xf5 else 0xf4]
  | .null => put [0xf6]
  | .text s => (put (putHead 3 s.length)).andThen (put s)
  | .bytes b => (put (putHead 2 b.length)).andThen (put b)
  | .cid c => put (putCid c)
  | .array items => (put (putHead 4 items.length)).andThen (writeItemsTo sort items)
  | .map entries => (put (putHead 5 entries.length)).andThen
      (if sort = true ∧ ¬entries.IsChain (fun a b => cborKeyCmp a.1 b.1 = .lt) then
        inTurn (((entryWriters sort entries).insertionSort (fun a b => cborKeyCmp a.1 b.1 ≠ .gt)).map
          fun e => (put (putText e.1)).andThen e.2)
      else writeEntriesTo sort none entries)

/-- One pass over the items of an array. -/
def writeItemsTo (sort : Bool) : List Value → Writer
  | [] => put []
  | v :: vs => (writeItemTo sort v).andThen (writeItemsTo sort vs)

/-- One pass over the entries of a map as they are. Only the pass that does not sort looks at the
key before. -/
def writeEntriesTo (sort : Bool) : Option Bytes → List (Bytes × Value) → Writer
  | _, [] => put []
  | prev, (key, v) :: entries =>
      if sort = false ∧ prev.any (fun p => cborKeyCmp p key ≠ .lt) then reject
      else (put (putText key)).andThen
        ((writeItemTo sort v).andThen (writeEntriesTo sort (some key) entries))

/-- The entries of a map with the passes over their values. -/
def entryWriters (sort : Bool) : List (Bytes × Value) → List (Bytes × Writer)
  | [] => []
  | (key, v) :: entries => (key, writeItemTo sort v) :: entryWriters sort entries

end

/-- Append a value to a buffer: by the pass that takes maps as they are, and if that stops, from
where it began, by the pass that sorts them. -/
def writeValue (v : Value) : Writer := fun buf =>
  match writeItemTo false v buf with
  | (.ok (), out) => (.ok (), out)
  | (.error _, out) => writeItemTo true v (out.take buf.length)

/-! ### The streaming encoder -/

/-- A head, in the fewest bytes. -/
def writeTypeValue (major value : ℕ) : Writer :=
  if value < 24 then put [UInt8.ofNat (major * 32 + value)]
  else if value ≤ 255 then put (UInt8.ofNat (major * 32 + 24) :: Bytes.be 1 value)
  else if value ≤ 65535 then put (UInt8.ofNat (major * 32 + 25) :: Bytes.be 2 value)
  else if value ≤ 4294967295 then put (UInt8.ofNat (major * 32 + 26) :: Bytes.be 4 value)
  else put (UInt8.ofNat (major * 32 + 27) :: Bytes.be 8 value)

def encodeU64 (n : ℕ) : Writer := writeTypeValue 0 n

def encodeI64 (i : ℤ) : Writer :=
  if 0 ≤ i then writeTypeValue 0 i.toNat else writeTypeValue 1 (-1 - i).toNat

def encodeBool (b : Bool) : Writer := put [if b then 0xf5 else 0xf4]

def encodeNull : Writer := put [0xf6]

def encodeF64 (bits : ℕ) : Writer :=
  if isFinite bits then put (0xfb :: Bytes.be 8 bits) else reject

def encodeText (s : Bytes) : Writer := (writeTypeValue 3 s.length).andThen (put s)

def encodeBytes (b : Bytes) : Writer := (writeTypeValue 2 b.length).andThen (put b)

def encodeArrayHeader (len : ℕ) : Writer := writeTypeValue 4 len

def encodeMapHeader (len : ℕ) : Writer := writeTypeValue 5 len

def encodeCid (c : Cid) : Writer := put (putCid c)

/-- Sort keys and write them as a map, with a value for each. -/
def encodeTextMap (keys : List Bytes) (encodeValue : Bytes → Writer) : Writer :=
  let sorted := keys.insertionSort (fun a b => cborKeyCmp a b ≠ .gt)
  (encodeMapHeader sorted.length).andThen
    (inTurn (sorted.map fun key => (encodeText key).andThen (encodeValue key)))

mutual

/-- Write a value with the streaming encoder. -/
def streamValue : Value → Writer
  | .unsigned n => encodeU64 n
  | .signed i => encodeI64 i
  | .float bits => encodeF64 bits
  | .bool b => encodeBool b
  | .null => encodeNull
  | .text s => encodeText s
  | .bytes b => encodeBytes b
  | .cid c => encodeCid c
  | .array items => (encodeArrayHeader items.length).andThen (inTurn (streamItems items))
  | .map entries =>
      let values := streamEntries entries
      encodeTextMap (entries.map Prod.fst) fun key =>
        ((values.find? fun e => e.1 = key).map Prod.snd).getD (put [])

/-- The items of an array, each written with the streaming encoder. -/
def streamItems : List Value → List Writer
  | [] => []
  | v :: vs => streamValue v :: streamItems vs

/-- The keys of a map, with their values written with the streaming encoder. -/
def streamEntries : List (Bytes × Value) → List (Bytes × Writer)
  | [] => []
  | (key, v) :: entries => (key, streamValue v) :: streamEntries entries

end

/-! ### Values that can be encoded and read back -/

mutual

/-- What the encoding keeps of a value: maps have their keys in order, and an integer that is not
negative is unsigned. -/
def Value.normal : Value → Value
  | .signed i => if 0 ≤ i then .unsigned i.toNat else .signed i
  | .array items => .array (normalItems items)
  | .map entries =>
      .map ((normalEntries entries).insertionSort (fun a b => cborKeyCmp a.1 b.1 ≠ .gt))
  | v => v

def normalItems : List Value → List Value
  | [] => []
  | v :: vs => v.normal :: normalItems vs

def normalEntries : List (Bytes × Value) → List (Bytes × Value)
  | [] => []
  | (key, v) :: entries => (key, v.normal) :: normalEntries entries

end

mutual

/-- How deep arrays and maps are nested in a value. -/
def Value.nesting : Value → ℕ
  | .array items => nestingItems items + 1
  | .map entries => nestingEntries entries + 1
  | _ => 0

def nestingItems : List Value → ℕ
  | [] => 0
  | v :: vs => max v.nesting (nestingItems vs)

def nestingEntries : List (Bytes × Value) → ℕ
  | [] => 0
  | (_, v) :: entries => max v.nesting (nestingEntries entries)

end

mutual

/-- A value with no duplicate keys, finite floats, and integers and lengths in range. That text and
keys are UTF-8 of a length that the address space holds, and integers are of 64 bits, is what every
value in memory is. -/
def Value.Encodable : Value → Prop
  | .unsigned n => n ≤ 2 ^ 63 - 1
  | .signed i => -(2 ^ 63) ≤ i ∧ i < 2 ^ 63
  | .float bits => bits < 2 ^ 64 ∧ isFinite bits = true
  | .bool _ => True
  | .null => True
  | .text s => IsText s
  | .bytes b => b.length < 2 ^ 64
  | .cid _ => True
  | .array items => items.length ≤ maxCollectionLen ∧ EncodableItems items
  | .map entries => entries.length ≤ maxCollectionLen ∧ (entries.map Prod.fst).Nodup ∧
      EncodableEntries entries

def EncodableItems : List Value → Prop
  | [] => True
  | v :: vs => v.Encodable ∧ EncodableItems vs

def EncodableEntries : List (Bytes × Value) → Prop
  | [] => True
  | (key, v) :: entries => IsText key ∧ v.Encodable ∧ EncodableEntries entries

end

/-! ### Lists of items and entries -/

theorem encodableItems_iff :
  ∀ {items : List Value}, EncodableItems items ↔ ∀ v ∈ items, v.Encodable
  | [] => by simp [EncodableItems]
  | v :: vs => by simp [EncodableItems, @encodableItems_iff vs]

theorem encodableEntries_iff :
  ∀ {entries : List (Bytes × Value)},
    EncodableEntries entries ↔ ∀ e ∈ entries, IsText e.1 ∧ e.2.Encodable
  | [] => by simp [EncodableEntries]
  | (key, v) :: entries => by simp [EncodableEntries, @encodableEntries_iff entries, and_assoc]

theorem normalItems_eq :
  ∀ (items : List Value), normalItems items = items.map Value.normal
  | [] => rfl
  | v :: vs => by rw [normalItems, normalItems_eq vs, List.map_cons]

theorem normalEntries_eq :
  ∀ (entries : List (Bytes × Value)),
    normalEntries entries = entries.map fun e => (e.1, e.2.normal)
  | [] => rfl
  | (key, v) :: entries => by rw [normalEntries, normalEntries_eq entries, List.map_cons]

theorem nesting_le_items :
  ∀ {items : List Value} {v : Value}, v ∈ items → v.nesting ≤ nestingItems items
  | w :: ws, v, h => by
      rw [nestingItems]
      rcases List.mem_cons.mp h with rfl | h
      · exact le_max_left ..
      · exact (nesting_le_items h).trans (le_max_right ..)

theorem nesting_le_entries :
  ∀ {entries : List (Bytes × Value)} {e : Bytes × Value},
    e ∈ entries → e.2.nesting ≤ nestingEntries entries
  | (key, w) :: ws, e, h => by
      rw [nestingEntries]
      rcases List.mem_cons.mp h with rfl | h
      · exact le_max_left ..
      · exact (nesting_le_entries h).trans (le_max_right ..)

theorem entryWriters_eq (sort : Bool) :
  ∀ (entries : List (Bytes × Value)),
    entryWriters sort entries = entries.map fun e => (e.1, writeItemTo sort e.2)
  | [] => rfl
  | (key, v) :: entries => by rw [entryWriters, entryWriters_eq sort entries, List.map_cons]

theorem streamItems_eq :
  ∀ (items : List Value), streamItems items = items.map streamValue
  | [] => rfl
  | v :: vs => by rw [streamItems, streamItems_eq vs, List.map_cons]

theorem streamEntries_eq :
  ∀ (entries : List (Bytes × Value)),
    streamEntries entries = entries.map fun e => (e.1, streamValue e.2)
  | [] => rfl
  | (key, v) :: entries => by rw [streamEntries, streamEntries_eq entries, List.map_cons]

theorem writeTypeValue_eq (major value : ℕ) :
  writeTypeValue major value = put (putHead major value)
  := by
  rw [writeTypeValue, putHead]
  split_ifs <;> rfl

theorem writeTypeValue_writes (major value : ℕ) :
  (writeTypeValue major value).Writes (.ok (putHead major value))
  := by
  rw [writeTypeValue_eq]
  exact put_writes _

theorem encodeText_writes (s : Bytes) :
  (encodeText s).Writes (.ok (putText s))
  := (writeTypeValue_writes 3 s.length).andThen (put_writes s)

/-! ### The pass that takes maps as they are -/

theorem cborKeyCmp_ne_lt {a b : Bytes} :
  decide (cborKeyCmp a b ≠ .lt) = !keyLt a b
  := by
  by_cases h : keyLt a b = true
  · rw [h, cborKeyCmp_eq_lt.mpr h]
    rfl
  · rw [Bool.eq_false_iff.mpr h, decide_eq_true]
    · rfl
    · exact fun hlt => h (cborKeyCmp_eq_lt.mp hlt)

mutual

/-- Over the buffer, the pass that takes maps as they are appends the encoding, or stops. -/
theorem writeItemTo_writes :
  ∀ (v : Value), (writeItemTo false v).Writes (writeItem v)
  | .unsigned n => put_writes _
  | .signed i => by
      rw [writeItemTo, writeItem]
      split_ifs
      · exact put_writes _
      · exact put_writes _
  | .float bits => by
      rw [writeItemTo, writeItem]
      split_ifs
      · exact (put_writes _).andThen (put_writes _)
      · exact reject_writes _
  | .bool b => put_writes _
  | .null => put_writes _
  | .text s => (put_writes _).andThen (put_writes _)
  | .bytes b => (put_writes _).andThen (put_writes _)
  | .cid c => put_writes _
  | .array items => by
      have hitems := writeItemsTo_writes items
      rw [writeItemTo, writeItem]
      cases h : writeItems items with
      | error e =>
          rw [h] at hitems
          exact (put_writes _).andThen_error hitems
      | ok body =>
          rw [h] at hitems
          exact (put_writes _).andThen hitems
  | .map entries => by
      have hentries := writeEntriesTo_writes none entries
      rw [writeItemTo, writeItem, if_neg (fun h => Bool.false_ne_true h.1)]
      cases h : writeEntries none entries with
      | error e =>
          rw [h] at hentries
          exact (put_writes _).andThen_error hentries
      | ok body =>
          rw [h] at hentries
          exact (put_writes _).andThen hentries

theorem writeItemsTo_writes :
  ∀ (items : List Value), (writeItemsTo false items).Writes (writeItems items)
  | [] => put_writes []
  | v :: vs => by
      have hv := writeItemTo_writes v
      have hvs := writeItemsTo_writes vs
      rw [writeItemsTo, writeItems]
      cases h : writeItem v with
      | error e =>
          rw [h] at hv
          exact hv.error_andThen
      | ok head =>
          rw [h] at hv
          cases h' : writeItems vs with
          | error e =>
              rw [h'] at hvs
              exact hv.andThen_error hvs
          | ok rest =>
              rw [h'] at hvs
              exact hv.andThen hvs

theorem writeEntriesTo_writes :
  ∀ (prev : Option Bytes) (entries : List (Bytes × Value)),
    (writeEntriesTo false prev entries).Writes (writeEntries prev entries)
  | _, [] => put_writes []
  | prev, (key, v) :: entries => by
      have hv := writeItemTo_writes v
      have hrest := writeEntriesTo_writes (some key) entries
      rw [writeEntriesTo, writeEntries]
      have hany : prev.any (fun p => cborKeyCmp p key ≠ .lt) = prev.any fun p => !keyLt p key := by
        congr 1
        funext p
        exact cborKeyCmp_ne_lt
      rw [hany]
      by_cases horder : (prev.any fun p => !keyLt p key) = true
      · rw [if_pos ⟨rfl, horder⟩, if_pos horder]
        exact reject_writes _
      · rw [if_neg (fun h => horder h.2), if_neg horder]
        cases h : writeItem v with
        | error e =>
            rw [h] at hv
            exact (put_writes _).andThen_error hv.error_andThen
        | ok head =>
            rw [h] at hv
            cases h' : writeEntries (some key) entries with
            | error e =>
                rw [h'] at hrest
                exact (put_writes _).andThen_error (hv.andThen_error hrest)
            | ok rest =>
                rw [h'] at hrest
                have hall := (put_writes (putText key)).andThen (hv.andThen hrest)
                rw [← List.append_assoc] at hall
                exact hall

end

/-! ### The passes agree -/

mutual

/-- What the pass that takes maps as they are accepts, the pass that sorts them encodes alike. -/
theorem writeItemSorted_of_writeItem :
  ∀ {v : Value} {bs : Bytes}, writeItem v = .ok bs → writeItemSorted v = .ok bs
  | .unsigned n, _, h => h
  | .signed i, _, h => h
  | .float bits, _, h => h
  | .bool b, _, h => h
  | .null, _, h => h
  | .text s, _, h => h
  | .bytes b, _, h => h
  | .cid c, _, h => h
  | .array items, bs, h => by
      rw [writeItem] at h
      obtain ⟨body, hbody, h⟩ := bind_eq_ok.mp h
      rw [writeItemSorted, writeItemsSorted_of_writeItems hbody]
      exact h
  | .map entries, bs, h => by
      rw [writeItem] at h
      obtain ⟨body, hbody, h⟩ := bind_eq_ok.mp h
      obtain ⟨parts, hparts, hjoin, hchain⟩ := writeEntriesSorted_of_writeEntries hbody
      rw [writeItemSorted, hparts, ok_bind, if_pos, hjoin]
      · exact h
      · exact hchain.2

theorem writeItemsSorted_of_writeItems :
  ∀ {items : List Value} {bs : Bytes}, writeItems items = .ok bs → writeItemsSorted items = .ok bs
  | [], _, h => h
  | v :: vs, bs, h => by
      rw [writeItems] at h
      obtain ⟨head, hhead, h⟩ := bind_eq_ok.mp h
      obtain ⟨rest, hrest, h⟩ := bind_eq_ok.mp h
      rw [writeItemsSorted, writeItemSorted_of_writeItem hhead, ok_bind,
        writeItemsSorted_of_writeItems hrest]
      exact h

theorem writeEntriesSorted_of_writeEntries :
  ∀ {prev : Option Bytes} {entries : List (Bytes × Value)} {bs : Bytes},
    writeEntries prev entries = .ok bs → ∃ parts, writeEntriesSorted entries = .ok parts ∧
      joinEntries parts = bs ∧
        ((∀ e ∈ entries.head?, ∀ p ∈ prev, cborKeyCmp p e.1 = .lt) ∧
          entries.IsChain fun a b => cborKeyCmp a.1 b.1 = .lt)
  | _, [], bs, h => by
      cases h
      exact ⟨[], rfl, rfl, by simp, .nil⟩
  | prev, (key, v) :: entries, bs, h => by
      rw [writeEntries] at h
      split at h
      · cases h
      rename_i horder
      obtain ⟨head, hhead, h⟩ := bind_eq_ok.mp h
      obtain ⟨rest, hrest, h⟩ := bind_eq_ok.mp h
      obtain ⟨parts, hparts, hjoin, hfirst, hchain⟩ := writeEntriesSorted_of_writeEntries hrest
      refine ⟨(key, head) :: parts, ?_, ?_, ?_, ?_⟩
      · rw [writeEntriesSorted, writeItemSorted_of_writeItem hhead, ok_bind, hparts]
        rfl
      · cases h
        rw [joinEntries, List.flatMap_cons, ← hjoin]
        rfl
      · rintro e he p hp
        cases he
        rw [Option.mem_def.mp hp] at horder
        rw [cborKeyCmp_eq_lt]
        simpa using horder
      · apply List.isChain_cons.mpr
        exact ⟨fun e he => hfirst e he key rfl, hchain⟩

end

end Shrike.Cbor
