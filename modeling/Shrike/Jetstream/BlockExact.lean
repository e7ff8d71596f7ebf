import Shrike.Jetstream.BlockLayout

/-!
# Blocks are decoded exactly

What the decoder of blocks accepts is the layout of the rows that it returns, every layout of rows
is decoded into them, and no index or range of the decoder is out of bounds.
-/

namespace Shrike.Jetstream

open Bytes Except

section

variable {rows : List RawEvent}

/-! ### Visiting the rows of a layout -/

variable {checkedText : Option Str}

/-- A column of text has the bytes of its range, whether it is cut from the region that was
validated as a whole or not. -/
theorem column_of_hasAt {body b : Bytes} {collStart payloadStart start : ℕ}
    (hchecked : ∀ text ∈ checkedText, text.val = (body.take payloadStart).drop collStart)
    (h : body.HasAt start b) (hstart : collStart ≤ start)
    (hstop : start + b.length ≤ payloadStart) :
  ∃ col, BlockLayout.column body collStart checkedText start (start + b.length) = .ok col
    ∧ col.bytes = b
  := by
  rw [BlockLayout.column, if_neg (by omega)]
  split
  · rename_i text htext
    refine ⟨_, rfl, ?_⟩
    obtain ⟨whole, hwhole, hget⟩ := Option.bind_eq_some_iff.mp htext
    have hval := Str.val_get hget
    rw [hchecked whole hwhole, List.take_drop, List.take_take, List.drop_drop,
      Nat.add_sub_cancel' hstart, Nat.add_sub_cancel' (Nat.le_trans hstart (Nat.le_add_right _ _)),
      Nat.min_eq_left hstop, h.drop_take] at hval
    exact hval
  · rw [slice_of_hasAt h rfl]
    exact ⟨_, rfl, rfl⟩

/-- Where the rows after the first ones start in the regions. -/
def cursorsAt (rows done : List RawEvent) : BlockLayout.Cursors where
  c := (layoutWith rows.length (sumsOf rows)).collStart + (done.flatMap RawEvent.collection).length
  d := (layoutWith rows.length (sumsOf rows)).didStart + (done.flatMap RawEvent.did).length
  k := (layoutWith rows.length (sumsOf rows)).rkeyStart + (done.flatMap RawEvent.rkey).length
  v := (layoutWith rows.length (sumsOf rows)).revStart + (done.flatMap RawEvent.rev).length
  p := (layoutWith rows.length (sumsOf rows)).payloadStart + (done.flatMap RawEvent.payload).length

/-- The chunks of a row. -/
def RawEvent.chunks (row : RawEvent) : BlockLayout.Chunks :=
  ((((row.head.seq, row.head.witnessedAt), row.head.indexedAt), row.head.didLen),
    row.head.payloadLen)

/-- Where the five parts of a row stand in a layout. -/
theorem regions_of_row (done rest : List RawEvent) (row : RawEvent) :
  (layout (done ++ row :: rest)).HasAt (cursorsAt (done ++ row :: rest) done).c row.collection
    ∧ (layout (done ++ row :: rest)).HasAt (cursorsAt (done ++ row :: rest) done).d row.did
    ∧ (layout (done ++ row :: rest)).HasAt (cursorsAt (done ++ row :: rest) done).k row.rkey
    ∧ (layout (done ++ row :: rest)).HasAt (cursorsAt (done ++ row :: rest) done).v row.rev
    ∧ (layout (done ++ row :: rest)).HasAt (cursorsAt (done ++ row :: rest) done).p row.payload
  := by
  have hcoll := regions_hasAt (done ++ row :: rest)
  have hdid := hcoll.right
  have hrkey := hdid.right
  have hrev := hrkey.right
  have hpayload := hrev.right
  exact ⟨hcoll.left.flatMap, hdid.left.flatMap, hrkey.left.flatMap, hrev.left.flatMap,
    hpayload.flatMap⟩

/-- No region ends after the next one starts. -/
theorem cursors_le (done rest : List RawEvent) (row : RawEvent) :
  (cursorsAt (done ++ row :: rest) done).c + row.collection.length
      ≤ (layoutWith (done ++ row :: rest).length (sumsOf (done ++ row :: rest))).payloadStart
    ∧ (cursorsAt (done ++ row :: rest) done).d + row.did.length
      ≤ (layoutWith (done ++ row :: rest).length (sumsOf (done ++ row :: rest))).payloadStart
    ∧ (cursorsAt (done ++ row :: rest) done).k + row.rkey.length
      ≤ (layoutWith (done ++ row :: rest).length (sumsOf (done ++ row :: rest))).payloadStart
    ∧ (cursorsAt (done ++ row :: rest) done).v + row.rev.length
      ≤ (layoutWith (done ++ row :: rest).length (sumsOf (done ++ row :: rest))).payloadStart
  := by
  have hlen : ∀ f : RawEvent → Bytes, ((done ++ row :: rest).flatMap f).length
      = (done.flatMap f).length + ((f row).length + (rest.flatMap f).length) := by
    intro f
    rw [List.flatMap_append, List.flatMap_cons, List.length_append, List.length_append]
  have hcoll := hlen RawEvent.collection
  have hdid := hlen RawEvent.did
  have hrkey := hlen RawEvent.rkey
  have hrev := hlen RawEvent.rev
  simp only [cursorsAt, layoutWith, sumsOf]
  refine ⟨?_, ?_, ?_, ?_⟩ <;> omega

theorem fromLeBytes_le (x : UInt64) :
  BlockLayout.fromLeBytes (le 8 x.toNat) = x
  := by
  rw [BlockLayout.fromLeBytes, ofLe_le x.toNat_lt, UInt64.ofNat_toNat]

/-- A row of a layout is read, and the next one starts where it ends. -/
theorem readRow_layout (done rest : List RawEvent) {row : RawEvent}
    {n : ℕ} (hn : n = (done ++ row :: rest).length) (hfits : row.Fits)
    (hchecked : ∀ text ∈ checkedText, text.val
      = ((layout (done ++ row :: rest)).take
          (layoutWith n (sumsOf (done ++ row :: rest))).payloadStart).drop
            (layoutWith n (sumsOf (done ++ row :: rest))).collStart) :
  ∃ columns : Columns, columns.toRaw row.payload = row
    ∧ BlockLayout.readRow (layout (done ++ row :: rest)) (4 + 8 * n + 8 * n + 8 * n)
        (4 + 8 * n + 8 * n + 8 * n + n) (4 + 8 * n + 8 * n + 8 * n + n + n + 2 * n)
        (4 + 8 * n + 8 * n + 8 * n + n + n + 2 * n + n)
        (BlockLayout.column (layout (done ++ row :: rest))
          (layoutWith n (sumsOf (done ++ row :: rest))).collStart checkedText)
        done.length (cursorsAt (done ++ row :: rest) done) row.chunks
      = .ok (columns, row.payload, cursorsAt (done ++ row :: rest) (done ++ [row]))
  := by
  have hheads := headsAt_layout (done ++ row :: rest)
  have hi : ((done ++ row :: rest).map RawEvent.head)[done.length]? = some row.head := by simp
  obtain ⟨hcollAt, hdidAt, hrkeyAt, hrevAt, hpayloadAt⟩ := regions_of_row done rest row
  obtain ⟨hcollLe, hdidLe, hrkeyLe, hrevLe⟩ := cursors_le done rest row
  rw [← hn] at hheads hcollLe hdidLe hrkeyLe hrevLe
  obtain ⟨coll, hcoll, hcollBytes⟩ := column_of_hasAt hchecked hcollAt
    (by simp only [cursorsAt, layoutWith]; omega) hcollLe
  obtain ⟨did, hdid, hdidBytes⟩ := column_of_hasAt hchecked hdidAt
    (by simp only [cursorsAt, layoutWith]; omega) hdidLe
  obtain ⟨rkey, hrkey, hrkeyBytes⟩ := column_of_hasAt hchecked hrkeyAt
    (by simp only [cursorsAt, layoutWith]; omega) hrkeyLe
  obtain ⟨rev, hrev, hrevBytes⟩ := column_of_hasAt hchecked hrevAt
    (by simp only [cursorsAt, layoutWith]; omega) hrevLe
  refine ⟨{ seq := row.seq, witnessedAt := row.witnessedAt, indexedAt := row.indexedAt,
            kind := row.kind, collection := coll, did, rkey, rev }, ?_, ?_⟩
  · rw [Columns.toRaw, hcollBytes, hdidBytes, hrkeyBytes, hrevBytes]
  · have hkind := fromU8_asU8 row.kind
    have hnext : cursorsAt (done ++ row :: rest) (done ++ [row])
        = { c := (cursorsAt (done ++ row :: rest) done).c + row.collection.length
            d := (cursorsAt (done ++ row :: rest) done).d + row.did.length
            k := (cursorsAt (done ++ row :: rest) done).k + row.rkey.length
            v := (cursorsAt (done ++ row :: rest) done).v + row.rev.length
            p := (cursorsAt (done ++ row :: rest) done).p + row.payload.length } := by
      simp only [cursorsAt, List.flatMap_append, List.flatMap_singleton, List.length_append,
        Nat.add_assoc]
    rw [RawEvent.chunks, BlockLayout.readRow, byteAt_of_hasAt (hasAt_byteEntry hheads.collLen hi),
      byteAt_of_hasAt (hasAt_byteEntry hheads.rkeyLen hi),
      byteAt_of_hasAt (hasAt_byteEntry hheads.revLen hi),
      byteAt_of_hasAt (hasAt_byteEntry hheads.kind hi)]
    simp only [ok_bind, hfits.toNat_collLen, hfits.ofLe_didLen, hfits.toNat_rkeyLen,
      hfits.toNat_revLen, hfits.ofLe_payloadLen, hcoll, hdid, hrkey, hrev,
      slice_of_hasAt hpayloadAt rfl, hnext]
    rw [show row.head.kind = row.kind.asU8 from rfl, hkind]
    simp only [Except.mapError, ok_bind, RawEvent.head, fromLeBytes_le, Int64.toInt64_toUInt64]

/-- The rows of a layout from the first that is not read yet on are visited in order. -/
theorem visitRows_layout {n : ℕ} (rest done : List RawEvent)
    (hn : n = (done ++ rest).length) (hfits : ∀ row ∈ rest, row.Fits)
    (hchecked : ∀ text ∈ checkedText, text.val
      = ((layout (done ++ rest)).take (layoutWith n (sumsOf (done ++ rest))).payloadStart).drop
          (layoutWith n (sumsOf (done ++ rest))).collStart) :
  ∃ visited : List (Columns × Bytes), visited.map (fun e => e.1.toRaw e.2) = rest
    ∧ ∀ {σ : Type} (visit : ℕ → Columns → Bytes → σ → σ) (s : σ),
      BlockLayout.visitRows n
        (BlockLayout.readRow (layout (done ++ rest)) (4 + 8 * n + 8 * n + 8 * n)
          (4 + 8 * n + 8 * n + 8 * n + n) (4 + 8 * n + 8 * n + 8 * n + n + n + 2 * n)
          (4 + 8 * n + 8 * n + 8 * n + n + n + 2 * n + n)
          (BlockLayout.column (layout (done ++ rest))
            (layoutWith n (sumsOf (done ++ rest))).collStart checkedText))
        visit done.length (cursorsAt (done ++ rest) done) (rest.map RawEvent.chunks) s
      = (.ok (), visited.foldl (fun s e => visit n e.1 e.2 s) s)
  := by
  induction rest generalizing done with
  | nil => exact ⟨[], rfl, fun _ _ => rfl⟩
  | cons row rest ih =>
      rw [List.forall_mem_cons] at hfits
      obtain ⟨columns, hcolumns, hread⟩ := readRow_layout done rest hn hfits.1 hchecked
      have hassoc : done ++ row :: rest = (done ++ [row]) ++ rest := by simp
      rw [hassoc] at hn hchecked hread ⊢
      obtain ⟨visited, hvisited, hvisit⟩ := ih (done ++ [row]) hn hfits.2 hchecked
      refine ⟨(columns, row.payload) :: visited, ?_, ?_⟩
      · rw [List.map_cons, hcolumns, hvisited]
      · intro σ visit s
        rw [List.length_append, List.length_singleton] at hvisit
        rw [List.map_cons, BlockLayout.visitRows, hread]
        exact hvisit visit _

variable [SimdUtf8]

/-- The rows of a layout are visited in order, with the columns that they have. -/
theorem visit_layout (hfits : ∀ row ∈ rows, row.Fits) :
  ∃ visited : List (Columns × Bytes), visited.map (fun e => e.1.toRaw e.2) = rows
    ∧ ∀ {σ : Type} (visit : ℕ → Columns → Bytes → σ → σ) (s : σ),
      (layoutWith rows.length (sumsOf rows)).visit (layout rows) visit s
        = (.ok (), visited.foldl (fun s e => visit rows.length e.1 e.2 s) s)
  := by
  have hheads := headsAt_layout rows
  have hregions := regions_hasAt rows
  have hsums := length_regions rows
  have hseq := List.length_flatMap_of_forall _ fun head hh => (hheads.sized head hh).seq
  have hwit := List.length_flatMap_of_forall _ fun head hh => (hheads.sized head hh).witnessedAt
  have hidx := List.length_flatMap_of_forall _ fun head hh => (hheads.sized head hh).indexedAt
  have hdid := List.length_flatMap_of_forall _ fun head hh => (hheads.sized head hh).didLen
  have hpayload := List.length_flatMap_of_forall _ fun head hh => (hheads.sized head hh).payloadLen
  rw [hheads.length] at hseq hwit hidx hdid hpayload
  let text : Bytes := rows.flatMap RawEvent.collection ++ (rows.flatMap RawEvent.did
    ++ (rows.flatMap RawEvent.rkey ++ rows.flatMap RawEvent.rev))
  have htext : (layout rows).HasAt (layoutWith rows.length (sumsOf rows)).collStart text := by
    have hsplit : regions rows = text ++ rows.flatMap RawEvent.payload := by
      simp only [regions, text, List.append_assoc]
    rw [hsplit] at hregions
    exact hregions.left
  have hstop : (layoutWith rows.length (sumsOf rows)).payloadStart
      = (layoutWith rows.length (sumsOf rows)).collStart + text.length := by
    simp only [layoutWith, sumsOf, text, List.length_append]
    omega
  have hchecked : ∀ s ∈ SimdUtf8.fromUtf8 text, s.val
      = ((layout rows).take (layoutWith rows.length (sumsOf rows)).payloadStart).drop
          (layoutWith rows.length (sumsOf rows)).collStart := by
    intro s hs
    rw [SimdUtf8.val_fromUtf8 hs, hstop, htext.drop_take]
  obtain ⟨visited, hvisited, hvisit⟩ := visitRows_layout rows [] rfl hfits hchecked
  refine ⟨visited, hvisited, ?_⟩
  intro σ visit s
  rcases Nat.eq_zero_or_pos rows.length with hzero | hpos
  · rw [List.length_eq_zero_iff] at hzero
    subst hzero
    rw [List.map_eq_nil_iff] at hvisited
    rw [hvisited]
    rfl
  · have hzip : (((((rows.map RawEvent.head).map RowHead.seq).zip
          ((rows.map RawEvent.head).map RowHead.witnessedAt)).zip
          ((rows.map RawEvent.head).map RowHead.indexedAt)).zip
          ((rows.map RawEvent.head).map RowHead.didLen)).zip
          ((rows.map RawEvent.head).map RowHead.payloadLen)
        = rows.map RawEvent.chunks := by
      simp only [List.map_map, List.zip_map']
      rfl
    have hfixed : (layoutWith rows.length (sumsOf rows)).fixed = 4 + 34 * rows.length := rfl
    have hn : (layoutWith rows.length (sumsOf rows)).n = rows.length := rfl
    rw [BlockLayout.visit, hn, if_neg (Nat.ne_of_gt hpos)]
    dsimp only
    rw [slice_of_hasAt htext hstop, slice_of_hasAt hheads.seq (by rw [hseq]),
      slice_of_hasAt hheads.witnessedAt (by rw [hwit]),
      slice_of_hasAt hheads.indexedAt (by rw [hidx]),
      slice_of_hasAt hheads.didLen (by rw [hdid]),
      slice_of_hasAt hheads.payloadLen (by rw [hpayload, hfixed]; omega)]
    simp only [ok_bind]
    rw [List.asChunks_flatMap (by decide) _ fun head hh => (hheads.sized head hh).seq,
      List.asChunks_flatMap (by decide) _ fun head hh => (hheads.sized head hh).witnessedAt,
      List.asChunks_flatMap (by decide) _ fun head hh => (hheads.sized head hh).indexedAt,
      List.asChunks_flatMap (by decide) _ fun head hh => (hheads.sized head hh).didLen,
      List.asChunks_flatMap (by decide) _ fun head hh => (hheads.sized head hh).payloadLen, hzip]
    exact hvisit visit s

/-- The rows of a layout are decoded. -/
theorem decodeBlock_layout (hmax : rows.length ≤ maxBlockEvents) (hfits : ∀ row ∈ rows, row.Fits) :
  decodeBlock (layout rows) = .ok rows
  := by
  obtain ⟨visited, hvisited, hvisit⟩ := visit_layout hfits
  rw [decodeBlock, visitBlock, parse_layout hmax hfits]
  dsimp only
  rw [hvisit]
  have hpush : ∀ (l : List (Columns × Bytes)) (events : List RawEvent),
      l.foldl (fun events e => events ++ [e.1.toRaw e.2]) events
        = events ++ l.map fun e => e.1.toRaw e.2 := by
    intro l
    induction l with
    | nil => exact fun events => (List.append_nil events).symm
    | cons e l ih =>
        intro events
        rw [List.foldl_cons, ih, List.map_cons, List.append_assoc, List.singleton_append]
  dsimp only
  rw [hpush, List.nil_append, hvisited]

end

/-! ### Blocks are decoded exactly -/

/-- The text of a column is its bytes, if they are a text. -/
theorem TextColumn.text_eq (col : TextColumn) :
  col.text.map Subtype.val = if utf8 col.bytes = true then some col.bytes else none
  := by
  cases col with
  | checked s => rw [text, bytes, if_pos s.property, Option.map_some]
  | raw b =>
      rw [text, bytes, Str.fromUtf8]
      split_ifs with h
      · rw [Option.map_some]
      · rw [Option.map_none]

variable [SimdUtf8]

/-- Every byte string either is the layout of rows that fit, or it is rejected with an error. -/
theorem visitBlock_cases (body : Bytes) :
  (∃ e, BlockLayout.parse body = .error (.error e))
    ∨ ∃ rows : List RawEvent, rows.length ≤ maxBlockEvents ∧ (∀ row ∈ rows, row.Fits)
      ∧ layout rows = body ∧ decodeBlock body = .ok rows
      ∧ ∃ visited : List (Columns × Bytes), visited.map (fun e => e.1.toRaw e.2) = rows
        ∧ ∀ {σ : Type} (visit : ℕ → Columns → Bytes → σ → σ) (s : σ),
          visitBlock body visit s
            = (.ok (), visited.foldl (fun s e => visit rows.length e.1 e.2 s) s)
  := by
  rcases parse_cases body with herror | ⟨rows, hmax, hfits, rfl⟩
  · exact .inl herror
  · obtain ⟨visited, hvisited, hvisit⟩ := visit_layout hfits
    refine .inr ⟨rows, hmax, hfits, rfl, decodeBlock_layout hmax hfits, visited, hvisited, ?_⟩
    intro σ visit s
    rw [visitBlock, parse_layout hmax hfits]
    exact hvisit visit s

/-- Decoding is exact. No index or range of it is out of bounds. What it accepts is the layout of
the rows that it returns, and each text column of them has a text exactly if its bytes are one,
which it then is. Every layout of rows that fit is decoded into them. -/
theorem decodeBlock_exact (body : Bytes) :
  (decodeBlock body ≠ .error .panic
      ∧ ∀ {σ : Type} (visit : ℕ → Columns → Bytes → σ → σ) (s : σ),
        (visitBlock body visit s).1 ≠ .error .panic)
    ∧ (∀ rows, decodeBlock body = .ok rows →
      rows.length ≤ maxBlockEvents ∧ (∀ row ∈ rows, row.Fits) ∧ layout rows = body
        ∧ ∃ visited : List (Columns × Bytes), visited.map (fun e => e.1.toRaw e.2) = rows
          ∧ (∀ {σ : Type} (visit : ℕ → Columns → Bytes → σ → σ) (s : σ),
            visitBlock body visit s
              = (.ok (), visited.foldl (fun s e => visit rows.length e.1 e.2 s) s))
          ∧ ∀ e ∈ visited, ∀ col ∈ [e.1.collection, e.1.did, e.1.rkey, e.1.rev],
            col.text.map Subtype.val = if utf8 col.bytes = true then some col.bytes else none)
    ∧ ∀ rows : List RawEvent, rows.length ≤ maxBlockEvents → (∀ row ∈ rows, row.Fits) →
      decodeBlock (layout rows) = .ok rows
  := by
  refine ⟨?_, ?_, fun _ => decodeBlock_layout⟩
  · rcases visitBlock_cases body with ⟨e, he⟩ | ⟨rows, -, -, -, hdecode, visited, -, hvisit⟩
    · constructor
      · rw [decodeBlock, visitBlock, he]
        nofun
      · intro σ visit s
        rw [visitBlock, he]
        nofun
    · constructor
      · rw [hdecode]
        nofun
      · intro σ visit s
        rw [hvisit]
        nofun
  · intro rows h
    rcases visitBlock_cases body with ⟨e, he⟩
      | ⟨rows', hmax, hfits, hlayout, hdecode, visited, hvisited, hvisit⟩
    · rw [decodeBlock, visitBlock, he] at h
      cases h
    · rw [hdecode] at h
      obtain rfl := ok.inj h
      exact ⟨hmax, hfits, hlayout, visited, hvisited, hvisit, fun _ _ col _ => col.text_eq⟩

/-! ### A character across two columns -/

namespace Straddled

attribute [local instance] SimdUtf8.standard

/-- A row whose collection ends within the character that its DID continues. -/
def row : RawEvent where
  seq := 1
  witnessedAt := -1
  indexedAt := 0
  kind := .create
  collection := [0x61, 0xc3]
  did := [0xa9, 0x62]
  rkey := [0x6b]
  rev := []
  payload := [0xa0]

/-- The row is decoded as it is, although neither column is a text. -/
theorem decodeBlock_row :
  decodeBlock (layout [row]) = .ok [row] ∧ utf8 (row.collection ++ row.did) = true
    ∧ utf8 row.collection = false
  := by
  refine ⟨(decodeBlock_exact []).2.2 [row] (by decide) ?_, by decide, by decide⟩
  intro r hr
  obtain rfl := List.mem_singleton.mp hr
  exact ⟨by decide, by decide, by decide, by decide, by decide⟩

end Straddled

end Shrike.Jetstream
