import Shrike.Jetstream.BlockExact
import Shrike.Jetstream.Segment
import Shrike.Jetstream.View

/-!
# Decoding the archive

Three ways to decode the events of a segment: row after row into one result; by workers that each
take some of the blocks and pass the rows on as views; and block by block into batches. They come to
the same events and the same errors of rows that were dropped, in the same order.
-/

namespace Shrike.Jetstream.Decode

open Bytes Except Syntax

/-- How the frame of a block is decompressed. -/
class Zstd where
  decompressBounded : Bytes → Except DecodeError Bytes

/-- The events of the rows that were converted, and the errors of those that were not. -/
structure Decoded (E : Type) where
  events : List E
  dropped : List DecodeError

namespace Decoded

variable {E F : Type}

def empty : Decoded E := { events := [], dropped := [] }

def append (d d' : Decoded E) : Decoded E :=
  { events := d.events ++ d'.events, dropped := d.dropped ++ d'.dropped }

instance : Append (Decoded E) := ⟨append⟩

/-- Add an event. -/
def pushEvent (d : Decoded E) (event : E) : Decoded E := { d with events := d.events ++ [event] }

/-- Add the error of a row. -/
def pushDropped (d : Decoded E) (err : DecodeError) : Decoded E :=
  { d with dropped := d.dropped ++ [err] }

/-- The events with a function applied to them. -/
def map (f : E → F) (d : Decoded E) : Decoded F := { events := d.events.map f, dropped := d.dropped }

/-- A number of results, one after the other. -/
def concat (ds : List (Decoded E)) : Decoded E := ds.foldr append empty

end Decoded

variable [SyncMessages]

/-! ### Row after row -/

/-- Convert a row if it is selected, and keep its event or its error. -/
def convertSelectedRow (filter : Filter) (raw : Columns) (payload : Bytes) :
    Decoded Event × RowConverter → Decoded Event × RowConverter
  | (out, converter) =>
      if !filter.matchesSegment raw.kind.publicKind raw.did.textOrEmpty raw.collection.textOrEmpty then
        (out, converter)
      else match RowConverter.convert raw payload converter with
        | (.ok event, converter) => (out.pushEvent event, converter)
        | (.error err, converter) => (out.pushDropped err, converter)

variable [SimdUtf8]

/-- The result of a visit of a block, if the block is consistent. -/
def visited {σ : Type} : Except Halt Unit × σ → Except Halt σ
  | (.ok (), s) => .ok s
  | (.error e, _) => .error e

/-- Convert the selected rows of a block. -/
def convertBlockInto (body : Bytes) (filter : Filter) (out : Decoded Event) :
    Except Halt (Decoded Event) :=
  (visited (visitBlock body (fun _ => convertSelectedRow filter) (out, .default))).map Prod.fst

variable [Xxh3] [Zstd]

/-- The decompressed block at an index. -/
def blockBody (reader : SegmentReader) (idx : ℕ) : Except Halt Bytes := do
  let frame ← (reader.blockFrame idx).mapError .error
  (Zstd.decompressBounded frame).mapError .error

/-- Decode a segment. -/
def decodeSegmentFiltered (segment : Bytes) (filter : Filter) : Except Halt (Decoded Event) := do
  let reader ← (SegmentReader.open segment).mapError .error
  (List.range reader.blockCount).foldlM
    (fun out idx => do convertBlockInto (← blockBody reader idx) filter out) .empty

/-! ### Views and workers -/

/-- What was made of an event, with its sequence number. -/
structure MappedEvent (T : Type) where
  seq : UInt64
  value : T

variable {T : Type}

/-- Pass a row on as a view if it is selected, and keep what is made of it or its error. -/
def convertRowView (filter : Filter) (map : EventView → T) (raw : Columns) (payload : Bytes)
    (out : Decoded (MappedEvent T)) : Decoded (MappedEvent T) :=
  match filter.selectSegment raw.kind.publicKind raw.did.textOrEmpty raw.collection.textOrEmpty with
  | none => out
  | some selected =>
      match eventView raw payload selected with
      | .ok event => out.pushEvent { seq := event.seq, value := map event }
      | .error err => out.pushDropped err

/-- Pass on the selected rows of a block. -/
def convertBlock (body : Bytes) (filter : Filter) (map : EventView → T)
    (out : Decoded (MappedEvent T)) : Except Halt (Decoded (MappedEvent T)) :=
  visited (visitBlock body (fun _ => convertRowView filter map) out)

/-- Decode the blocks at some indices. -/
def decodeRange (reader : SegmentReader) (filter : Filter) (map : EventView → T) (range : List ℕ) :
    Except Halt (Decoded (MappedEvent T)) :=
  range.foldlM (fun out index => do convertBlock (← blockBody reader index) filter map out) .empty

/-- Decode a segment into what is made of the views. -/
def decodeSegmentMapped (segment : Bytes) (filter : Filter) (map : EventView → T) :
    Except Halt (Decoded (MappedEvent T)) := do
  let reader ← (SegmentReader.open segment).mapError .error
  decodeRange reader filter map (List.range reader.blockCount)

/-- The quotient of two numbers, rounded up. -/
def divCeil (a b : ℕ) : ℕ := (a + b - 1) / b

/-- The numbers from `start` on by steps of `step`, up to `stop`. -/
def stepBy (start stop step : ℕ) : List ℕ := List.range' start (divCeil (stop - start) step) step

/-- The numbers from `start` on up to `stop`. -/
def rangeFrom (start stop : ℕ) : List ℕ := List.range' start (stop - start)

/-- Decode a segment by workers, each of which takes the same number of blocks, but the last ones,
for which there may be fewer left. All of the workers can be started. Their results are put together
in the order of the blocks, after all of them have ended. -/
def decodeSegmentWorkers (segment : Bytes) (filter : Filter) (map : EventView → T) (workers : ℕ) :
    Except Halt (Decoded (MappedEvent T)) :=
  if 1 < workers then do
    let reader ← (SegmentReader.open segment).mapError .error
    let count := reader.blockCount
    if count = 0 then .ok .empty
    else
      let chunk := divCeil count (min workers count)
      let rest := (stepBy chunk count chunk).map fun start =>
        decodeRange reader filter map (rangeFrom start (min (start + chunk) count))
      let out ← decodeRange reader filter map (rangeFrom 0 (min chunk count))
      rest.foldlM (fun out part => do .ok (out ++ (← part))) out
  else decodeSegmentMapped segment filter map

/-! ### Batches -/

/-- A block whose layout was checked. -/
structure ValidatedBlock where
  body : Bytes
  layout : BlockLayout
  parses : BlockLayout.parse body = .ok layout

/-- Check the layout of a block. -/
def ValidatedBlock.new (body : Bytes) : Except Halt ValidatedBlock :=
  match h : BlockLayout.parse body with
  | .ok layout => .ok ⟨body, layout, h⟩
  | .error e => .error e

/-- The batches that are full, the one that is not, and the converter. -/
structure Batches where
  chunks : List (Decoded Event)
  out : Decoded Event
  converter : RowConverter

/-- Convert a row into the batch that is not full. -/
def Batches.convertRow (batchSize : ℕ) (filter : Filter) (raw : Columns) (payload : Bytes)
    (b : Batches) : Batches :=
  match convertSelectedRow filter raw payload (b.out, b.converter) with
  | (out, converter) =>
      if out.events.length = batchSize then { chunks := b.chunks ++ [out], out := .empty, converter }
      else { chunks := b.chunks, out, converter }

/-- Convert the selected rows of a block into batches of at most so many events. -/
def convertValidatedBlock (block : ValidatedBlock) (filter : Filter) (maxBatch : ℕ) :
    Except Halt (List (Decoded Event)) := do
  let batchSize := min (max maxBatch 1) (max block.layout.n 1)
  let b ← visited (block.layout.visit block.body (fun _ => Batches.convertRow batchSize filter)
    { chunks := [], out := .empty, converter := .default })
  if b.out.events ≠ [] ∨ b.out.dropped ≠ [] then .ok (b.chunks ++ [b.out])
  else .ok b.chunks

/-- Decode a segment block by block into batches, after all of its blocks were checked. -/
def decodeSegmentBlocks (segment : Bytes) (filter : Filter) (maxBatch : ℕ) :
    Except Halt (List (Decoded Event)) := do
  let reader ← (SegmentReader.open segment).mapError .error
  let frames ← (List.range reader.blockCount).mapM fun idx =>
    (reader.blockFrame idx).mapError Halt.error
  let blocks ← frames.mapM fun frame => do
    ValidatedBlock.new (← (Zstd.decompressBounded frame).mapError .error)
  let chunks ← blocks.mapM fun block => convertValidatedBlock block filter maxBatch
  .ok chunks.flatten

/-! ### Results one after the other -/

namespace Decoded

omit [SyncMessages] [SimdUtf8] [Xxh3] [Zstd]

variable {E F : Type}

theorem append_def (d d' : Decoded E) :
  d ++ d' = { events := d.events ++ d'.events, dropped := d.dropped ++ d'.dropped }
  := rfl

@[simp]
theorem append_empty (d : Decoded E) :
  d ++ empty = d
  := by simp [append_def, empty]

@[simp]
theorem empty_append (d : Decoded E) :
  empty ++ d = d
  := rfl

theorem append_assoc (d d' d'' : Decoded E) :
  (d ++ d') ++ d'' = d ++ (d' ++ d'')
  := by simp [append_def]

@[simp]
theorem concat_cons (d : Decoded E) (ds : List (Decoded E)) :
  concat (d :: ds) = d ++ concat ds
  := rfl

@[simp]
theorem concat_singleton (d : Decoded E) :
  concat [d] = d
  := append_empty d

@[simp]
theorem concat_append (ds ds' : List (Decoded E)) :
  concat (ds ++ ds') = concat ds ++ concat ds'
  := by
  induction ds with
  | nil => rfl
  | cons d ds ih => rw [List.cons_append, concat_cons, concat_cons, ih, append_assoc]

theorem map_append (f : E → F) (d d' : Decoded E) :
  (d ++ d').map f = d.map f ++ d'.map f
  := by simp [append_def, map]

theorem map_concat (f : E → F) (ds : List (Decoded E)) :
  (concat ds).map f = concat (ds.map (Decoded.map f))
  := by
  induction ds with
  | nil => rfl
  | cons d ds ih => rw [concat_cons, map_append, ih, List.map_cons, concat_cons]

end Decoded

/-! ### What rows are decoded to -/

/-- What a row is decoded to: nothing, its event or its error. -/
def decodedRow (filter : Filter) (row : Columns × Bytes) : Decoded Event :=
  if filter.matchesSegment row.1.kind.publicKind row.1.did.textOrEmpty row.1.collection.textOrEmpty then
    match toEvent row.1 row.2 with
    | .ok event => { events := [event], dropped := [] }
    | .error err => { events := [], dropped := [err] }
  else .empty

/-- What rows are decoded to. -/
def decodedRows (filter : Filter) (rows : List (Columns × Bytes)) : Decoded Event :=
  .concat (rows.map (decodedRow filter))

omit [SimdUtf8] [Xxh3] [Zstd] in
theorem decodedRows_cons (filter : Filter) (row : Columns × Bytes) (rows : List (Columns × Bytes)) :
  decodedRows filter (row :: rows) = decodedRow filter row ++ decodedRows filter rows
  := rfl

omit [SimdUtf8] [Xxh3] [Zstd] in
/-- A row is decoded to the same whatever the converter has cached. -/
theorem convertSelectedRow_eq (filter : Filter) (raw : Columns) (payload : Bytes) (out : Decoded Event)
    (converter : RowConverter) :
  (convertSelectedRow filter raw payload (out, converter)).1
    = out ++ decodedRow filter (raw, payload)
  := by
  rw [convertSelectedRow, decodedRow]
  cases filter.matchesSegment raw.kind.publicKind raw.did.textOrEmpty
    raw.collection.textOrEmpty with
  | false => exact (Decoded.append_empty out).symm
  | true =>
      have hyields := RowConverter.convert_yields raw payload converter
      rw [Bool.not_true, if_neg Bool.false_ne_true, if_pos rfl]
      rw [← hyields]
      rcases RowConverter.convert raw payload converter with ⟨err | event, converter'⟩
      · simp [Decoded.pushDropped, Decoded.append_def]
      · simp [Decoded.pushEvent, Decoded.append_def]

omit [SimdUtf8] [Xxh3] [Zstd] in
/-- A row is passed on as the view of the event that it is decoded to. -/
theorem convertRowView_eq {T : Type} (filter : Filter) (map : EventView → T) (raw : Columns)
    (payload : Bytes) (out : Decoded (MappedEvent T)) :
  convertRowView filter map raw payload out
    = out ++ (decodedRow filter (raw, payload)).map fun event =>
        { seq := event.seq, value := map (.fromEvent event) }
  := by
  rw [convertRowView, decodedRow, Filter.matchesSegment]
  cases hselected : filter.selectSegment raw.kind.publicKind raw.did.textOrEmpty
      raw.collection.textOrEmpty with
  | none => exact (Decoded.append_empty out).symm
  | some selected =>
      have hview : eventView raw payload selected = (toEvent raw payload).map .fromEvent := by
        obtain ⟨hdid, hcollection⟩ := Filter.selectSegment_some hselected
        apply eventView_eq
        · intro hvalidated did hdidText
          rw [← textOrEmpty_eq hdidText]
          exact hdid hvalidated
        · intro collection htext
          rw [← textOrEmpty_eq htext]
          exact hcollection
      rw [Option.isSome_some, if_pos rfl]
      dsimp only
      rw [hview]
      cases toEvent raw payload with
      | error err => simp [Except.map, Decoded.pushDropped, Decoded.map, Decoded.append_def]
      | ok event =>
          simp [Except.map, Decoded.pushEvent, Decoded.map, Decoded.append_def, EventView.fromEvent]

/-! ### What blocks are decoded to -/

/-- The rows of a block. -/
def blockRows (body : Bytes) : Except Halt (List (Columns × Bytes)) :=
  visited (visitBlock body (fun _ raw payload rows => rows ++ [(raw, payload)]) [])

omit [SyncMessages] [Xxh3] [Zstd] in
/-- Whatever is done with the rows of a block is done with each of them in order. -/
theorem visited_visitBlock {σ : Type} (body : Bytes) (visit : Columns → Bytes → σ → σ) (s : σ) :
  visited (visitBlock body (fun _ => visit) s)
    = (blockRows body).map fun rows => rows.foldl (fun s row => visit row.1 row.2 s) s
  := by
  rcases visitBlock_cases body with ⟨e, he⟩ | ⟨rows, -, -, -, -, columns, -, hvisit⟩
  · rw [blockRows, visitBlock, visitBlock, he]
    rfl
  · have hpush : ∀ (l done : List (Columns × Bytes)),
        l.foldl (fun rows row => rows ++ [(row.1, row.2)]) done = done ++ l := by
      intro l
      induction l with
      | nil => exact fun done => (List.append_nil done).symm
      | cons row l ih =>
          intro done
          rw [List.foldl_cons, ih, List.append_assoc, List.singleton_append]
    rw [blockRows, hvisit, hvisit, hpush]
    rfl

omit [Xxh3] [Zstd] in
theorem convertBlockInto_eq (body : Bytes) (filter : Filter) (out : Decoded Event) :
  convertBlockInto body filter out
    = (blockRows body).map fun rows => out ++ decodedRows filter rows
  := by
  have hfold : ∀ (rows : List (Columns × Bytes)) (out : Decoded Event) (converter : RowConverter),
      (rows.foldl (fun s row => convertSelectedRow filter row.1 row.2 s) (out, converter)).1
        = out ++ decodedRows filter rows := by
    intro rows
    induction rows with
    | nil => exact fun out _ => (Decoded.append_empty out).symm
    | cons row rows ih =>
        intro out converter
        have hrow := convertSelectedRow_eq filter row.1 row.2 out converter
        rw [List.foldl_cons, decodedRows_cons, ← Decoded.append_assoc, ← hrow]
        exact ih _ _
  rw [convertBlockInto, visited_visitBlock]
  cases blockRows body with
  | error e => rfl
  | ok rows => exact congrArg Except.ok (hfold rows out .default)

omit [Xxh3] [Zstd] in
theorem convertBlock_eq {T : Type} (body : Bytes) (filter : Filter) (map : EventView → T)
    (out : Decoded (MappedEvent T)) :
  convertBlock body filter map out
    = (blockRows body).map fun rows => out ++ (decodedRows filter rows).map fun event =>
        { seq := event.seq, value := map (.fromEvent event) }
  := by
  have hfold : ∀ (rows : List (Columns × Bytes)) (out : Decoded (MappedEvent T)),
      rows.foldl (fun s row => convertRowView filter map row.1 row.2 s) out
        = out ++ (decodedRows filter rows).map fun event =>
            { seq := event.seq, value := map (.fromEvent event) } := by
    intro rows
    induction rows with
    | nil => exact fun out => (Decoded.append_empty out).symm
    | cons row rows ih =>
        intro out
        rw [List.foldl_cons, ih, convertRowView_eq, decodedRows_cons, Decoded.map_append,
          ← Decoded.append_assoc]
  rw [convertBlock, visited_visitBlock]
  cases blockRows body with
  | error e => rfl
  | ok rows => exact congrArg Except.ok (hfold rows out)

/-- What the batches hold, one after the other. -/
def Batches.total (b : Batches) : Decoded Event := .concat (b.chunks ++ [b.out])

omit [SimdUtf8] [Xxh3] [Zstd] in
theorem Batches.total_eq (b : Batches) :
  b.total = .concat b.chunks ++ b.out
  := by rw [total, Decoded.concat_append, Decoded.concat_singleton]

omit [SimdUtf8] [Xxh3] [Zstd] in
theorem Batches.total_convertRow (batchSize : ℕ) (filter : Filter) (raw : Columns) (payload : Bytes)
    (b : Batches) :
  (b.convertRow batchSize filter raw payload).total = b.total ++ decodedRow filter (raw, payload)
  := by
  have hrow := convertSelectedRow_eq filter raw payload b.out b.converter
  rw [b.total_eq, Decoded.append_assoc, ← hrow, convertRow]
  dsimp only
  split_ifs
  · rw [total_eq, Decoded.append_empty, Decoded.concat_append, Decoded.concat_singleton]
  · rw [total_eq]

omit [SimdUtf8] [Xxh3] [Zstd] in
/-- A last batch that holds nothing is left out. -/
theorem Batches.total_of_empty {b : Batches} (h : ¬(b.out.events ≠ [] ∨ b.out.dropped ≠ [])) :
  b.total = .concat b.chunks
  := by
  obtain ⟨hevents, hdropped⟩ := not_or.mp h
  have hempty : b.out = .empty := by
    rw [Decoded.empty, ← not_not.mp hevents, ← not_not.mp hdropped]
  rw [b.total_eq, hempty, Decoded.append_empty]

omit [Xxh3] [Zstd] in
/-- The batches of a block are what it is decoded to, one after the other. -/
theorem convertValidatedBlock_eq (block : ValidatedBlock) (filter : Filter) (maxBatch : ℕ) :
  (convertValidatedBlock block filter maxBatch).map Decoded.concat
    = (blockRows block.body).map (decodedRows filter)
  := by
  have hvisit : ∀ {σ : Type} (visit : ℕ → Columns → Bytes → σ → σ) (s : σ),
      block.layout.visit block.body visit s = visitBlock block.body visit s := by
    intro σ visit s
    rw [visitBlock, block.parses]
  have hfold : ∀ (n : ℕ) (rows : List (Columns × Bytes)) (b : Batches),
      (rows.foldl (fun b row => Batches.convertRow n filter row.1 row.2 b) b).total
        = b.total ++ decodedRows filter rows := by
    intro n rows
    induction rows with
    | nil => exact fun b => (Decoded.append_empty b.total).symm
    | cons row rows ih =>
        intro b
        rw [List.foldl_cons, ih, Batches.total_convertRow, decodedRows_cons, Decoded.append_assoc]
  rw [convertValidatedBlock, hvisit, visited_visitBlock]
  cases blockRows block.body with
  | error e => rfl
  | ok rows =>
      simp only [Except.map, ok_bind]
      have htotal := hfold (min (max maxBatch 1) (max block.layout.n 1)) rows
        { chunks := [], out := .empty, converter := .default }
      generalize rows.foldl (fun b row => Batches.convertRow (min (max maxBatch 1)
        (max block.layout.n 1)) filter row.1 row.2 b)
        { chunks := [], out := .empty, converter := .default } = b at htotal ⊢
      rw [← Decoded.empty_append (decodedRows filter rows)]
      split_ifs with hout
      · exact congrArg Except.ok htotal
      · rw [Batches.total_of_empty hout] at htotal
        exact congrArg Except.ok htotal

/-! ### What segments are decoded to -/

/-- What the block at an index is decoded to. -/
def decodedBlock (reader : SegmentReader) (filter : Filter) (idx : ℕ) : Except Halt (Decoded Event) := do
  let body ← blockBody reader idx
  (blockRows body).map (decodedRows filter)

/-- What a segment is decoded to: each selected row of each block to its event or its error. -/
def decodedSegment (segment : Bytes) (filter : Filter) : Except Halt (Decoded Event) := do
  let reader ← (SegmentReader.open segment).mapError .error
  ((List.range reader.blockCount).mapM (decodedBlock reader filter)).map .concat

omit [SyncMessages] [SimdUtf8] [Xxh3] [Zstd] in
/-- A loop that adds a result for each element adds them all. -/
theorem foldlM_concat {E : Type} {step : Decoded E → ℕ → Except Halt (Decoded E)}
    {one : ℕ → Except Halt (Decoded E)} (h : ∀ out i, step out i = (one i).map fun d => out ++ d)
    (l : List ℕ) (out : Decoded E) :
  l.foldlM step out = (l.mapM one).map fun ds => out ++ .concat ds
  := by
  induction l generalizing out with
  | nil => exact congrArg Except.ok (Decoded.append_empty out).symm
  | cons i l ih =>
      rw [List.foldlM_cons, List.mapM_cons, h]
      cases one i with
      | error e => rfl
      | ok d =>
          simp only [Except.map, ok_bind, ih]
          cases l.mapM one with
          | error e => rfl
          | ok ds => exact congrArg Except.ok (Decoded.append_assoc out d (.concat ds))

theorem decodeSegmentFiltered_eq (segment : Bytes) (filter : Filter) :
  decodeSegmentFiltered segment filter = decodedSegment segment filter
  := by
  rw [decodeSegmentFiltered, decodedSegment]
  congr 1
  funext reader
  rw [@foldlM_concat _ _ (decodedBlock reader filter)]
  · rfl
  · intro out i
    rw [decodedBlock]
    cases blockBody reader i with
    | error e => rfl
    | ok body =>
        simp only [ok_bind, convertBlockInto_eq]
        cases blockRows body <;> rfl

/-- What is made of an event. -/
def MappedEvent.ofEvent {T : Type} (map : EventView → T) (event : Event) : MappedEvent T :=
  { seq := event.seq, value := map (.fromEvent event) }

omit [Xxh3] in
theorem decodeRange_eq {T : Type} (reader : SegmentReader) (filter : Filter) (map : EventView → T)
    (range : List ℕ) :
  decodeRange reader filter map range
    = (range.mapM (decodedBlock reader filter)).map fun ds =>
        (Decoded.concat ds).map (.ofEvent map)
  := by
  rw [decodeRange, @foldlM_concat _ _
    (fun i => (decodedBlock reader filter i).map (Decoded.map (.ofEvent map)))]
  · rw [mapM_map]
    cases range.mapM (decodedBlock reader filter) with
    | error e => rfl
    | ok ds =>
        simp only [Except.map, Decoded.empty_append, Decoded.map_concat]
  · intro out i
    rw [decodedBlock]
    cases blockBody reader i with
    | error e => rfl
    | ok body =>
        simp only [ok_bind, convertBlock_eq]
        cases blockRows body <;> rfl

/-! ### Workers -/

variable {n step stop start middle : ℕ}

omit [SyncMessages] [SimdUtf8] [Xxh3] [Zstd] in
theorem divCeil_step (hstep : 0 < step) (hn : 0 < n) :
  divCeil n step = divCeil (n - step) step + 1
  := by
  rw [divCeil, divCeil, ← Nat.add_div_right _ hstep]
  rcases Nat.le_total step n with h | h
  · congr 1
    omega
  · have hone : (n + step - 1) / step = 1 := Nat.div_eq_of_lt_le (by omega) (by omega)
    have hone' : (n - step + step - 1 + step) / step = 1 :=
      Nat.div_eq_of_lt_le (by omega) (by omega)
    rw [hone, hone']

omit [SyncMessages] [SimdUtf8] [Xxh3] [Zstd] in
theorem rangeFrom_append (h : start ≤ middle) (h' : middle ≤ stop) :
  rangeFrom start middle ++ rangeFrom middle stop = rangeFrom start stop
  := by
  have happend := List.range'_append_1 (s := start) (m := middle - start) (n := stop - middle)
  rw [Nat.add_sub_cancel' h] at happend
  rw [rangeFrom, rangeFrom, rangeFrom, happend]
  congr 1
  omega

omit [SyncMessages] [SimdUtf8] [Xxh3] [Zstd] in
theorem stepBy_eq_cons (hstep : 0 < step) (h : start < stop) :
  stepBy start stop step = start :: stepBy (start + step) stop step
  := by
  rw [stepBy, divCeil_step hstep (by omega), List.range'_succ, stepBy, Nat.sub_add_eq]

omit [SyncMessages] [SimdUtf8] [Xxh3] [Zstd] in
theorem stepBy_eq_nil (hstep : 0 < step) (h : stop ≤ start) :
  stepBy start stop step = []
  := by
  have hdiv : divCeil 0 step = 0 := by
    rw [divCeil]
    exact Nat.div_eq_of_lt (by omega)
  rw [stepBy, Nat.sub_eq_zero_of_le h, hdiv, List.range'_zero]

omit [SyncMessages] [SimdUtf8] [Xxh3] [Zstd] in
/-- Ranges of one length, but the last, tile what they are cut from. -/
theorem flatten_ranges (hstep : 0 < step) (stop : ℕ) (h : start ≤ stop) :
  ((stepBy start stop step).map fun s => rangeFrom s (min (s + step) stop)).flatten
    = rangeFrom start stop
  := by
  induction hn : stop - start using Nat.strongRecOn generalizing start with
  | ind n ih =>
      rcases Nat.eq_or_lt_of_le h with rfl | hlt
      · rw [stepBy_eq_nil hstep (Nat.le_refl start), rangeFrom, Nat.sub_self]
        rfl
      · rw [stepBy_eq_cons hstep hlt, List.map_cons, List.flatten_cons]
        rcases Nat.le_total (start + step) stop with hle | hle
        · rw [ih (stop - (start + step)) (by omega) hle rfl, Nat.min_eq_left hle,
            rangeFrom_append (by omega) hle]
        · rw [stepBy_eq_nil hstep hle, Nat.min_eq_right hle]
          exact List.append_nil _

omit [Xxh3] in
/-- Workers that take ranges of blocks decode what one after the other of the blocks is decoded to. -/
theorem foldlM_workers {T : Type} (reader : SegmentReader) (filter : Filter) (map : EventView → T)
    (ranges : List (List ℕ)) (out : Decoded (MappedEvent T)) :
  (ranges.map (decodeRange reader filter map)).foldlM (fun out part => do .ok (out ++ (← part))) out
    = (ranges.flatten.mapM (decodedBlock reader filter)).map fun ds =>
        out ++ (Decoded.concat ds).map (.ofEvent map)
  := by
  induction ranges generalizing out with
  | nil => exact congrArg Except.ok (Decoded.append_empty out).symm
  | cons range ranges ih =>
      rw [List.map_cons, List.foldlM_cons, List.flatten_cons, List.mapM_append, decodeRange_eq]
      cases range.mapM (decodedBlock reader filter) with
      | error e => rfl
      | ok ds =>
          simp only [Except.map, ok_bind]
          rw [ih]
          cases ranges.flatten.mapM (decodedBlock reader filter) with
          | error e => rfl
          | ok ds' =>
              refine congrArg Except.ok ?_
              rw [Decoded.concat_append, Decoded.map_append]
              exact Decoded.append_assoc _ _ _

theorem decodeSegmentMapped_eq {T : Type} (segment : Bytes) (filter : Filter) (map : EventView → T) :
  decodeSegmentMapped segment filter map
    = (decodedSegment segment filter).map (Decoded.map (.ofEvent map))
  := by
  rw [decodeSegmentMapped, decodedSegment]
  cases (SegmentReader.open segment).mapError Halt.error with
  | error e => rfl
  | ok reader =>
      simp only [ok_bind, decodeRange_eq]
      cases (List.range reader.blockCount).mapM (decodedBlock reader filter) <;> rfl

theorem decodeSegmentWorkers_eq {T : Type} (segment : Bytes) (filter : Filter) (map : EventView → T)
    (workers : ℕ) :
  decodeSegmentWorkers segment filter map workers
    = (decodedSegment segment filter).map (Decoded.map (.ofEvent map))
  := by
  rw [decodeSegmentWorkers]
  split_ifs with hworkers
  · rw [decodedSegment]
    cases (SegmentReader.open segment).mapError Halt.error with
    | error e => rfl
    | ok reader =>
        simp only [ok_bind]
        split_ifs with hcount
        · rw [hcount]
          rfl
        · have hchunk : 0 < divCeil reader.blockCount (min workers reader.blockCount) := by
            rw [divCeil]
            exact Nat.div_pos (by omega) (by omega)
          generalize divCeil reader.blockCount (min workers reader.blockCount) = chunk at hchunk ⊢
          have htiles := flatten_ranges hchunk reader.blockCount (Nat.zero_le _)
          rw [stepBy_eq_cons hchunk (Nat.pos_of_ne_zero hcount), List.map_cons, Nat.zero_add] at htiles
          have hall := foldlM_workers reader filter map
            (rangeFrom 0 (min chunk reader.blockCount)
              :: (stepBy chunk reader.blockCount chunk).map fun s =>
                rangeFrom s (min (s + chunk) reader.blockCount)) .empty
          rw [htiles, List.map_cons, List.foldlM_cons, List.map_map] at hall
          rw [List.range_eq_range']
          have hright : ∀ x : Except Halt (List (Decoded Event)),
              (x.map fun ds => .empty ++ (Decoded.concat ds).map (MappedEvent.ofEvent map))
                = (x.map Decoded.concat).map (Decoded.map (MappedEvent.ofEvent map)) := by
            intro x
            cases x <;> rfl
          refine Eq.trans ?_ (hall.trans (hright _))
          cases decodeRange reader filter map (rangeFrom 0 (min chunk reader.blockCount)) <;> rfl
  · exact decodeSegmentMapped_eq segment filter map

/-! ### Batches -/

omit [Xxh3] in
/-- The batches of a block that was checked are what the block is decoded to. -/
theorem concat_batches (reader : SegmentReader) (filter : Filter) (maxBatch idx : ℕ) :
  (((reader.blockFrame idx).mapError Halt.error
      >>= fun frame => do ValidatedBlock.new (← (Zstd.decompressBounded frame).mapError .error))
      >>= fun block => convertValidatedBlock block filter maxBatch).map Decoded.concat
    = decodedBlock reader filter idx
  := by
  rw [decodedBlock, blockBody]
  cases (reader.blockFrame idx).mapError Halt.error with
  | error e => rfl
  | ok frame =>
      simp only [ok_bind]
      cases (Zstd.decompressBounded frame).mapError Halt.error with
      | error e => rfl
      | ok body =>
          simp only [ok_bind]
          rw [ValidatedBlock.new]
          split
          · rename_i layout hlayout
            exact convertValidatedBlock_eq ⟨body, layout, hlayout⟩ filter maxBatch
          · rename_i e he
            rw [blockRows, visitBlock, he]
            rfl

omit [SyncMessages] [SimdUtf8] [Xxh3] [Zstd] in
theorem Decoded.concat_flatten {E : Type} (chunks : List (List (Decoded E))) :
  concat chunks.flatten = concat (chunks.map concat)
  := by
  induction chunks with
  | nil => rfl
  | cons ds chunks ih => rw [List.flatten_cons, concat_append, ih, List.map_cons, concat_cons]

omit [SyncMessages] [SimdUtf8] [Xxh3] [Zstd] in
/-- Three passes over a list succeed exactly if, for each of its elements, all three steps do. -/
theorem toOption_passes {A B C D : Type} (l : List A) (f : A → Except Halt B) (g : B → Except Halt C)
    (h : C → Except Halt (List D)) :
  (do
    let bs ← l.mapM f
    let cs ← bs.mapM g
    let ds ← cs.mapM h
    Except.ok ds.flatten).toOption
    = ((l.mapM fun a => f a >>= g >>= h).map List.flatten).toOption
  := by
  have hassoc : (do
      let bs ← l.mapM f
      let cs ← bs.mapM g
      let ds ← cs.mapM h
      Except.ok ds.flatten)
      = ((l.mapM f >>= fun bs => bs.mapM g) >>= fun cs => cs.mapM h).map List.flatten := by
    cases l.mapM f with
    | error e => rfl
    | ok bs =>
        simp only [ok_bind]
        cases bs.mapM g with
        | error e => rfl
        | ok cs =>
            simp only [ok_bind]
            cases cs.mapM h <;> rfl
  rw [hassoc, toOption_map, toOption_bind, toOption_mapM_bind, ← toOption_bind, toOption_mapM_bind,
    toOption_map]

/-- A segment is decoded block by block into batches exactly if it is decoded, to the same. -/
theorem decodeSegmentBlocks_eq (segment : Bytes) (filter : Filter) (maxBatch : ℕ) :
  (decodeSegmentBlocks segment filter maxBatch).toOption.map Decoded.concat
    = (decodedSegment segment filter).toOption
  := by
  rw [decodeSegmentBlocks, decodedSegment]
  cases (SegmentReader.open segment).mapError Halt.error with
  | error e => rfl
  | ok reader =>
      simp only [ok_bind]
      rw [toOption_passes, ← funext (concat_batches reader filter maxBatch), mapM_map, toOption_map,
        toOption_map, toOption_map, Option.map_map, Option.map_map]
      congr 1
      funext chunks
      exact Decoded.concat_flatten chunks

/-! ### All of them -/

/-- The decoders agree. Each of them decodes a segment to the events that its selected rows spell,
and to the errors of those that spell none, in the order of the rows, and each rejects the same
segments. Making an event of a view gives the event of the row. -/
theorem decodePaths_agree (segment : Bytes) (filter : Filter) (maxBatch workers : ℕ) :
  decodeSegmentFiltered segment filter = decodedSegment segment filter
    ∧ decodeSegmentMapped segment filter EventView.toOwned
      = (decodedSegment segment filter).map
          (Decoded.map fun event => { seq := event.seq, value := .ok event })
    ∧ decodeSegmentWorkers segment filter EventView.toOwned workers
      = (decodedSegment segment filter).map
          (Decoded.map fun event => { seq := event.seq, value := .ok event })
    ∧ (decodeSegmentBlocks segment filter maxBatch).toOption.map Decoded.concat
      = (decodedSegment segment filter).toOption
  := by
  have howned : (MappedEvent.ofEvent EventView.toOwned)
      = fun event => { seq := event.seq, value := .ok event } := by
    funext event
    rw [MappedEvent.ofEvent, EventView.toOwned_fromEvent]
  rw [← howned]
  exact ⟨decodeSegmentFiltered_eq segment filter, decodeSegmentMapped_eq segment filter _,
    decodeSegmentWorkers_eq segment filter _ workers, decodeSegmentBlocks_eq segment filter maxBatch⟩

end Shrike.Jetstream.Decode
