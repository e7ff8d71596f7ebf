import Shrike.Data.Regions
import Shrike.Data.Result
import Shrike.Data.Utf8
import Shrike.Data.Words

/-!
# Columnar blocks

A block of an archive segment: a count of rows, nine columns of fixed width, and five regions of
bytes. The decoder checks the layout of a block before it cuts the rows out of it.
-/

namespace Shrike.Jetstream

open Bytes Except

/-- Why a part of the archive is not decoded. -/
inductive DecodeError where
  | unsupportedSegmentVersion (found expected : ℕ)
  | activeSegment
  | checksumMismatch (computed stored : ℕ)
  | corruptSegment (message : String)
  | truncated (message : String)
  | limitExceeded (what : String) (value limit : ℕ)
  | compression (message : String)
  | malformedEvent (message : String)

/-- How a computation ends that has no result: with an error, or with an index or a range that is
out of bounds. -/
inductive Halt where
  | error (e : DecodeError)
  | panic

/-- Fail with an error. -/
def Halt.fail {α : Type} (e : DecodeError) : Except Halt α := .error (.error e)

/-- The validator of UTF-8 that the decoder uses for whole regions. What it takes for a text are
the bytes it was given. -/
class SimdUtf8 where
  fromUtf8 : Bytes → Option Str
  val_fromUtf8 : ∀ {bs : Bytes} {s : Str}, fromUtf8 bs = some s → s.val = bs

/-- The validator that takes all texts. -/
@[reducible] def SimdUtf8.standard : SimdUtf8 where
  fromUtf8 := Str.fromUtf8
  val_fromUtf8 {bs s} h := by
    rw [Str.fromUtf8] at h
    split_ifs at h
    cases h
    rfl

/-! ### Rows -/

/-- The kind of a row. -/
inductive SegmentKind where
  | create
  | update
  | delete
  | identity
  | account
  | sync
  | createResync

/-- The kind with a code. -/
def SegmentKind.fromU8 (v : UInt8) : Except DecodeError SegmentKind :=
  if v = 1 then .ok .create
  else if v = 2 then .ok .update
  else if v = 3 then .ok .delete
  else if v = 4 then .ok .identity
  else if v = 5 then .ok .account
  else if v = 6 then .ok .sync
  else if v = 7 then .ok .createResync
  else .error (.corruptSegment "invalid event kind")

/-- The code of a kind. -/
def SegmentKind.asU8 : SegmentKind → UInt8
  | .create => 1
  | .update => 2
  | .delete => 3
  | .identity => 4
  | .account => 5
  | .sync => 6
  | .createResync => 7

/-- A row with its columns as they are in the block. -/
structure RawEvent where
  seq : UInt64
  witnessedAt : Int64
  indexedAt : Int64
  kind : SegmentKind
  collection : Bytes
  did : Bytes
  rkey : Bytes
  rev : Bytes
  payload : Bytes

/-- A column of text: cut out of a region that was validated as a whole, or not validated yet. -/
inductive TextColumn where
  | checked (s : Str)
  | raw (b : Bytes)

/-- The bytes of a column. -/
def TextColumn.bytes : TextColumn → Bytes
  | .checked s => s.val
  | .raw b => b

/-- The text of a column, if it is one. -/
def TextColumn.text : TextColumn → Option Str
  | .checked s => some s
  | .raw b => Str.fromUtf8 b

/-- The columns of a row but its payload. -/
structure Columns where
  seq : UInt64
  witnessedAt : Int64
  indexedAt : Int64
  kind : SegmentKind
  collection : TextColumn
  did : TextColumn
  rkey : TextColumn
  rev : TextColumn

/-! ### Reading -/

/-- The byte at an index. -/
def byteAt (body : Bytes) (i : ℕ) : Except Halt UInt8 := ofOption .panic body[i]?

/-- The bytes of a range. -/
def slice (body : Bytes) (start stop : ℕ) : Except Halt Bytes :=
  if start ≤ stop ∧ stop ≤ body.length then .ok ((body.take stop).drop start) else .error .panic

/-- A number of two bytes. -/
def readU16 (b : Bytes) (off : ℕ) : Except Halt ℕ :=
  if off + 2 ≤ b.length then .ok (ofLe ((b.drop off).take 2)) else Halt.fail (.truncated "u16 column")

/-- A number of four bytes. -/
def readU32 (b : Bytes) (off : ℕ) : Except Halt ℕ :=
  if off + 4 ≤ b.length then .ok (ofLe ((b.drop off).take 4)) else Halt.fail (.truncated "u32 column")

/-- The sum of two numbers of 64 bits, if it is one. -/
def checkedAdd (a b : ℕ) : Option ℕ := if a + b < 2 ^ 64 then some (a + b) else none

/-- The product of two numbers of 64 bits, if it is one. -/
def checkedMul (a b : ℕ) : Option ℕ := if a * b < 2 ^ 64 then some (a * b) else none

/-! ### The layout of a block -/

/-- The rows that a block may have. -/
def maxBlockEvents : ℕ := 2 ^ 18

/-- The bytes of a row in the columns of fixed width. -/
def fixedPerEvent : ℕ := 8 + 8 + 8 + 1 + 1 + 2 + 1 + 1 + 4

/-- How many rows a block has, and where its regions start. -/
structure BlockLayout where
  n : ℕ
  fixed : ℕ
  collStart : ℕ
  didStart : ℕ
  rkeyStart : ℕ
  revStart : ℕ
  payloadStart : ℕ

/-- The lengths of the five regions, as far as they are added up. -/
structure RegionSums where
  coll : ℕ
  did : ℕ
  rkey : ℕ
  rev : ℕ
  payload : ℕ

namespace BlockLayout

/-- Check the kind of the row `i` and add its lengths to those of the rows before it. -/
def addLengths (body : Bytes) (kindOff collLenOff didLenOff rkeyLenOff revLenOff plenOff : ℕ)
    (sums : RegionSums) (i : ℕ) : Except Halt RegionSums := do
  let _ ← (SegmentKind.fromU8 (← byteAt body (kindOff + i))).mapError Halt.error
  let cl ← byteAt body (collLenOff + i)
  let dl ← readU16 body (didLenOff + 2 * i)
  let kl ← byteAt body (rkeyLenOff + i)
  let vl ← byteAt body (revLenOff + i)
  let pl ← readU32 body (plenOff + 4 * i)
  .ok { coll := sums.coll + cl.toNat, did := sums.did + dl, rkey := sums.rkey + kl.toNat,
        rev := sums.rev + vl.toNat, payload := sums.payload + pl }

/-- The layout with regions of some lengths, which must account for the rest of the block
exactly. -/
def ofSums (body : Bytes) (n fixed : ℕ) (sums : RegionSums) : Except Halt BlockLayout := do
  let totalBlob ← ofOption (.error (.corruptSegment "blob region size overflow"))
    ((((checkedAdd sums.coll sums.did).bind fun v => checkedAdd v sums.rkey).bind fun v =>
      checkedAdd v sums.rev).bind fun v => checkedAdd v sums.payload)
  let expected ← ofOption (.error (.corruptSegment "block size overflow"))
    (checkedAdd fixed totalBlob)
  if expected ≠ body.length then
    Halt.fail (if expected > body.length then .truncated "block blob regions"
      else .corruptSegment "block has trailing bytes")
  else
    let collStart := fixed
    let didStart := collStart + sums.coll
    let rkeyStart := didStart + sums.did
    let revStart := rkeyStart + sums.rkey
    let payloadStart := revStart + sums.rev
    .ok { n, fixed, collStart, didStart, rkeyStart, revStart, payloadStart }

/-- The layout of a block that is consistent. -/
def parse (body : Bytes) : Except Halt BlockLayout := do
  let n ← readU32 body 0
  if n = 0 then
    if body.length ≠ 4 then Halt.fail (.corruptSegment "empty block has trailing bytes")
    else
      .ok { n, fixed := 4, collStart := 4, didStart := 4, rkeyStart := 4, revStart := 4,
            payloadStart := 4 }
  else if n > maxBlockEvents then Halt.fail (.limitExceeded "block events" n maxBlockEvents)
  else
    let fixed ← ofOption (.error (.corruptSegment "fixed region size overflow"))
      ((checkedMul n fixedPerEvent).bind fun v => checkedAdd v 4)
    if body.length < fixed then Halt.fail (.truncated "block fixed columns")
    else
      let seqOff := 4
      let witOff := seqOff + 8 * n
      let idxOff := witOff + 8 * n
      let kindOff := idxOff + 8 * n
      let collLenOff := kindOff + n
      let didLenOff := collLenOff + n
      let rkeyLenOff := didLenOff + 2 * n
      let revLenOff := rkeyLenOff + n
      let plenOff := revLenOff + n
      let sums ← (List.range n).foldlM
        (addLengths body kindOff collLenOff didLenOff rkeyLenOff revLenOff plenOff)
        { coll := 0, did := 0, rkey := 0, rev := 0, payload := 0 }
      ofSums body n fixed sums

/-! ### The rows of a block -/

/-- Where the next row starts in each of the five regions. -/
structure Cursors where
  c : ℕ
  d : ℕ
  k : ℕ
  v : ℕ
  p : ℕ

/-- A column of text, from the region that was validated as a whole if it is one and the column
does not start or end within a character. -/
def column (body : Bytes) (collStart : ℕ) (checkedText : Option Str) (start stop : ℕ) :
    Except Halt TextColumn :=
  if start < collStart ∨ stop < collStart then .error .panic
  else match checkedText.bind fun text => text.get (start - collStart) (stop - collStart) with
    | some text => .ok (.checked text)
    | none => do
        let b ← slice body start stop
        .ok (.raw b)

/-- The chunks of a row in the columns that are cut into chunks: the sequence number, both times,
the length of the DID and that of the payload. -/
abbrev Chunks := (((Bytes × Bytes) × Bytes) × Bytes) × Bytes

/-- A number of 64 bits from its bytes. -/
def fromLeBytes (bs : Bytes) : UInt64 := UInt64.ofNat (ofLe bs)

/-- The row `i`, its payload, and where the row after it starts. -/
def readRow (body : Bytes) (kindOff collLenOff rkeyLenOff revLenOff : ℕ)
    (column : ℕ → ℕ → Except Halt TextColumn) (i : ℕ) (at_ : Cursors) :
    Chunks → Except Halt (Columns × Bytes × Cursors)
  | ((((seq, wit), idx), dl), pl) => do
      let cl := (← byteAt body (collLenOff + i)).toNat
      let dl := ofLe dl
      let kl := (← byteAt body (rkeyLenOff + i)).toNat
      let vl := (← byteAt body (revLenOff + i)).toNat
      let pl := ofLe pl
      let kind ← (SegmentKind.fromU8 (← byteAt body (kindOff + i))).mapError Halt.error
      let collection ← column at_.c (at_.c + cl)
      let did ← column at_.d (at_.d + dl)
      let rkey ← column at_.k (at_.k + kl)
      let rev ← column at_.v (at_.v + vl)
      let columns : Columns :=
        { seq := fromLeBytes seq, witnessedAt := (fromLeBytes wit).toInt64,
          indexedAt := (fromLeBytes idx).toInt64, kind, collection, did, rkey, rev }
      let payload ← slice body at_.p (at_.p + pl)
      .ok (columns, payload,
        { c := at_.c + cl, d := at_.d + dl, k := at_.k + kl, v := at_.v + vl, p := at_.p + pl })

/-- Visit the rows from `i` on, one after the other, up to the first that cannot be read. -/
def visitRows {σ : Type} (n : ℕ) (read : ℕ → Cursors → Chunks → Except Halt (Columns × Bytes × Cursors))
    (visit : ℕ → Columns → Bytes → σ → σ) : ℕ → Cursors → List Chunks → σ → Except Halt Unit × σ
  | _, _, [], s => (.ok (), s)
  | i, at_, chunk :: chunks, s =>
      match read i at_ chunk with
      | .error e => (.error e, s)
      | .ok (columns, payload, next) =>
          visitRows n read visit (i + 1) next chunks (visit n columns payload s)

/-- Visit the rows of a block of this layout. -/
def visit [SimdUtf8] {σ : Type} (l : BlockLayout) (body : Bytes)
    (visit : ℕ → Columns → Bytes → σ → σ) (s : σ) : Except Halt Unit × σ :=
  let n := l.n
  if n = 0 then (.ok (), s)
  else
    let seqOff := 4
    let witOff := seqOff + 8 * n
    let idxOff := witOff + 8 * n
    let kindOff := idxOff + 8 * n
    let collLenOff := kindOff + n
    let didLenOff := collLenOff + n
    let rkeyLenOff := didLenOff + 2 * n
    let revLenOff := rkeyLenOff + n
    let plenOff := revLenOff + n
    let chunks : Except Halt (Option Str × List Chunks) := do
      let checkedText := SimdUtf8.fromUtf8 (← slice body l.collStart l.payloadStart)
      let seqs := (← slice body seqOff witOff).asChunks 8
      let witnessed := (← slice body witOff idxOff).asChunks 8
      let indexed := (← slice body idxOff kindOff).asChunks 8
      let didLens := (← slice body didLenOff rkeyLenOff).asChunks 2
      let payloadLens := (← slice body plenOff l.fixed).asChunks 4
      .ok (checkedText, (((seqs.zip witnessed).zip indexed).zip didLens).zip payloadLens)
    match chunks with
    | .error e => (.error e, s)
    | .ok (checkedText, chunks) =>
        visitRows n
          (readRow body kindOff collLenOff rkeyLenOff revLenOff (column body l.collStart checkedText))
          visit 0
          { c := l.collStart, d := l.didStart, k := l.rkeyStart, v := l.revStart,
            p := l.payloadStart } chunks s

end BlockLayout

/-- Check the layout of a block and visit its rows. -/
def visitBlock [SimdUtf8] {σ : Type} (body : Bytes) (visit : ℕ → Columns → Bytes → σ → σ) (s : σ) :
    Except Halt Unit × σ :=
  match BlockLayout.parse body with
  | .error e => (.error e, s)
  | .ok layout => layout.visit body visit s

/-- The row of some columns and a payload. -/
def Columns.toRaw (row : Columns) (payload : Bytes) : RawEvent where
  seq := row.seq
  witnessedAt := row.witnessedAt
  indexedAt := row.indexedAt
  kind := row.kind
  collection := row.collection.bytes
  did := row.did.bytes
  rkey := row.rkey.bytes
  rev := row.rev.bytes
  payload

/-- The rows of a block. -/
def decodeBlock [SimdUtf8] (body : Bytes) : Except Halt (List RawEvent) :=
  match visitBlock body (fun _ row payload events => events ++ [row.toRaw payload]) [] with
  | (.error e, _) => .error e
  | (.ok (), events) => .ok events

end Shrike.Jetstream
