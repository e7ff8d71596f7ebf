import Shrike.Cbor.Decode

/-!
# CAR readers

The three readers of CAR v1 archives: one that pulls bytes from a stream, one over bytes
already in memory, and one that is fed chunks as they arrive.
-/

namespace Shrike.Car

open Cbor

/-- The ways a CAR header can be invalid. -/
inductive HeaderFault where
  | tooLong (len : ℕ)
  | truncated
  | trailingData
  | notMap
  | versionType
  | rootsType
  | rootType
  | missingVersion
  | unsupportedVersion (n : ℕ)
  | missingRoots
  | unexpectedEof
  deriving DecidableEq

/-- The ways a CAR block, or a length prefix, can be invalid. -/
inductive BlockFault where
  | zeroLength
  | tooLong (len : ℕ)
  | tooShort
  | truncatedData
  | truncatedVarint
  | nonMinimalVarint
  | varintTooLong
  | cidMismatch (stored computed : Cid)
  | duplicate (cid : Cid)
  deriving DecidableEq

/-- The errors of the readers. -/
inductive CarError where
  | invalidHeader (f : HeaderFault)
  | invalidBlock (f : BlockFault)
  | cbor (e : Cbor.Error)
  deriving DecidableEq

/-- A block of a CAR. -/
structure Block where
  cid : Cid
  data : Bytes
  deriving DecidableEq

/-- The size a header may have: 1 MiB. -/
def maxHeaderSize : ℕ := 2 ^ 20

/-- The size a block may have, CID included: 128 MiB. -/
def maxBlockSize : ℕ := 128 * 2 ^ 20

/-- The bytes of the CID that a block starts with. -/
def cidLen : ℕ := 36

/-- Check the length prefix of a header. -/
def checkHeaderLen (len : ℕ) : Except CarError ℕ :=
  if len > maxHeaderSize then .error (.invalidHeader (.tooLong len)) else .ok len

/-- Check the length prefix of a block. -/
def checkBlockLen (len : ℕ) : Except CarError ℕ :=
  if len = 0 then .error (.invalidBlock .zeroLength)
  else if len > maxBlockSize then .error (.invalidBlock (.tooLong len))
  else if len < cidLen then .error (.invalidBlock .tooShort)
  else .ok len

/-- The CID that a block starts with. -/
def parseCid (bs : Bytes) : Except CarError Cid :=
  match Cid.fromBytes bs with
  | .ok c => .ok c
  | .error e => .error (.cbor (.cid e))

/-! ### The header -/

/-- The CIDs of the items of an array. -/
def rootCids : List Value → Except CarError (List Cid)
  | [] => .ok []
  | .cid c :: items => do
      let cids ← rootCids items
      .ok (c :: cids)
  | _ => .error (.invalidHeader .rootType)

/-- The fields of a header read so far: the version and the roots. -/
abbrev HeaderFields := Option ℕ × Option (List Cid)

/-- Read a field of a header. Unknown fields are ignored. -/
def readHeaderField (fields : HeaderFields) (entry : Bytes × Value) :
    Except CarError HeaderFields :=
  if entry.1 = [0x76, 0x65, 0x72, 0x73, 0x69, 0x6f, 0x6e] then
    match entry.2 with
    | .unsigned n => .ok (some n, fields.2)
    | _ => .error (.invalidHeader .versionType)
  else if entry.1 = [0x72, 0x6f, 0x6f, 0x74, 0x73] then
    match entry.2 with
    | .array items => do
        let cids ← rootCids items
        .ok (fields.1, some cids)
    | _ => .error (.invalidHeader .rootsType)
  else .ok fields

/-- The roots that a header declares: a map with the version 1 and a list of CIDs. -/
def decodeHeader (buf : Bytes) : Except CarError (List Cid) :=
  match decodeValue maxDepth buf with
  | .error e => .error (.cbor e)
  | .ok (val, rest) =>
      if rest ≠ [] then .error (.invalidHeader .trailingData)
      else match val with
        | .map entries =>
            match entries.foldlM readHeaderField (none, none) with
            | .error e => .error e
            | .ok (version, roots) =>
                match version with
                | none => .error (.invalidHeader .missingVersion)
                | some n =>
                    if n ≠ 1 then .error (.invalidHeader (.unsupportedVersion n))
                    else match roots with
                      | none => .error (.invalidHeader .missingRoots)
                      | some roots => .ok roots
        | _ => .error (.invalidHeader .notMap)

/-! ### Length prefixes -/

/-- Fold byte `i` of a varint into its value. Returns the value and whether the varint is
complete. A varint has at most nine bytes, and no more than it needs. -/
def varintStep (value i : ℕ) (byte : UInt8) : Except CarError (ℕ × Bool) :=
  let value := value ||| (byte.toNat % 128) <<< (7 * i)
  if byte < 0x80 then
    if 0 < i ∧ byte = 0 then .error (.invalidBlock .nonMinimalVarint) else .ok (value, true)
  else if i = 8 then .error (.invalidBlock .varintTooLong)
  else .ok (value, false)

/-- The varint that a byte string starts with, after `i` bytes that spell `value`, and the
number of its bytes. There is none if the bytes end before the varint does. -/
def varintFrom (value i : ℕ) : Bytes → Except CarError (Option (ℕ × ℕ))
  | [] => .ok none
  | byte :: bs => do
      let (value, complete) ← varintStep value i byte
      if complete then .ok (some (value, i + 1)) else varintFrom value (i + 1) bs

/-- The varint that a byte string starts with, and the number of its bytes. -/
def varintFromSlice (bs : Bytes) : Except CarError (Option (ℕ × ℕ)) := varintFrom 0 0 bs

/-! ### Reading until the end -/

/-- Take blocks until there is none or an error. Returns the blocks, the error and the
reader. -/
def collect {σ : Type} (next : σ → Except CarError (Option Block) × σ) :
    ℕ → σ → List Block × Option CarError × σ
  | 0, s => ([], none, s)
  | n + 1, s =>
      match next s with
      | (.error e, s) => ([], some e, s)
      | (.ok none, s) => ([], none, s)
      | (.ok (some block), s) =>
          let (blocks, e, s) := collect next n s
          (block :: blocks, e, s)

/-- What a reader made of its input: the roots, the blocks, and whether the input was
accepted. -/
structure Outcome where
  roots : Option (List Cid)
  blocks : List Block
  accepted : Bool
  deriving DecidableEq

/-! ### The streaming reader -/

/-- The reader over the bytes that are still to come. -/
structure Reader where
  reader : Bytes
  roots : List Cid

namespace Reader

/-- Read a varint byte by byte, after `i` bytes that spell `value`. There is none if the input
ends before its first byte. -/
def readVarintFrom (value i : ℕ) : Bytes → Except CarError (Option ℕ × Bytes)
  | [] => if i = 0 then .ok (none, []) else .error (.invalidBlock .truncatedVarint)
  | byte :: bs => do
      let (value, complete) ← varintStep value i byte
      if complete then .ok (some value, bs) else readVarintFrom value (i + 1) bs

/-- Read a varint, or nothing at the end of the input. -/
def readVarintEof (bs : Bytes) : Except CarError (Option ℕ × Bytes) := readVarintFrom 0 0 bs

/-- Read a varint. -/
def readVarint (bs : Bytes) : Except CarError (ℕ × Bytes) :=
  match readVarintEof bs with
  | .error e => .error e
  | .ok (some n, bs) => .ok (n, bs)
  | .ok (none, _) => .error (.invalidHeader .unexpectedEof)

/-- Read the header. -/
def new (bs : Bytes) : Except CarError Reader := do
  let (len, bs) ← readVarint bs
  let len ← checkHeaderLen len
  if bs.length < len then .error (.invalidHeader .truncated)
  else
    let roots ← decodeHeader (bs.take len)
    .ok { reader := bs.drop len, roots }

/-- Read the next block and the bytes after it, or nothing at the end of the input. -/
def nextBlockInto (bs : Bytes) : Except CarError (Option (Block × Bytes)) := do
  match ← readVarintEof bs with
  | (none, _) => .ok none
  | (some len, bs) =>
      let len ← checkBlockLen len
      if bs.length < cidLen then .error (.invalidBlock .truncatedData)
      else
        let cid ← parseCid (bs.take cidLen)
        let data := (bs.drop cidLen).take (len - cidLen)
        if data.length ≠ len - cidLen then .error (.invalidBlock .truncatedData)
        else .ok (some ({ cid, data }, (bs.drop cidLen).drop (len - cidLen)))

/-- Read the next block, or nothing at the end of the input. -/
def nextBlock (r : Reader) : Except CarError (Option Block) × Reader :=
  match nextBlockInto r.reader with
  | .error e => (.error e, r)
  | .ok none => (.ok none, r)
  | .ok (some (block, bs)) => (.ok (some block), { r with reader := bs })

/-- What the reader makes of its input. -/
def run (bs : Bytes) : Outcome :=
  match new bs with
  | .error _ => { roots := none, blocks := [], accepted := false }
  | .ok r =>
      let (blocks, e, r') := collect nextBlock (r.reader.length + 1) r
      { roots := some r'.roots, blocks, accepted := e.isNone }

end Reader

/-- The roots and the blocks of a whole CAR, from a stream. -/
def readAll (bs : Bytes) : Except CarError (List Cid × List Block) := do
  let car ← Reader.new bs
  let (blocks, e, _) := collect Reader.nextBlock (car.reader.length + 1) car
  match e with
  | some e => .error e
  | none => .ok (car.roots, blocks)

/-! ### The reader over bytes in memory -/

/-- The reader over the bytes not read yet. -/
structure SliceReader where
  rest : Bytes
  roots : List Cid

namespace SliceReader

/-- Read the header. -/
def new (car : Bytes) : Except CarError SliceReader := do
  match ← varintFromSlice car with
  | none =>
      if car = [] then .error (.invalidHeader .unexpectedEof)
      else .error (.invalidBlock .truncatedVarint)
  | some (len, skip) =>
      let len ← checkHeaderLen len
      if (car.drop skip).length < len then .error (.invalidHeader .truncated)
      else
        let roots ← decodeHeader ((car.drop skip).take len)
        .ok { rest := (car.drop skip).drop len, roots }

/-- The length prefix of a block, with the short way for those of one or two bytes. -/
def blockPrefix (buf : Bytes) : Except CarError (ℕ × ℕ) :=
  let general : Except CarError (ℕ × ℕ) := do
    match ← varintFromSlice buf with
    | none => .error (.invalidBlock .truncatedVarint)
    | some v => .ok v
  match buf with
  | b₀ :: bs =>
      if b₀ < 0x80 then .ok (b₀.toNat, 1)
      else match bs with
        | b₁ :: _ =>
            if b₁ < 0x80 ∧ b₁ ≠ 0 then .ok (b₀.toNat % 128 ||| b₁.toNat <<< 7, 2)
            else general
        | [] => general
  | [] => general

/-- Split off the first block of the bytes not read yet. -/
def splitBlock (buf : Bytes) : Except CarError (Block × Bytes) := do
  let (len, skip) ← blockPrefix buf
  let len ← checkBlockLen len
  let frame := buf.drop skip
  if frame.length < cidLen then .error (.invalidBlock .truncatedData)
  else
    let cid ← parseCid (frame.take cidLen)
    if frame.length < len then .error (.invalidBlock .truncatedData)
    else .ok ({ cid, data := (frame.take len).drop cidLen }, frame.drop len)

/-- The next block, or nothing at the end of the input. Nothing is read after an error. -/
def nextBlock (r : SliceReader) : Except CarError (Option Block) × SliceReader :=
  if r.rest = [] then (.ok none, r)
  else match splitBlock r.rest with
    | .error e => (.error e, { r with rest := [] })
    | .ok (block, rest) => (.ok (some block), { r with rest })

/-- What the reader makes of its input. -/
def run (bs : Bytes) : Outcome :=
  match new bs with
  | .error _ => { roots := none, blocks := [], accepted := false }
  | .ok r =>
      let (blocks, e, r') := collect nextBlock (r.rest.length + 1) r
      { roots := some r'.roots, blocks, accepted := e.isNone }

end SliceReader

/-- The roots and the blocks of a whole CAR. -/
def readSlice (car : Bytes) : Except CarError (List Cid × List Block) := do
  let reader ← SliceReader.new car
  let (blocks, e, _) := collect SliceReader.nextBlock (reader.rest.length + 1) reader
  match e with
  | some e => .error e
  | none => .ok (reader.roots, blocks)

/-! ### The reader of chunks -/

/-- The reader over the bytes that have arrived, of which those before `pos` are read. -/
structure IncrementalReader where
  buf : Bytes
  pos : ℕ
  roots : Option (List Cid)

namespace IncrementalReader

/-- The reader before anything has arrived. -/
def new : IncrementalReader := { buf := [], pos := 0, roots := none }

/-- Append a chunk. -/
def push (r : IncrementalReader) (chunk : Bytes) : IncrementalReader :=
  { r with buf := r.buf.drop r.pos ++ chunk, pos := 0 }

/-- The next frame, if all of it has arrived: where it starts and where it ends. -/
def nextFrame (r : IncrementalReader) (checkLen : ℕ → Except CarError ℕ) :
    Except CarError (Option (ℕ × ℕ)) := do
  let rest := r.buf.drop r.pos
  match ← varintFromSlice rest with
  | none => .ok none
  | some (len, skip) =>
      let len ← checkLen len
      if rest.length - skip < len then .ok none
      else .ok (some (r.pos + skip, r.pos + skip + len))

/-- Read the header, if it has not been read yet. Returns whether it has arrived. -/
def readHeader (r : IncrementalReader) : Except CarError Bool × IncrementalReader :=
  match r.roots with
  | some _ => (.ok true, r)
  | none =>
      match r.nextFrame checkHeaderLen with
      | .error e => (.error e, r)
      | .ok none => (.ok false, r)
      | .ok (some (start, stop)) =>
          match decodeHeader ((r.buf.take stop).drop start) with
          | .error e => (.error e, { r with pos := stop })
          | .ok roots => (.ok true, { r with pos := stop, roots := some roots })

/-- The next block, if all of it has arrived. -/
def nextBlock (r : IncrementalReader) : Except CarError (Option Block) × IncrementalReader :=
  match r.readHeader with
  | (.error e, r) => (.error e, r)
  | (.ok false, r) => (.ok none, r)
  | (.ok true, r) =>
      match r.nextFrame checkBlockLen with
      | .error e => (.error e, r)
      | .ok none => (.ok none, r)
      | .ok (some (start, stop)) =>
          let frame := (r.buf.take stop).drop start
          match parseCid (frame.take cidLen) with
          | .error e => (.error e, { r with pos := stop })
          | .ok cid => (.ok (some { cid, data := frame.drop cidLen }), { r with pos := stop })

/-- The length of the data of the next block, once its length prefix has arrived. -/
def nextBlockDataLen (r : IncrementalReader) : Except CarError (Option ℕ) × IncrementalReader :=
  match r.readHeader with
  | (.error e, r) => (.error e, r)
  | (.ok false, r) => (.ok none, r)
  | (.ok true, r) =>
      match varintFromSlice (r.buf.drop r.pos) with
      | .error e => (.error e, r)
      | .ok none => (.ok none, r)
      | .ok (some (len, _)) =>
          match checkBlockLen len with
          | .error e => (.error e, r)
          | .ok len => (.ok (some (len - cidLen)), r)

/-- Check that the input ended cleanly. -/
def finish (r : IncrementalReader) : Except CarError Unit :=
  let rest := r.buf.drop r.pos
  if r.roots.isNone then
    .error (.invalidHeader (if rest = [] then .unexpectedEof else .truncated))
  else if rest = [] then .ok ()
  else match varintFromSlice rest with
    | .error e => .error e
    | .ok (some _) => .error (.invalidBlock .truncatedData)
    | .ok none => .error (.invalidBlock .truncatedVarint)

/-- Take all blocks that have arrived. -/
def drain (r : IncrementalReader) : List Block × Option CarError × IncrementalReader :=
  collect nextBlock (r.buf.length + 1) r

/-- Push the chunks one after the other, taking all blocks that have arrived after each, up to
the first error. -/
def feed : IncrementalReader → List Bytes → List Block × Option CarError × IncrementalReader
  | r, [] => ([], none, r)
  | r, chunk :: chunks =>
      match (r.push chunk).drain with
      | (blocks, some e, r) => (blocks, some e, r)
      | (blocks, none, r) =>
          let (more, e, r) := feed r chunks
          (blocks ++ more, e, r)

/-- What the reader makes of its input, cut into chunks. -/
def run (chunks : List Bytes) : Outcome :=
  match new.feed chunks with
  | (blocks, some _, r) => { roots := r.roots, blocks, accepted := false }
  | (blocks, none, r) => { roots := r.roots, blocks, accepted := r.finish.isOk }

end IncrementalReader

end Shrike.Car
