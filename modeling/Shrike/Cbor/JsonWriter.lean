import Shrike.Cbor.Decoder
import Shrike.Cbor.Json
import Shrike.Cbor.JsonString

/-!
# DRISL to JSON in one pass

The writer that turns DRISL into JSON text as it decodes, without a tree of either. The entries of a
map are written as they come, each with a comma behind it, and then sorted in place.
-/

namespace Shrike.Cbor

open Bytes Stateful Decoder

/-- What was written, and the first float, an error only once the whole input has decoded. -/
structure JsonWriter where
  out : Bytes
  float : Option ℕ

/-- Something written while something is decoded. -/
abbrev Writing (α : Type) := Stateful (JsonWriter × Decoder) Error α

/-- Decode something. -/
def decoding {α : Type} (m : Decoding α) : Writing α := fun s =>
  let (a, d) := m s.2
  (a, (s.1, d))

/-- Change the output. -/
def output (f : Bytes → Bytes) : Writing Unit :=
  update fun s => ({ s.1 with out := f s.1.out }, s.2)

/-- Write a byte. -/
def push (b : UInt8) : Writing Unit := output fun out => out ++ [b]

/-! ### Entries -/

/-- A map entry, `"key":value,`, between two positions of the output. -/
structure Entry where
  key : Bytes
  start : ℕ
  stop : ℕ

/-- The most entries of a map kept on the stack while it is written. -/
def inlineEntries : ℕ := 8

/-- The order of the first bytes of two keys. -/
def firstCmp : Option UInt8 → Option UInt8 → Ordering
  | none, none => .eq
  | none, some _ => .lt
  | some _, none => .gt
  | some a, some b => compareOfLessAndEq a b

/-- Bytewise order, mostly settled by the first byte. -/
def keyCmp (a b : Bytes) : Ordering := (firstCmp a.head? b.head?).then (compareOfLessAndEq a b)

/-- The entries of a map that is being written. -/
structure MapTable where
  inline : List Entry
  heap : List Entry
  previous : Bytes
  sorted : Bool
  lastKey : Option Bytes

/-- No entries. -/
def MapTable.empty : MapTable where
  inline := List.replicate inlineEntries ⟨[], 0, 0⟩
  heap := []
  previous := []
  sorted := true
  lastKey := none

/-- Keep the entry of index `i` of a map of `len` entries. -/
def MapTable.keep (len i : ℕ) (entry : Entry) (table : MapTable) : MapTable :=
  if i < table.inline.length ∧ len ≤ inlineEntries then
    { table with inline := table.inline.set i entry }
  else { table with heap := table.heap ++ [entry] }

/-- The entries of a map of `len` entries. -/
def MapTable.entries (len : ℕ) (table : MapTable) : List Entry :=
  if len ≤ inlineEntries then table.inline.take len else table.heap

/-- Rewrite the entries of a map, which end the output, in the order of their keys: copied in order
past the end of the output, then back over the originals. -/
def rewriteEntries (entries : List Entry) (out : Bytes) : Bytes :=
  match entries with
  | [] => out
  | entry :: _ =>
      let start := entry.start
      let stop := out.length
      let sorted := entries.insertionSort (fun a b => keyCmp a.key b.key ≠ .gt)
      let out := sorted.foldl (fun out e => out ++ (out.take e.stop).drop e.start) out
      let copies := out.drop stop
      (out.take start ++ copies ++ out.drop (start + copies.length)).take stop

/-- The last comma becomes the bracket. -/
def close (len : ℕ) (bracket : UInt8) : Writing Unit :=
  output fun out => (if 0 < len then out.dropLast else out) ++ [bracket]

/-! ### Values -/

variable [DataEncoding]

/-- Write a value that is not an array or map. -/
def writeScalar (w : JsonWriter) : Value → JsonWriter
  | .unsigned n => { w with out := writeU64 w.out n }
  | .signed i =>
      { w with out := writeU64 (if i < 0 then w.out ++ [char '-'] else w.out) i.natAbs }
  | .float bits => { w with float := w.float.or (some bits) }
  | .bool b => { w with out := w.out ++ ascii (if b then "true" else "false") }
  | .null => { w with out := w.out ++ ascii "null" }
  | .text s => { w with out := writeStr w.out s }
  | .bytes b =>
      { w with out := w.out ++ 0x7b :: ascii "\"$bytes\":\"" ++ DataEncoding.base64 b
          ++ [0x22, 0x7d] }
  | .cid c =>
      { w with out := w.out ++ 0x7b :: ascii "\"$link\":\"" ++ cidToString c ++ [0x22, 0x7d] }
  | .array _ => w
  | .map _ => w

/-- Write the entry of index `i` of a map of `len` entries, its value by `writeValue`. -/
def writeEntry (writeValue : Writing Unit) (len i : ℕ) (table : MapTable) : Writing MapTable := do
  let (key, encoded) ← decoding (readMapKeyUtf8 table.previous)
  let before ← current
  output fun out => writeStr out key
  push (char ':')
  writeValue
  push (char ',')
  let after ← current
  let table := table.keep len i ⟨key, before.1.out.length, after.1.out.length⟩
  pure { table with
    previous := encoded
    sorted := table.sorted && table.lastKey.all fun last => keyCmp last key = .lt
    lastKey := some key }

/-- Write the last entries of a map of `len` entries, from index `i` on. -/
def writeEntriesFrom (writeValue : Writing Unit) (len : ℕ) : ℕ → ℕ → MapTable → Writing MapTable
  | 0, _, table => pure table
  | n + 1, i, table => do
      let table ← writeEntry writeValue len i table
      writeEntriesFrom writeValue len n (i + 1) table

/-- Write an item of an array. -/
def writeItemThen (writeValue : Writing Unit) : Writing Unit := do
  writeValue
  push (char ',')

/-- Write a value, the values inside it by `writeValue`. -/
def writeValueBody (writeValue : Writing Unit) : Writing Unit := do
  let shallow ← decoding decodeShallow
  match shallow with
  | .text s => output fun out => writeStr out s
  | .scalar v => update fun s => (writeScalar s.1 v, s.2)
  | .array len => do
      push (char '[')
      let _ ← times (writeItemThen writeValue) len
      decoding leave
      close len (char ']')
  | .map len => do
      push 0x7b
      let table ← writeEntriesFrom writeValue len len 0 .empty
      decoding leave
      if table.sorted then pure () else output (rewriteEntries (table.entries len))
      close len 0x7d

/-- Write a value. -/
def writeJson : Writing Unit := writeValueBody^[maxDepth + 1] (fail .maxDepth)

/-- Write the single value that some bytes encode. -/
def writeDocument (bytes out : Bytes) : Except JsonError Unit × Bytes :=
  match writeJson (⟨out, none⟩, Decoder.new bytes) with
  | (.error e, w, _) => (.error (.cbor e), w.out)
  | (.ok (), w, dec) =>
      if !dec.isEmpty then (.error (.cbor .trailingData), w.out)
      else
        match w.float with
        | some bits => (.error (.dataModel (.float bits)), w.out)
        | none => (.ok (), w.out)

/-- Convert DRISL to JSON text, appended to `out`. If it fails, `out` is cut to what it was. -/
def drislToJsonInto (bytes out : Bytes) : Except JsonError Unit × Bytes :=
  match writeDocument bytes out with
  | (.ok (), out) => (.ok (), out)
  | (.error e, out') => (.error e, out'.take out.length)

end Shrike.Cbor
