import Shrike.Cbor.Decode
import Shrike.Data.Stateful

/-!
# The decoder and its positions

The decoder as the program keeps it, a buffer with a position and a nesting depth, and the four ways
it reads a value: whole, into an arena, entry by entry of a map, and level by level.

A recursive function of the program is given by its body, with a parameter for the calls to itself,
and by as many rounds of the body as the nesting limit lets it make.
-/

namespace Shrike.Cbor

open Stateful

/-- A strict decoder of an input, with how far it has come and how deep. -/
structure Decoder where
  buf : Bytes
  pos : ℕ
  depth : ℕ

/-- Something a decoder reads. -/
abbrev Decoding (α : Type) := Stateful Decoder Error α

namespace Decoder

/-- A decoder at the start of an input. -/
def new (buf : Bytes) : Decoder where
  buf := buf
  pos := 0
  depth := 0

/-- The number of bytes that are left. -/
def remaining (d : Decoder) : ℕ := d.buf.length - d.pos

/-- Whether all input was read. -/
def isEmpty (d : Decoder) : Bool := d.buf.length ≤ d.pos

/-! ### Bytes and arguments -/

/-- The next byte. -/
def readByte : Decoding UInt8 := fun d =>
  match d.buf[d.pos]? with
  | none => (.error .unexpectedEnd, d)
  | some b => (.ok b, { d with pos := d.pos + 1 })

/-- The next `len` bytes. -/
def readSlice (len : ℕ) : Decoding Bytes := fun d =>
  if d.buf.length < d.pos + len then (.error .unexpectedEnd, d)
  else (.ok ((d.buf.drop d.pos).take len), { d with pos := d.pos + len })

/-- The next `n` bytes, as a number. -/
def readFixed (n : ℕ) : Decoding ℕ := do
  let bytes ← readSlice n
  pure (Bytes.ofBe bytes)

/-- An argument of `k` bytes, which must exceed what fewer bytes can hold. -/
def readWide (k limit : ℕ) : Decoding ℕ := do
  let val ← readFixed k
  if val ≤ limit then fail (.nonMinimal val) else pure val

/-- The argument of a head with the given additional information, minimally encoded. -/
def readArgument (additional : ℕ) : Decoding ℕ :=
  if additional ≤ 23 then pure additional
  else if additional = 24 then do
    let val ← readByte
    if val.toNat < 24 then fail (.nonMinimal val.toNat) else pure val.toNat
  else if additional = 25 then readWide 2 255
  else if additional = 26 then readWide 4 65535
  else if additional = 27 then readWide 8 4294967295
  else if additional ≤ 30 then fail (.reserved additional)
  else fail .indefinite

/-- The bytes of a string with the given additional information. -/
def readString (additional : ℕ) : Decoding Bytes := do
  let len ← readArgument additional
  readSlice len

/-- The length of an array or map with the given additional information. -/
def collectionLen (additional : ℕ) (tooLong : Error) : Decoding ℕ := do
  let len ← readArgument additional
  if maxCollectionLen < len then fail tooLong else pure len

/-- The CID that the byte string after tag 42 spells. -/
def readTag42Body : Decoding Cid := do
  let inner ← readByte
  if inner.toNat / 32 ≠ 2 then fail .tagBody
  else
    let body ← readString (inner.toNat % 32)
    match Cid.fromTag42Bytes body with
    | .ok c => pure c
    | .error e => fail (.cid e)

/-- One level deeper. -/
def deepen : Decoding Unit := update fun d => { d with depth := d.depth + 1 }

/-- Leave an array or map. -/
def leave : Decoding Unit := update fun d => { d with depth := d.depth - 1 }

/-- Text that is UTF-8. -/
def checkText (bytes : Bytes) : Decoding Bytes :=
  if Bytes.utf8 bytes then pure bytes else fail .utf8

/-- Text that is UTF-8, which ASCII passes quickly. -/
def checkUtf8 (bytes : Bytes) : Decoding Bytes :=
  if bytes.all (· < 0x80) ∨ Bytes.utf8 bytes then pure bytes else fail .utf8

/-! ### Map keys -/

/-- The bytes of a map key, which is text. -/
def readKeyText : Decoding Bytes := do
  let byte ← readByte
  if byte.toNat / 32 ≠ 3 then fail .keyType else readString (byte.toNat % 32)

/-- The encoding of a key must follow the encoding `prev` of the key before. -/
def checkOrder (prev encoded : Bytes) : Decoding Unit :=
  if prev ≠ [] ∧ encoded < prev then fail .keyOrder
  else if prev ≠ [] ∧ prev = encoded then fail .duplicateKey
  else pure ()

/-- The bytes of a map key with its encoding, which must follow the encoding `prev` of the key
before. -/
def readMapKeyBytes (prev : Bytes) : Decoding (Bytes × Bytes) := do
  let start ← current
  let key ← readKeyText
  let after ← current
  let encoded := (after.buf.take after.pos).drop start.pos
  checkOrder prev encoded
  pure (key, encoded)

/-- A map key, as text. -/
def readMapKey (prev : Bytes) : Decoding (Bytes × Bytes) := do
  let (key, encoded) ← readMapKeyBytes prev
  let key ← checkText key
  pure (key, encoded)

/-- A map key, as bytes checked to be UTF-8. -/
def readMapKeyUtf8 (prev : Bytes) : Decoding (Bytes × Bytes) := do
  let (key, encoded) ← readMapKeyBytes prev
  let key ← checkUtf8 key
  pure (key, encoded)

/-- The entries of a map of the given length after the key encoded as `prev`. -/
def readEntries (readKey : Bytes → Decoding (Bytes × Bytes)) (readValue : Decoding Value) :
    ℕ → Bytes → Decoding (List (Bytes × Value))
  | 0, _ => pure []
  | n + 1, prev => do
      let (key, encoded) ← readKey prev
      let value ← readValue
      let entries ← readEntries readKey readValue n encoded
      pure ((key, value) :: entries)

/-! ### A whole value -/

/-- The simple value or float with the given additional information. -/
def decodeSimple (additional : ℕ) : Decoding Value :=
  if additional = 20 then pure (.bool false)
  else if additional = 21 then pure (.bool true)
  else if additional = 22 then pure .null
  else if additional = 25 then fail .halfFloat
  else if additional = 26 then fail .singleFloat
  else if additional = 27 then do
    let bits ← readFixed 8
    if isNan bits then fail .nan
    else if !isFinite bits then fail .infinity
    else pure (.float bits)
  else if additional = 31 then fail .indefinite
  else fail (.simpleValue additional)

/-- A value after its first byte, where `readArray` and `readMap` read arrays and maps from their
additional information. -/
def decodeMajor (readArray readMap : ℕ → Decoding Value) (byte : UInt8) : Decoding Value :=
  let additional := byte.toNat % 32
  match byte.toNat / 32 with
  | 0 => do
      let n ← readArgument additional
      if n > 2 ^ 63 - 1 then fail .unsignedRange else pure (.unsigned n)
  | 1 => do
      let n ← readArgument additional
      if n ≤ 2 ^ 63 - 1 then pure (.signed (-1 - n)) else fail .negativeRange
  | 2 => do
      let b ← readString additional
      pure (.bytes b)
  | 3 => do
      let s ← readString additional
      let s ← checkText s
      pure (.text s)
  | 4 => readArray additional
  | 5 => readMap additional
  | 6 => do
      let tag ← readArgument additional
      if tag ≠ 42 then fail (.tag tag)
      else
        let c ← readTag42Body
        pure (.cid c)
  | _ => decodeSimple additional

/-- An array: the depth grows after its length was read. -/
def decodeArray (decode : Decoding Value) (additional : ℕ) : Decoding Value := do
  let len ← collectionLen additional .arrayLength
  deepen
  let items ← times decode len
  leave
  pure (.array items)

/-- A map: the depth grows before its length is read. -/
def decodeMap (decode : Decoding Value) (additional : ℕ) : Decoding Value := do
  deepen
  let len ← collectionLen additional .mapLength
  let entries ← readEntries readMapKey decode len []
  leave
  pure (.map entries)

/-- One value, where `decode` reads the values inside it. -/
def decodeBody (decode : Decoding Value) : Decoding Value := do
  let d ← current
  if maxDepth ≤ d.depth then fail .maxDepth
  else
    let byte ← readByte
    decodeMajor (decodeArray decode) (decodeMap decode) byte

/-- One value. -/
def decode : Decoding Value := decodeBody^[maxDepth + 1] (fail .maxDepth)

/-! ### A value in an arena -/

/-- A map key of a value in an arena, which is checked to be UTF-8 before its order is. -/
def readMapKeyBump (prev : Bytes) : Decoding (Bytes × Bytes) := do
  let start ← current
  let key ← readKeyText
  let key ← checkText key
  let after ← current
  let encoded := (after.buf.take after.pos).drop start.pos
  checkOrder prev encoded
  pure (key, encoded)

/-- The length of an array or map in an arena, of which each element takes a byte at least. -/
def collectionLenBump (additional : ℕ) (tooLong beyond : Error) : Decoding ℕ := do
  let len ← collectionLen additional tooLong
  let d ← current
  if d.remaining < len then fail beyond else pure len

/-- An array at a depth. -/
def decodeArrayBump (decode : Decoding Value) (additional : ℕ) : Decoding Value := do
  let len ← collectionLenBump additional .arrayLength .arrayRemaining
  let items ← times decode len
  pure (.array items)

/-- A map at a depth. -/
def decodeMapBump (decode : Decoding Value) (additional : ℕ) : Decoding Value := do
  let len ← collectionLenBump additional .mapLength .mapRemaining
  let entries ← readEntries readMapKeyBump decode len []
  pure (.map entries)

/-- One value at a depth, where `decodeBump` reads the values inside it at theirs. -/
def decodeBumpBody (decodeBump : ℕ → Decoding Value) (depth : ℕ) : Decoding Value :=
  if maxDepth ≤ depth then fail .maxDepth
  else do
    let byte ← readByte
    decodeMajor (decodeArrayBump (decodeBump (depth + 1))) (decodeMapBump (decodeBump (depth + 1)))
      byte

/-- One value at a depth. -/
def decodeBumpInner : ℕ → Decoding Value :=
  decodeBumpBody^[maxDepth + 1] fun _ => fail .maxDepth

/-- One value, with its arrays and maps in an arena. -/
def decodeBump : Decoding Value := decodeBumpInner 0

/-! ### The entries of a map -/

/-- The entries of a map that are still to be read from a decoder, and the depth to go back to. -/
structure MapEntries where
  parentDepth : ℕ
  remaining : ℕ
  previous : Bytes

/-- Begin to read the entries of a map. -/
def mapEntries : Decoding MapEntries := do
  let d ← current
  if maxDepth ≤ d.depth then fail .maxDepth
  else
    let byte ← readByte
    if byte.toNat / 32 ≠ 5 then fail .expectedMap
    else
      let len ← collectionLen (byte.toNat % 32) .mapLength
      deepen
      pure { parentDepth := d.depth, remaining := len, previous := [] }

namespace MapEntries

/-- The next entry, its value read by `decode`. After an error there are no more. -/
def nextWith {α : Type} (decode : Bytes → Decoding α) (it : MapEntries) (d : Decoder) :
    Option (Except Error α) × MapEntries × Decoder :=
  if it.remaining = 0 then (none, it, d)
  else
    match readMapKey it.previous d with
    | (.error e, d) => (some (.error e), { it with remaining := 0 }, d)
    | (.ok (key, encoded), d) =>
        match decode key d with
        | (.error e, d) => (some (.error e), { it with remaining := 0, previous := encoded }, d)
        | (.ok a, d) =>
            (some (.ok a), { it with remaining := it.remaining - 1, previous := encoded }, d)

/-- The next entry. -/
def next (it : MapEntries) (d : Decoder) :
    Option (Except Error (Bytes × Value)) × MapEntries × Decoder :=
  it.nextWith (fun key => do
    let value ← decode
    pure (key, value)) d

theorem remaining_next {it it' : MapEntries} {d d' : Decoder} {e : Bytes × Value}
    (h : it.next d = (some (.ok e), it', d')) :
  it'.remaining < it.remaining
  := by
  rw [next, nextWith] at h
  split at h
  · cases h
  · rename_i hzero
    split at h
    · cases h
    · split at h
      · cases h
      · cases h
        exact Nat.sub_one_lt hzero

/-- All entries, up to the first error. -/
def collect (it : MapEntries) (d : Decoder) : Except Error (List (Bytes × Value)) × Decoder :=
  match _h : it.next d with
  | (none, _, d) => (.ok [], d)
  | (some (.error e), _, d) => (.error e, d)
  | (some (.ok entry), it', d) =>
      match it'.collect d with
      | (.ok entries, d) => (.ok (entry :: entries), d)
      | (.error e, d) => (.error e, d)
termination_by it.remaining
decreasing_by exact remaining_next _h

end MapEntries

/-- All entries of a map. When no more are read the depth is the one it was. -/
def collectEntries : Decoding (List (Bytes × Value)) := fun d =>
  match mapEntries d with
  | (.error e, d) => (.error e, d)
  | (.ok it, d) =>
      let (entries, d) := it.collect d
      (entries, { d with depth := it.parentDepth })

/-! ### Level by level -/

/-- A value without what is inside it: an array or map is given by its length. -/
inductive Shallow where
  | text (s : Bytes)
  | array (len : ℕ)
  | map (len : ℕ)
  | scalar (v : Value)

/-- Enter an array or map. -/
def enter (additional : ℕ) (tooLong : Error) : Decoding ℕ := do
  let len ← collectionLen additional tooLong
  deepen
  pure len

/-- Text, an array or a map after its first byte. -/
def shallowMajor (byte : UInt8) : Decoding Shallow :=
  let additional := byte.toNat % 32
  match byte.toNat / 32 with
  | 3 => do
      let s ← readString additional
      let s ← checkUtf8 s
      pure (.text s)
  | 4 => do
      let len ← enter additional .arrayLength
      pure (.array len)
  | _ => do
      let len ← enter additional .mapLength
      pure (.map len)

/-- One value, entering it if it is an array or map. -/
def decodeShallow : Decoding Shallow := do
  let d ← current
  match d.buf[d.pos]? with
  | some byte =>
      if 0x60 ≤ byte ∧ byte ≤ 0xbf ∧ d.depth < maxDepth then do
        let _ ← readByte
        shallowMajor byte
      else do
        let v ← decode
        pure (.scalar v)
  | none => do
      let v ← decode
      pure (.scalar v)

/-- A whole value read level by level, where `traverse` reads the values inside it. -/
def traverseBody (traverse : Decoding Value) : Decoding Value := do
  let shallow ← decodeShallow
  match shallow with
  | .text s => pure (.text s)
  | .scalar v => pure v
  | .array len => do
      let items ← times traverse len
      leave
      pure (.array items)
  | .map len => do
      let entries ← readEntries readMapKeyUtf8 traverse len []
      leave
      pure (.map entries)

/-- A whole value read level by level. -/
def traverse : Decoding Value := traverseBody^[maxDepth + 1] (fail .maxDepth)

end Decoder

end Shrike.Cbor
