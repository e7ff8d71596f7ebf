import Shrike.Cbor.Cid

/-!
# The strict DRISL decoder

Each reading function takes the unread input and returns what it read with the input left.
The nesting budget of `decodeValue` is how many levels may still be entered.
-/

/-!
## DRISL values and their encoding

The values of DRISL, the deterministic CBOR of AT Protocol, and the encoding of a value
whose maps are in canonical key order, as `write_item` writes it.
-/

namespace Shrike.Cbor

/-- A DRISL value. A float is given by the 64 bits of its representation, text by its
UTF-8 bytes. -/
inductive Value where
  | unsigned (n : ℕ)
  | signed (i : ℤ)
  | float (bits : ℕ)
  | bool (b : Bool)
  | null
  | text (s : Bytes)
  | bytes (b : Bytes)
  | cid (c : Cid)
  | array (items : List Value)
  | map (entries : List (Bytes × Value))

/-- Whether the float with the given bits is finite: its exponent is not all ones. -/
def isFinite (bits : ℕ) : Bool := bits / 2 ^ 52 % 2048 ≠ 2047

/-- Whether the float with the given bits is not a number: an exponent of all ones with a
nonzero fraction. -/
def isNan (bits : ℕ) : Bool := bits / 2 ^ 52 % 2048 = 2047 ∧ bits % 2 ^ 52 ≠ 0

/-- A CBOR head: the major type and the argument, in the fewest bytes. -/
def putHead (major value : ℕ) : Bytes :=
  if value < 24 then [UInt8.ofNat (major * 32 + value)]
  else if value ≤ 255 then UInt8.ofNat (major * 32 + 24) :: Bytes.be 1 value
  else if value ≤ 65535 then UInt8.ofNat (major * 32 + 25) :: Bytes.be 2 value
  else if value ≤ 4294967295 then UInt8.ofNat (major * 32 + 26) :: Bytes.be 4 value
  else UInt8.ofNat (major * 32 + 27) :: Bytes.be 8 value

/-- A text string. -/
def putText (s : Bytes) : Bytes := putHead 3 s.length ++ s

/-- A byte string. -/
def putBytes (b : Bytes) : Bytes := putHead 2 b.length ++ b

/-- A CID: tag 42 around the byte string of its tag 42 body. -/
def putCid (c : Cid) : Bytes := 0xd8 :: 0x2a :: 0x58 :: 0x25 :: c.toTag42Bytes

/-- A CID, or null where there is none. -/
def putCidOrNull : Option Cid → Bytes
  | some c => putCid c
  | none => [0xf6]

/-- The order of two map keys: shorter first, then bytewise. -/
def keyLt (a b : Bytes) : Bool :=
  if a.length ≠ b.length then a.length < b.length else a < b

/-- Why `writeItem` stops: a float is not finite, or a map key is out of order. -/
structure Rejected where

mutual

/-- The encoding of a value, by the pass that does not sort maps. -/
def writeItem : Value → Except Rejected Bytes
  | .unsigned n => .ok (putHead 0 n)
  | .signed i => .ok (if 0 ≤ i then putHead 0 i.toNat else putHead 1 (-1 - i).toNat)
  | .float bits => if isFinite bits then .ok (0xfb :: Bytes.be 8 bits) else .error {}
  | .bool b => .ok [if b then 0xf5 else 0xf4]
  | .null => .ok [0xf6]
  | .text s => .ok (putText s)
  | .bytes b => .ok (putBytes b)
  | .cid c => .ok (putCid c)
  | .array items => do
      let body ← writeItems items
      .ok (putHead 4 items.length ++ body)
  | .map entries => do
      let body ← writeEntries none entries
      .ok (putHead 5 entries.length ++ body)

/-- The encodings of the items of an array, one after the other. -/
def writeItems : List Value → Except Rejected Bytes
  | [] => .ok []
  | v :: vs => do
      let head ← writeItem v
      let rest ← writeItems vs
      .ok (head ++ rest)

/-- The encodings of the entries of a map, one after the other, each key after the one
before it. -/
def writeEntries : Option Bytes → List (Bytes × Value) → Except Rejected Bytes
  | _, [] => .ok []
  | prev, (key, v) :: entries => do
      if prev.any (fun p => !keyLt p key) then .error {}
      let head ← writeItem v
      let rest ← writeEntries (some key) entries
      .ok (putText key ++ head ++ rest)

end

end Shrike.Cbor

/-! ## The strict DRISL decoder -/

namespace Shrike.Cbor

/-- The ways a byte string can fail to be canonical DRISL. -/
inductive Error where
  | maxDepth
  | unexpectedEnd
  | unsignedRange
  | negativeRange
  | utf8
  | arrayLength
  | mapLength
  | keyType
  | keyOrder
  | duplicateKey
  | tag (n : ℕ)
  | tagBody
  | cid (e : Cid.Invalid)
  | halfFloat
  | singleFloat
  | nan
  | infinity
  | indefinite
  | simpleValue (n : ℕ)
  | nonMinimal (n : ℕ)
  | reserved (n : ℕ)
  | trailingData
  | arrayRemaining
  | mapRemaining
  | expectedMap
  deriving DecidableEq

/-- The nesting depth arrays and maps may reach. -/
def maxDepth : ℕ := 64

/-- The number of elements an array or map may have. -/
def maxCollectionLen : ℕ := 500000

/-- The next byte. -/
def readByte : Bytes → Except Error (UInt8 × Bytes)
  | [] => .error .unexpectedEnd
  | b :: bs => .ok (b, bs)

/-- The next `n` bytes. -/
def readSlice (n : ℕ) (bs : Bytes) : Except Error (Bytes × Bytes) :=
  if bs.length < n then .error .unexpectedEnd else .ok (bs.take n, bs.drop n)

/-- A big-endian argument of `k` bytes, which must exceed what fewer bytes can hold. -/
def readWide (k limit : ℕ) (bs : Bytes) : Except Error (ℕ × Bytes) := do
  let (arg, bs) ← readSlice k bs
  let n := Bytes.ofBe arg
  if n ≤ limit then .error (.nonMinimal n) else .ok (n, bs)

/-- The argument of a head with the given additional information, minimally encoded. -/
def readArgument (additional : ℕ) (bs : Bytes) : Except Error (ℕ × Bytes) :=
  if additional ≤ 23 then .ok (additional, bs)
  else if additional = 24 then readWide 1 23 bs
  else if additional = 25 then readWide 2 255 bs
  else if additional = 26 then readWide 4 65535 bs
  else if additional = 27 then readWide 8 4294967295 bs
  else if additional ≤ 30 then .error (.reserved additional)
  else .error .indefinite

/-- The bytes of a string with the given additional information. -/
def readString (additional : ℕ) (bs : Bytes) : Except Error (Bytes × Bytes) := do
  let (len, bs) ← readArgument additional bs
  readSlice len bs

/-- The length of an array or map with the given additional information. -/
def collectionLen (additional : ℕ) (tooLong : Error) (bs : Bytes) :
    Except Error (ℕ × Bytes) := do
  let (len, bs) ← readArgument additional bs
  if len > maxCollectionLen then .error tooLong else .ok (len, bs)

/-- The body of a tag 42: a byte string that spells a CID. -/
def readTag42Body (bs : Bytes) : Except Error (Cid × Bytes) := do
  let (inner, bs) ← readByte bs
  if inner.toNat / 32 ≠ 2 then .error .tagBody
  else
    let (body, bs) ← readString (inner.toNat % 32) bs
    match Cid.fromTag42Bytes body with
    | .ok c => .ok (c, bs)
    | .error e => .error (.cid e)

/-- The bytes of a map key, and its encoding, which must follow the encoding `prev` of the
key before it. -/
def readMapKey (prev : Bytes) (bs : Bytes) : Except Error (Bytes × Bytes × Bytes) := do
  let (byte, rest) ← readByte bs
  if byte.toNat / 32 ≠ 3 then .error .keyType
  else
    let (key, rest) ← readString (byte.toNat % 32) rest
    let encoded := bs.take (bs.length - rest.length)
    if prev ≠ [] ∧ encoded < prev then .error .keyOrder
    else if prev ≠ [] ∧ prev = encoded then .error .duplicateKey
    else if Bytes.utf8 key then .ok (key, encoded, rest)
    else .error .utf8

/-- The items of an array of the given length, each read by `decode`. -/
def decodeItems (decode : Bytes → Except Error (Value × Bytes)) :
    ℕ → Bytes → Except Error (List Value × Bytes)
  | 0, bs => .ok ([], bs)
  | n + 1, bs => do
      let (v, bs) ← decode bs
      let (vs, bs) ← decodeItems decode n bs
      .ok (v :: vs, bs)

/-- The entries of a map of the given length after the key encoded as `prev`, each value
read by `decode`. -/
def decodeEntries (decode : Bytes → Except Error (Value × Bytes)) :
    ℕ → Bytes → Bytes → Except Error (List (Bytes × Value) × Bytes)
  | 0, _, bs => .ok ([], bs)
  | n + 1, prev, bs => do
      let (key, encoded, bs) ← readMapKey prev bs
      let (v, bs) ← decode bs
      let (entries, bs) ← decodeEntries decode n encoded bs
      .ok ((key, v) :: entries, bs)

/-- The simple value or float with the given additional information. -/
def decodeSimple (additional : ℕ) (bs : Bytes) : Except Error (Value × Bytes) :=
  if additional = 20 then .ok (.bool false, bs)
  else if additional = 21 then .ok (.bool true, bs)
  else if additional = 22 then .ok (.null, bs)
  else if additional = 25 then .error .halfFloat
  else if additional = 26 then .error .singleFloat
  else if additional = 27 then do
    let (arg, bs) ← readSlice 8 bs
    let bits := Bytes.ofBe arg
    if isNan bits then .error .nan
    else if !isFinite bits then .error .infinity
    else .ok (.float bits, bs)
  else if additional = 31 then .error .indefinite
  else .error (.simpleValue additional)

/-- One value, with `budget` levels of nesting left. -/
def decodeValue : ℕ → Bytes → Except Error (Value × Bytes)
  | 0, _ => .error .maxDepth
  | budget + 1, bs => do
      let (byte, bs) ← readByte bs
      let additional := byte.toNat % 32
      match byte.toNat / 32 with
      | 0 =>
          let (n, bs) ← readArgument additional bs
          if n > 2 ^ 63 - 1 then .error .unsignedRange else .ok (.unsigned n, bs)
      | 1 =>
          let (n, bs) ← readArgument additional bs
          if n ≤ 2 ^ 63 - 1 then .ok (.signed (-1 - n), bs) else .error .negativeRange
      | 2 =>
          let (b, bs) ← readString additional bs
          .ok (.bytes b, bs)
      | 3 =>
          let (s, bs) ← readString additional bs
          if Bytes.utf8 s then .ok (.text s, bs) else .error .utf8
      | 4 =>
          let (len, bs) ← collectionLen additional .arrayLength bs
          let (items, bs) ← decodeItems (decodeValue budget) len bs
          .ok (.array items, bs)
      | 5 =>
          let (len, bs) ← collectionLen additional .mapLength bs
          let (entries, bs) ← decodeEntries (decodeValue budget) len [] bs
          .ok (.map entries, bs)
      | 6 =>
          let (tag, bs) ← readArgument additional bs
          if tag ≠ 42 then .error (.tag tag)
          else
            let (c, bs) ← readTag42Body bs
            .ok (.cid c, bs)
      | _ => decodeSimple additional bs

/-- The single value a byte string encodes. -/
def decode (bs : Bytes) : Except Error Value := do
  let (v, rest) ← decodeValue maxDepth bs
  if rest ≠ [] then .error .trailingData else .ok v

end Shrike.Cbor
