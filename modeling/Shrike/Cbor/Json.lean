import Shrike.Cbor.Encode
import Shrike.Cbor.Link
import Shrike.Data.Assoc
import Shrike.Data.Json

/-!
# DRISL and JSON

The conversion of JSON to DRISL and back. An object whose only key is `$link` or `$bytes` stands
for a CID or a byte string, if its value spells one.
-/

namespace Shrike.Cbor

open Bytes

/-! ### Numbers -/

/-- A JSON number: a natural number or a negative integer of 64 bits, or a finite float, given
by its bits. -/
inductive Number where
  | posInt (n : ℕ) (h : n < 2 ^ 64)
  | negInt (i : ℤ) (h : i < 0 ∧ -(2 ^ 63) ≤ i)
  | float (bits : ℕ) (h : bits < 2 ^ 64 ∧ isFinite bits = true)
  deriving DecidableEq

/-- Which integers are accepted. -/
inductive Integers where
  | safe
  | any

/-- The largest integer below which floats hold all integers. -/
def maxSafeInteger : ℕ := 2 ^ 53 - 1

/-- The distance from zero of the float with the given bits, if it is an integer and safe. With
the exponent `e` the float is `2 ^ 52 + fraction`, times two to the power `e - 1075`: from 1076
on it is not safe, and below 1023 it is not an integer, unless it is zero. -/
def floatMagnitude (bits : ℕ) : Option ℕ :=
  let exponent := bits / 2 ^ 52 % 2048
  let mantissa := 2 ^ 52 + bits % 2 ^ 52
  if exponent = 0 then if bits % 2 ^ 52 = 0 then some 0 else none
  else if exponent < 1023 ∨ 1075 < exponent then none
  else if mantissa % 2 ^ (1075 - exponent) = 0 then some (mantissa / 2 ^ (1075 - exponent))
  else none

/-- The integer that a float is, if it is one and safe. -/
def floatInteger (bits : ℕ) : Option ℤ :=
  (floatMagnitude bits).map fun n : ℕ => if bits < 2 ^ 63 then (n : ℤ) else -n

/-- The integer of 64 bits that a number is by value. The float of a natural number that is
out of range is not safe. -/
def Number.value : Number → Option ℤ
  | .posInt n _ => if n ≤ 2 ^ 63 - 1 then some n else none
  | .negInt i _ => some i
  | .float bits _ => floatInteger bits

/-- What is outside the data model. -/
inductive JsonFault where
  | unsafeInteger (n : Number)
  | notInteger (n : Number)
  | unsupportedCid (cid : UnsupportedCid)
  | float (bits : ℕ)
  | exceedsI64 (n : ℕ)
  deriving DecidableEq

/-- The errors of converting between JSON and DRISL. -/
inductive JsonError where
  | cbor (e : Error)
  | dataModel (fault : JsonFault)
  deriving DecidableEq

/-- The integer that a number is, if it is accepted. -/
def integer (n : Number) (integers : Integers) : Except JsonError ℤ :=
  match n.value, integers with
  | some v, .any => .ok v
  | some v, .safe =>
      if v.natAbs ≤ maxSafeInteger then .ok v else .error (.dataModel (.unsafeInteger n))
  | none, _ => .error (.dataModel (.notInteger n))

/-! ### JSON to DRISL -/

/-- The encoding of an integer. -/
def putInteger (v : ℤ) : Bytes := if 0 ≤ v then putHead 0 v.toNat else putHead 1 (-1 - v).toNat

/-- What an object with a single key can stand for. -/
inductive Special where
  | cid (c : Cid)
  | bytes (b : Bytes)

variable [DataEncoding]

/-- What an object whose only field is the given one stands for. -/
def specialMember (key s : Bytes) : Except JsonError (Option Special) :=
  if key = ascii "$link" then
    match parseLink s with
    | .error cid => .error (.dataModel (.unsupportedCid cid))
    | .ok c => .ok (c.map .cid)
  else if key = ascii "$bytes" then .ok ((decodeBase64 s).map .bytes)
  else .ok none

/-- What an object stands for, if it is not a plain map. -/
def special : List (Bytes × Json Number) → Except JsonError (Option Special)
  | [(key, .string s)] => specialMember key s
  | _ => .ok none

/-- The fields of an object with the encodings of their values, one after the other, in the
order of map keys. The first value that cannot be encoded is the error. -/
def encodeSorted (fields : List (Bytes × Except JsonError Bytes)) : Except JsonError Bytes := do
  let sorted := fields.insertionSort (fun a b => cborKeyCmp a.1 b.1 ≠ .gt)
  let parts ← sorted.mapM fun field => field.2.map fun value => putText field.1 ++ value
  .ok parts.flatten

mutual

/-- The encoding of a JSON value. -/
def encodeJson (integers : Integers) : Json Number → Except JsonError Bytes
  | .null => .ok [0xf6]
  | .bool b => .ok [if b then 0xf5 else 0xf4]
  | .number n => do
      let v ← integer n integers
      .ok (putInteger v)
  | .string s => .ok (putText s)
  | .array items => do
      let body ← encodeJsonItems integers items
      .ok (putHead 4 items.length ++ body)
  | .object fields =>
      match special fields with
      | .error e => .error e
      | .ok (some (.cid c)) => .ok (putCid c)
      | .ok (some (.bytes b)) => .ok (putBytes b)
      | .ok none => do
          let body ← encodeSorted (encodeJsonFields integers fields)
          .ok (putHead 5 fields.length ++ body)

/-- The encodings of the items of an array, one after the other. -/
def encodeJsonItems (integers : Integers) : List (Json Number) → Except JsonError Bytes
  | [] => .ok []
  | item :: items => do
      let head ← encodeJson integers item
      let rest ← encodeJsonItems integers items
      .ok (head ++ rest)

/-- The fields of an object with the encodings of their values. -/
def encodeJsonFields (integers : Integers) :
    List (Bytes × Json Number) → List (Bytes × Except JsonError Bytes)
  | [] => []
  | (key, value) :: fields => (key, encodeJson integers value) :: encodeJsonFields integers fields

end

/-- Convert JSON to DRISL. -/
def jsonToDrisl (json : Json Number) (integers : Integers) : Except JsonError Bytes :=
  encodeJson integers json

/-! ### DRISL to JSON -/

omit [DataEncoding] in
theorem Number.lt_of_lt {n : ℕ} (h : n < 2 ^ 63) :
  n < 2 ^ 64
  := by
  omega

omit [DataEncoding] in
theorem Number.toNat_lt {v : ℤ} (h : -(2 ^ 63) ≤ v ∧ v < 2 ^ 63) :
  v.toNat < 2 ^ 64
  := by
  omega

/-- The number of an integer of 64 bits. -/
def Number.ofInt (v : ℤ) (h : -(2 ^ 63) ≤ v ∧ v < 2 ^ 63) : Number :=
  if hv : 0 ≤ v then .posInt v.toNat (toNat_lt h) else .negInt v ⟨lt_of_not_ge hv, h.1⟩

/-- An object with a single field that holds a string. -/
def single (key : String) (s : Bytes) : Json Number := .object [(ascii key, .string s)]

mutual

/-- Convert a DRISL value to JSON. -/
def valueToJson : Value → Except JsonError (Json Number)
  | .unsigned n =>
      if h : n < 2 ^ 63 then .ok (.number (.posInt n (Number.lt_of_lt h)))
      else .error (.dataModel (.exceedsI64 n))
  | .signed i =>
      if h : -(2 ^ 63) ≤ i ∧ i < 2 ^ 63 then .ok (.number (.ofInt i h))
      else .error (.dataModel (.exceedsI64 i.natAbs))
  | .float bits => .error (.dataModel (.float bits))
  | .bool b => .ok (.bool b)
  | .null => .ok .null
  | .text s => .ok (.string s)
  | .bytes b => .ok (single "$bytes" (DataEncoding.base64 b))
  | .cid c => .ok (single "$link" (cidToString c))
  | .array items => do
      let items ← itemsToJson items
      .ok (.array items)
  | .map entries => do
      let fields ← entriesToJson entries
      .ok (.object (fields.collectEntries))

/-- Convert the items of an array to JSON. -/
def itemsToJson : List Value → Except JsonError (List (Json Number))
  | [] => .ok []
  | v :: vs => do
      let item ← valueToJson v
      let items ← itemsToJson vs
      .ok (item :: items)

/-- Convert the entries of a map to JSON. -/
def entriesToJson : List (Bytes × Value) → Except JsonError (List (Bytes × Json Number))
  | [] => .ok []
  | (key, v) :: entries => do
      let value ← valueToJson v
      let fields ← entriesToJson entries
      .ok ((key, value) :: fields)

end

/-- Convert DRISL to JSON. -/
def drislToJson (bs : Bytes) : Except JsonError (Json Number) :=
  match decode bs with
  | .error e => .error (.cbor e)
  | .ok v => valueToJson v

end Shrike.Cbor

/-!
## The values of JSON numbers

What a JSON number stands for, exactly and as it is read as an integer or as a float.
-/

namespace Shrike.Cbor

/-- The value of the float with the given bits. -/
def floatValue (bits : ℕ) : ℚ :=
  let exponent := bits / 2 ^ 52 % 2048
  let fraction := bits % 2 ^ 52
  let magnitude : ℕ :=
    if exponent = 0 then fraction * 2 else (2 ^ 52 + fraction) * 2 ^ exponent
  (if bits < 2 ^ 63 then 1 else -1) * magnitude / 2 ^ 1075

/-- The value of a number, exactly. -/
def numberValue : Number → ℚ
  | .posInt n _ => n
  | .negInt i _ => i
  | .float bits _ => floatValue bits

/-- A signed integer of 64 bits. -/
abbrev I64 := { v : ℤ // -(2 ^ 63) ≤ v ∧ v < 2 ^ 63 }

/-- The JSON number of an integer. -/
def I64.number (n : I64) : Number := Number.ofInt n.val n.2

/-- The integer that a JSON number is. -/
def asI64 : Number → Option I64
  | .posInt n _ => if h : n < 2 ^ 63 then some ⟨n, by omega⟩ else none
  | .negInt i h => some ⟨i, h.2, by omega⟩
  | .float _ _ => none

theorem asI64_posInt {m : ℕ} (h : m < 2 ^ 64) {n : I64} (hn : (m : ℤ) = n.val) :
  asI64 (.posInt m h) = some n
  := by
  have hrange : m < 2 ^ 63 := by
    have hlt := n.2.2
    omega
  rw [asI64, dif_pos hrange]
  exact congrArg some (Subtype.ext hn)

theorem asI64_number (n : I64) :
  asI64 n.number = some n
  := by
  rw [I64.number, Number.ofInt]
  split_ifs with hsign
  · exact asI64_posInt _ (Int.toNat_of_nonneg hsign)
  · rw [asI64]

/-- The float that is nearest to a natural number from 2 ^ 63 on below 2 ^ 64, where floats are 2048
apart. Of two the even one is taken. -/
def nearestFloat (n : ℕ) : ℕ :=
  let below := n / 2048
  if 1024 < n % 2048 ∨ (n % 2048 = 1024 ∧ below % 2 = 1) then (below + 1) * 2048 else below * 2048

/-- The float that a number is read as, if it is not an integer of 64 bits. -/
def Number.asF64 : Number → ℚ
  | .posInt n _ => nearestFloat n
  | .negInt i _ => i
  | .float bits _ => floatValue bits

/-- The integer that a float is converted to. What is out of range becomes the bound. -/
def saturate (f : ℚ) : ℤ := max (-(2 ^ 63)) (min (if 0 ≤ f then f.floor else f.ceil) (2 ^ 63 - 1))

end Shrike.Cbor
