import Shrike.Data.Json
import Shrike.Net.Number

/-!
# JSON as compact text

The compact text of a JSON value, its strings with the usual escapes, as `serde_json` writes it.
-/

namespace Bytes

/-- A byte of a JSON string: quotes, backslashes and control characters are escaped. -/
def jsonEscape (b : UInt8) : Bytes :=
  match b.toNat with
  | 0x22 => [0x5c, 0x22]
  | 0x5c => [0x5c, 0x5c]
  | 0x08 => [0x5c, char 'b']
  | 0x09 => [0x5c, char 't']
  | 0x0a => [0x5c, char 'n']
  | 0x0c => [0x5c, char 'f']
  | 0x0d => [0x5c, char 'r']
  | n =>
      if n < 0x20 then [0x5c, char 'u', char '0', char '0', lowerHex (n / 16), lowerHex (n % 16)]
      else [b]

/-- A JSON string. -/
def jsonString (s : Bytes) : Bytes := 0x22 :: s.flatMap jsonEscape ++ [0x22]

end Bytes

namespace Json

open Bytes

variable {ν : Type} (number : ν → Bytes)

mutual

/-- The compact text of a JSON value, its numbers written by `number` and the keys of its objects in
bytewise order. -/
def compact : Json ν → Bytes
  | .null => ascii "null"
  | .bool b => ascii (if b then "true" else "false")
  | .number n => number n
  | .string s => jsonString s
  | .array items => char '[' :: join (char ',') (compactItems items) ++ [char ']']
  | .object fields =>
      0x7b :: join (char ',')
        (((compactFields fields).insertionSort (fun a b => a.1 ≤ b.1)).map Prod.snd) ++ [0x7d]

/-- The texts of the items of an array. -/
def compactItems : List (Json ν) → List Bytes
  | [] => []
  | item :: items => compact item :: compactItems items

/-- The keys of an object with the texts of its fields. -/
def compactFields : List (Bytes × Json ν) → List (Bytes × Bytes)
  | [] => []
  | (key, value) :: fields =>
      (key, jsonString key ++ char ':' :: compact value) :: compactFields fields

end

theorem compactFields_eq :
  ∀ (fields : List (Bytes × Json ν)), compactFields number fields
    = fields.map fun f => (f.1, jsonString f.1 ++ char ':' :: compact number f.2)
  | [] => rfl
  | (key, value) :: fields => by rw [compactFields, compactFields_eq fields, List.map_cons]

end Json
