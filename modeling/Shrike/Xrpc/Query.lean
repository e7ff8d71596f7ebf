import Shrike.Cbor.JsonOnePass
import Shrike.Data.Form
import Shrike.Lexicon.Schema

/-!
# Query parameters

How a client writes the parameters of a method as a query, and how a server reads them: by the types
that the lexicon declares, or by the types of the fields of a struct.
-/

namespace Shrike.Xrpc

open Cbor Lexicon Bytes

/-! ### The client -/

/-- The ways in which parameters cannot be written. -/
inductive QueryError where
  | notScalar (key : Bytes)
  | notMap

variable (floatText : ℕ → Bytes)

/-- The text of a scalar. Null has none. -/
def scalarText (key : Bytes) : Json Number → Except QueryError (Option Bytes)
  | .null => .ok none
  | .bool b => .ok (some (ascii (if b then "true" else "false")))
  | .number n => .ok (some (n.text floatText))
  | .string s => .ok (some s)
  | .array _ | .object _ => .error (.notScalar key)

/-- The pairs of a parameter. An array becomes a repeated key. -/
def valuePairs (key : Bytes) : Json Number → Except QueryError (List (Bytes × Bytes))
  | .array items => do
      let texts ← items.mapM (scalarText floatText key)
      .ok (texts.reduceOption.map fun text => (key, text))
  | value => do
      let text ← scalarText floatText key value
      .ok (text.toList.map fun text => (key, text))

/-- The pairs of the query of some parameters. -/
def queryPairs : Json Number → Except QueryError (List (Bytes × Bytes))
  | .object map => do
      let pairs ← map.mapM fun member => valuePairs floatText member.1 member.2
      .ok pairs.flatten
  | .null => .ok []
  | _ => .error .notMap

/-! ### The server -/

/-- The parameters of a request: the values of each key, and the values that the lexicon decoded
them to. -/
structure Params where
  entries : List (Bytes × List Bytes)
  json : Option (List (Bytes × Json Number)) := none

/-- Add a value of a key. -/
def push (key value : Bytes) : List (Bytes × List Bytes) → List (Bytes × List Bytes)
  | [] => [(key, [value])]
  | (k, values) :: entries =>
      if k = key then (k, values ++ [value]) :: entries else (k, values) :: push key value entries

/-- The name before an index in brackets at the end of a key. -/
def stripBrackets (key : Bytes) : Option Bytes := do
  let inner ← stripSuffix [char ']'] key
  let (base, index) ← splitOnce (char '[') inner
  if char '[' ∉ base ∧ index.all isAsciiDigit = true then some base else none

/-- The values of the keys, and the ones that follow them: those of keys with brackets. -/
structure Grouped where
  plain : List (Bytes × List Bytes) := []
  bracketed : List (Bytes × Bytes) := []

/-- Group a pair of a query. Empty values are ignored. -/
def Grouped.add (grouped : Grouped) (pair : Bytes × Bytes) : Grouped :=
  if pair.2 = [] then grouped
  else match stripBrackets pair.1 with
    | some base => { grouped with bracketed := grouped.bracketed ++ [(base, pair.2)] }
    | none => { grouped with plain := push pair.1 pair.2 grouped.plain }

/-- Parse a query. -/
def Params.fromQuery (query : Bytes) : Params :=
  let grouped := (formParse query).foldl Grouped.add {}
  { entries := grouped.bracketed.foldl (fun entries pair => push pair.1 pair.2 entries)
      grouped.plain }

/-- The boolean that a text spells. -/
def parseBool (raw : Bytes) : Option Bool :=
  if raw = ascii "true" then some true else if raw = ascii "false" then some false else none

/-- The integer with the given digits. -/
def readInt (negative : Bool) (digits : Bytes) : Option I64 :=
  if digits = [] ∨ digits.all isAsciiDigit = false then none
  else
    let n : ℤ := if negative then -(ofText 10 digits) else ofText 10 digits
    if h : -(2 ^ 63) ≤ n ∧ n < 2 ^ 63 then some ⟨n, h⟩ else none

/-- The integer that a text spells: digits, and a minus sign before them if it is negative. -/
def parseInt (raw : Bytes) : Option I64 :=
  match stripPrefix [char '-'] raw with
  | some digits => readInt true digits
  | none => readInt false raw

/-- Decode a value by the schema of its field. -/
def decodeScalar (key : Bytes) (field : FieldSchema) (raw : Bytes) : Except Bytes (Json Number) :=
  match field with
  | .integer _ _ =>
      match parseInt raw with
      | some n => .ok (.number n.number)
      | none => .error (key ++ ascii " must be an integer")
  | .boolean _ _ =>
      match parseBool raw with
      | some b => .ok (.bool b)
      | none => .error (key ++ ascii " must be a boolean")
  | _ => .ok (.string raw)

/-- Decode the values of a key. Keys that are not declared are kept as strings. -/
def decodeEntry (field : Option FieldSchema) (key : Bytes) (values : List Bytes) :
    Except Bytes (Json Number) :=
  match field with
  | some (.array items _ _) => (values.mapM (decodeScalar key items)).map .array
  | some field =>
      match values with
      | [single] => decodeScalar key field single
      | _ => .error (key ++ ascii " must be a single value")
  | none =>
      match values with
      | [single] => .ok (.string single)
      | many => .ok (.array (many.map .string))

/-- Decode the values of all keys by the types that are declared. -/
def Params.decode (params : Params) (declared : Option ParamsDef) :
    Except Bytes (List (Bytes × Json Number)) := do
  let members ← params.entries.mapM fun entry =>
    (decodeEntry (declared.bind fun d => d.properties.lookup entry.1) entry.1 entry.2).map
      fun value => (entry.1, value)
  .ok (List.collectEntries members)

/-! ### Structs -/

/-- The types of single values. -/
inductive ScalarType where
  | string
  | i64
  | bool

/-- The types of the fields of a struct. -/
inductive FieldType where
  | scalar (type : ScalarType)
  | vec (type : ScalarType)

/-- A single value of a type. -/
inductive Scalar where
  | string (s : Bytes)
  | i64 (n : I64)
  | bool (b : Bool)

/-- A value of a type. -/
inductive Value where
  | scalar (value : Scalar)
  | vec (values : List Scalar)

/-- The ways in which a struct cannot be read. -/
inductive DeError where
  | singleValue
  | invalidValue (raw : Bytes)
  | invalidType
  | missingField (name : Bytes)

/-- Read a text as a type. -/
def deserializeStr (raw : Bytes) : ScalarType → Except DeError Scalar
  | .string => .ok (.string raw)
  | .i64 => (Except.ofOption (.invalidValue raw) (parseInt raw)).map .i64
  | .bool => (Except.ofOption (.invalidValue raw) (parseBool raw)).map .bool

/-- Read the values of a key as a type. A single value is required, except for a sequence. -/
def deserializeValues (values : List Bytes) : FieldType → Except DeError Value
  | .scalar type =>
      match values with
      | [single] => (deserializeStr single type).map .scalar
      | _ => .error .singleValue
  | .vec type => (values.mapM fun raw => deserializeStr raw type).map .vec

/-- A field of a struct. -/
structure StructField where
  name : Bytes
  type : FieldType
  optional : Bool

/-- Read the fields of a struct from what is there for their names. -/
def deserializeFields {α : Type} (read : α → StructField → Except DeError (Option Value))
    (entries : List (Bytes × α)) (fields : List StructField) :
    Except DeError (List (Option Value)) :=
  fields.mapM fun field =>
    match entries.lookup field.name with
    | some value => read value field
    | none => if field.optional then .ok none else .error (.missingField field.name)

/-- Read a field from the values of its key. -/
def fieldFromValues (values : List Bytes) (field : StructField) : Except DeError (Option Value) :=
  (deserializeValues values field.type).map some

/-- Read a JSON value as a single value of a type. -/
def fromScalarJson : Json Number → ScalarType → Except DeError Scalar
  | .string s, .string => .ok (.string s)
  | .number n, .i64 => (Except.ofOption .invalidType (asI64 n)).map .i64
  | .bool b, .bool => .ok (.bool b)
  | _, _ => .error .invalidType

/-- Read a JSON value as a type. -/
def fromJson : Json Number → FieldType → Except DeError Value
  | .array items, .vec type => (items.mapM fun item => fromScalarJson item type).map .vec
  | value, .scalar type => (fromScalarJson value type).map .scalar
  | _, .vec _ => .error .invalidType

/-- Read a field from a JSON value. Null is for a field that is not there. -/
def fieldFromJson (json : Json Number) (field : StructField) : Except DeError (Option Value) :=
  match json with
  | .null => if field.optional then .ok none else .error .invalidType
  | json => (fromJson json field.type).map some

/-- Read a struct: from the values that the lexicon decoded, if there are any, or else from the
query itself. -/
def Params.deserialize (params : Params) (fields : List StructField) :
    Except DeError (List (Option Value)) :=
  match params.json with
  | some json => deserializeFields fieldFromJson json fields
  | none => deserializeFields fieldFromValues params.entries fields

end Shrike.Xrpc
