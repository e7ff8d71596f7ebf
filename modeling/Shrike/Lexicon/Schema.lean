import Shrike.Cbor.Json

/-!
# Lexicon schemas

The schemas of records, methods and their fields, the catalog that they are kept in, and how the
references between them are resolved.
-/

namespace Shrike.Lexicon

open Cbor Bytes

/-- What a string has to satisfy. -/
structure StringConstraints where
  minLength : Option ℕ := none
  maxLength : Option ℕ := none
  minGraphemes : Option ℕ := none
  maxGraphemes : Option ℕ := none
  enumVals : Option (List Bytes) := none
  format : Option Bytes := none
  constVal : Option Bytes := none

/-- What an integer has to satisfy. -/
structure IntegerConstraints where
  minimum : Option I64 := none
  maximum : Option I64 := none
  enumVals : Option (List I64) := none
  constVal : Option I64 := none

mutual

/-- The schema of a field. -/
inductive FieldSchema where
  | string (constraints : StringConstraints) (default : Option Bytes)
  | integer (constraints : IntegerConstraints) (default : Option I64)
  | boolean (default constVal : Option Bool)
  | bytes (minLength maxLength : Option ℕ)
  | cidLink
  | blob (accept : Option (List Bytes)) (maxSize : Option ℕ)
  | array (items : FieldSchema) (minLength maxLength : Option ℕ)
  | object (obj : ObjectDef)
  | ref (reference : Bytes)
  | union (refs : List Bytes) (closed : Option Bool)
  | unknown

/-- The schema of an object: the names that are required, the names that may be null, and the
properties by their names. -/
inductive ObjectDef where
  | mk (required nullable : List Bytes) (properties : List (Bytes × FieldSchema))

end

namespace ObjectDef

def required : ObjectDef → List Bytes
  | .mk required _ _ => required

def nullable : ObjectDef → List Bytes
  | .mk _ nullable _ => nullable

def properties : ObjectDef → List (Bytes × FieldSchema)
  | .mk _ _ properties => properties

end ObjectDef

/-- The declared default of a field, as JSON. -/
def FieldSchema.defaultValue : FieldSchema → Option (Json Number)
  | .string _ default => default.map .string
  | .integer _ default => default.map fun n => .number n.number
  | .boolean default _ => default.map .bool
  | _ => none

/-- The parameters of a method. -/
structure ParamsDef where
  required : List Bytes := []
  properties : List (Bytes × FieldSchema)

/-- A definition. Of the parts of a method only the schema of the input of a procedure is
used. -/
inductive Def where
  | record (record : ObjectDef)
  | query
  | procedure (input : Option FieldSchema)
  | subscription
  | object (obj : ObjectDef)
  | token
  | string
  | boolean
  | integer
  | bytes
  | array (items : FieldSchema)
  | unknown

/-- A collection of schemas, each with its definitions, by their names. -/
structure Catalog where
  schemas : List (Bytes × List (Bytes × Def))

namespace Catalog

/-- The definitions of a schema. -/
def get (catalog : Catalog) (nsid : Bytes) : Option (List (Bytes × Def)) :=
  catalog.schemas.lookup nsid

/-- A definition of a schema. -/
def find (catalog : Catalog) (nsid defName : Bytes) : Option Def :=
  (catalog.get nsid).bind (List.lookup defName)

/-- The main definition of a schema. -/
def mainDef (catalog : Catalog) (nsid : Bytes) : Option Def := catalog.find nsid (ascii "main")

end Catalog

/-- The schema and the definition that a reference names, in the context of a schema. -/
def resolveRef (contextNsid reference : Bytes) : Bytes × Bytes :=
  match stripPrefix [char '#'] reference with
  | some defName => (contextNsid, defName)
  | none => (rsplitOnce (char '#') reference).getD (reference, ascii "main")

end Shrike.Lexicon
