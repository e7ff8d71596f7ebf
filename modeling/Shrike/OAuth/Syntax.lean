import Mathlib.Data.List.Destutter
import Mathlib.Data.List.Sort
import Shrike.Data.Json
import Shrike.Data.Percent
import Shrike.Syntax.Nsid

/-!
# The syntax of permissions

Permissions are written as `resource[:positional][?query]` in a scope, and as objects in a
permission set. Both are split into a positional parameter and named parameters, which a schema
then validates.
-/

namespace Shrike.OAuth

open Bytes

/-- The URL library: whether a URL parses, and the names and values of a form. -/
structure UrlLibrary where
  parses : Bytes → Bool
  formParse : Bytes → List (Bytes × Bytes)

/-- The name and value of one part of a form. -/
def formPair (part : Bytes) : Bytes × Bytes := (splitOnce (char '=') part).getD (part, [])

/-- The names and values of a form, still escaped. -/
def formPairs (query : Bytes) : List (Bytes × Bytes) :=
  ((query.splitOn (char '&')).filter (· ≠ [])).map formPair

/-- How the URL library reads forms: it decodes every name and value by itself, and decoding
is lossless if the bytes that are spelled are well-formed UTF-8. -/
structure UrlLibrary.ReadsForms (url : UrlLibrary) (decode : Bytes → Bytes) : Prop where
  formParse_eq : ∀ query,
    url.formParse query = (formPairs query).map fun pair => (decode pair.1, decode pair.2)
  decode_eq : ∀ bs, utf8 (formUnescape bs) = true → decode bs = formUnescape bs

/-! ### Parameters -/

/-- The raw value of a parameter. -/
inductive Param where
  | query (values : List Bytes)
  | str (value : Bytes)
  | list (values : List Bytes)
  | invalid

/-- A single value: one occurrence in a query, or a string. -/
def Param.single : Param → Option Bytes
  | .query [value] => some value
  | .str value => some value
  | _ => none

/-- Several values: all occurrences in a query, or an array. -/
def Param.multi : Param → Option (List Bytes)
  | .query values => some values
  | .list values => some values
  | _ => none

/-- A permission that is split into its parameters. -/
structure Syntax where
  positional : Option Bytes
  params : List (Bytes × Param)

/-- Decode a component of a URI, if its escapes are complete and form UTF-8. -/
def decodeUriComponent (value : Bytes) : Option Bytes :=
  (unescape value).filter utf8

/-- Add an occurrence of a parameter. -/
def addOccurrence (key value : Bytes) : List (Bytes × Param) → List (Bytes × Param)
  | [] => [(key, .query [value])]
  | (k, param) :: params =>
      if k = key then
        match param with
        | .query values => (k, .query (values ++ [value])) :: params
        | param => (k, param) :: (params ++ [(key, .query [value])])
      else (k, param) :: addOccurrence key value params

/-- The parts of a scope after its resource. -/
def splitScope (rest : Bytes) : Option (Option Bytes × Option Bytes) :=
  match stripPrefix [char ':'] rest with
  | some rest =>
      match splitOnce (char '?') rest with
      | some (positional, query) => some (some positional, some query)
      | none => some (some rest, none)
  | none =>
      match stripPrefix [char '?'] rest with
      | some query => some (none, some query)
      | none => if rest = [] then some (none, none) else none

namespace Syntax

/-- Split a scope that is for the resource. -/
def fromScope (url : UrlLibrary) (scope resource : Bytes) : Option Syntax := do
  let rest ← stripPrefix resource scope
  let (positional, query) ← splitScope rest
  let positional ←
    match positional with
    | some positional => (decodeUriComponent positional).map some
    | none => some none
  let query := query.getD []
  let query := (stripPrefix [char '?'] query).getD query
  let params := (url.formParse query).foldl (fun params pair => addOccurrence pair.1 pair.2 params) []
  some { positional, params }

/-- The value of a parameter of a permission object. -/
def lexiconParam {ν : Type} : Json ν → Param
  | .string s => .str s
  | .array items =>
      match items.mapM Json.asStr with
      | some values => .list values
      | none => .invalid
  | _ => .invalid

/-- Read a permission object. -/
def fromLexicon {ν : Type} (permission : List (Bytes × Json ν)) : Syntax where
  positional := none
  params :=
    (permission.filter fun field => field.1 ≠ ascii "type" ∧ field.1 ≠ ascii "resource").map
      fun field => (field.1, lexiconParam field.2)

/-- Remove a parameter. -/
def remove (syn : Syntax) (key : Bytes) : Syntax :=
  { syn with params := syn.params.filter (·.1 ≠ key) }

/-- Override or add a parameter. -/
def set (syn : Syntax) (key : Bytes) (param : Param) : Syntax :=
  { syn with params := syn.params.filter (·.1 ≠ key) ++ [(key, param)] }

/-- The value of a parameter. -/
def get (syn : Syntax) (key : Bytes) : Option Param :=
  (syn.params.find? (·.1 == key)).map (·.2)

end Syntax

/-! ### Schemas -/

/-- One parameter of a schema. -/
structure Field where
  name : Bytes
  multiple : Bool
  required : Bool
  validate : Bytes → Bool

/-- The value of a parameter that a schema accepts. -/
inductive Parsed where
  | absent
  | one (value : Bytes)
  | many (values : List Bytes)

/-- The value of a single-valued parameter. -/
def Parsed.asOne : Parsed → Option Bytes
  | .one value => some value
  | _ => none

/-- The values of a multi-valued parameter. -/
def Parsed.asMany : Parsed → Option (List Bytes)
  | .many values => some values
  | _ => none

/-- Validate one parameter. -/
def parseField (syn : Syntax) (positional : Bytes) (field : Field) : Option Parsed :=
  match syn.get field.name, syn.positional with
  | some param, given =>
      if given.isSome ∧ field.name = positional then none
      else if field.multiple then do
        let values ← param.multi
        if values ≠ [] ∧ values.all field.validate then some (.many values) else none
      else do
        let value ← param.single
        if field.validate value then some (.one value) else none
  | none, some value =>
      if field.name = positional then
        if field.validate value then some (if field.multiple then .many [value] else .one value)
        else none
      else if field.required then none
      else some .absent
  | none, none => if field.required then none else some .absent

/-- Validate a permission against a schema. -/
def parse (syn : Syntax) (fields : List Field) (positional : Bytes) : Option (List Parsed) :=
  if syn.params.any fun param => !fields.any (·.name == param.1) then none
  else fields.mapM (parseField syn positional)

/-! ### Rendering -/

/-- The bytes that stay as they are. -/
def keepsByte (query readable : Bool) (b : UInt8) : Bool :=
  isAsciiAlphanumeric b || (ascii ":/,@").contains b || (readable && (ascii "%+").contains b) ||
    if query then (ascii "*-._").contains b else (ascii "-_.!~*'()+").contains b

/-- The form of a byte in a component. -/
def encodeByte (query readable : Bool) (b : UInt8) : Bytes :=
  if keepsByte query readable b then [b]
  else if query && b == char ' ' then [char '+']
  else escape b

/-- Percent-encode a component of the query or the positional parameter. -/
def encode (value : Bytes) (query readable : Bool) : Bytes :=
  value.flatMap (encodeByte query readable)

/-- A component in its readable form, or in its fully escaped form if the readable one would not
decode back to it. -/
def pushComponent (url : UrlLibrary) (value : Bytes) (query : Bool) : Bytes :=
  let readable := encode value query true
  let decoded :=
    if query then ((url.formParse readable).head?.map (·.1)) else decodeUriComponent readable
  if decoded.getD [] = value then readable else encode value query false

/-- The named parameters of a scope, the first after the separator `sep`. -/
def pushParams (url : UrlLibrary) (sep : UInt8) : List (Bytes × Bytes) → Bytes
  | [] => []
  | (key, value) :: params =>
      sep :: (pushComponent url key true ++ char '=' :: pushComponent url value true) ++
        pushParams url (char '&') params

/-- Render a scope. -/
def format (url : UrlLibrary) (resource : Bytes) (positional : Option Bytes)
    (params : List (Bytes × Bytes)) : Bytes :=
  resource ++
    (match positional with
      | some positional => char ':' :: pushComponent url positional false
      | none => []) ++
    pushParams url (char '?') params

/-! ### Lists of values -/

/-- The order of texts by UTF-16 code units. -/
def jsLe (a b : Bytes) : Bool := compare (encodeUtf16 a) (encodeUtf16 b) != .gt

/-- Sort, and remove duplicates. -/
def sortedUnique (values : List Bytes) : List Bytes :=
  (values.insertionSort fun a b => jsLe a b = true).destutter (· ≠ ·)

/-! ### Validators -/

/-- Whether a value is an NSID. -/
def isNsid (value : Bytes) : Bool := (Shrike.Syntax.Nsid.validate value).isOk

/-- Whether a value is an NSID or the wildcard. -/
def isNsidOrWildcard (value : Bytes) : Bool := value == ascii "*" || isNsid value

def isTypeSlashSubtype (value : Bytes) : Bool :=
  match splitOnce (char '/') value with
  | some (ty, subtype) =>
      ty ≠ [] && subtype ≠ [] && !subtype.contains (char '/') && !value.contains (char ' ')
  | none => false

/-- Whether a value is a concrete MIME type. -/
def isMime (value : Bytes) : Bool := isTypeSlashSubtype value && !value.contains (char '*')

/-- Whether a value is a MIME type or a pattern for one. -/
def isAccept (value : Bytes) : Bool :=
  value == ascii "*/*" ||
    (isTypeSlashSubtype value && (!value.contains (char '*') || (ascii "/*").isSuffixOf value))

/-- Whether a MIME type matches a pattern. -/
def matchesAccept (accept mime : Bytes) : Bool :=
  if !isMime mime then false
  else if accept = ascii "*/*" then true
  else if (ascii "/*").isSuffixOf accept then accept.dropLast.isPrefixOf mime
  else accept == mime

/-- Whether a value is a fragment of a URI. -/
def isFragment : Bytes → Bool
  | [] => true
  | b :: bs =>
      if b = char '%' then
        match bs with
        | a :: c :: bs => (hexDigit a).isSome && (hexDigit c).isSome && isFragment bs
        | _ => false
      else (isAsciiAlphanumeric b || (ascii "-._~!$&'()*+,;=:@/?").contains b) && isFragment bs

/-- Uppercase hexadecimal digits. -/
def isUpperHex (b : UInt8) : Bool := isAsciiDigit b || (65 ≤ b && b ≤ 70)

/-- The characters of a method-specific identifier, which does not end with a colon. -/
def isDidMsidFrom : Bytes → Bool
  | [] => true
  | b :: bs =>
      if b = char '%' then
        match bs with
        | a :: c :: bs => isUpperHex a && isUpperHex c && isDidMsidFrom bs
        | _ => false
      else if b = char ':' ∧ bs = [] then false
      else (isAsciiAlphanumeric b || (ascii "._-:").contains b) && isDidMsidFrom bs

/-- Whether a value is a method-specific identifier of a DID. -/
def isDidMsid (msid : Bytes) : Bool := isDidMsidFrom msid && msid ≠ []

/-- Whether a value is a DID. -/
def isDid (value : Bytes) : Bool :=
  match stripPrefix (ascii "did:") value with
  | none => false
  | some rest =>
      match splitOnce (char ':') rest with
      | none => false
      | some (method, msid) =>
          value.length ≤ 2048 && method ≠ [] &&
            method.all (fun b => isAsciiLowercase b || isAsciiDigit b) && isDidMsid msid

def isDidPlc (did : Bytes) : Bool :=
  did.length == 32 &&
    (stripPrefix (ascii "did:plc:") did).any fun id =>
      id.all fun b => isAsciiLowercase b || (50 ≤ b && b ≤ 55)

/-- Replace the escape of a colon by a colon. -/
def unescapeColons : Bytes → Bytes
  | 37 :: 51 :: 65 :: bs => char ':' :: unescapeColons bs
  | b :: bs => b :: unescapeColons bs
  | [] => []

/-- Whether a DID is a `did:web` without a path, and without a port except on localhost. -/
def isAtprotoDidWeb (url : UrlLibrary) (did : Bytes) : Bool :=
  match stripPrefix (ascii "did:web:") did with
  | none => false
  | some msid =>
      if (ascii ":").isPrefixOf msid || !isDidMsid msid || msid.contains (char ':') then false
      else
        let localhost := msid == ascii "localhost" || (ascii "localhost%3A").isPrefixOf msid
        if !localhost && decide (ascii "%3A" <:+: msid) then false
        else
          let host := unescapeColons msid
          let scheme :=
            match stripPrefix (ascii "localhost") host with
            | some rest =>
                if rest = [] ∨ (ascii ":").isPrefixOf rest then ascii "http" else ascii "https"
            | none => ascii "https"
          url.parses (scheme ++ ascii "://" ++ host)

/-- Whether a value is a reference to a service of a DID. -/
def isAtprotoDidRef (url : UrlLibrary) (value : Bytes) : Bool :=
  match splitOnce (char '#') value with
  | none => false
  | some (did, fragment) =>
      fragment ≠ [] && !fragment.contains (char '#') && isFragment fragment && isDid did &&
        (isDidPlc did || isAtprotoDidWeb url did)

/-- Whether a value is the wildcard or a reference to a service of a DID. -/
def isAud (url : UrlLibrary) (value : Bytes) : Bool :=
  value == ascii "*" || isAtprotoDidRef url value

end Shrike.OAuth
