import Shrike.Lexicon.Schema
import Shrike.Net.Number
import Shrike.Syntax.Datetime
import Shrike.Syntax.LanguageGrammar

/-!
# The constraints of a field

What is checked of a value that has no fields of its own: strings, integers, booleans, byte strings,
links and blobs. A check gives the ways in which the value fails it.
-/

namespace Shrike.Lexicon

open Cbor Syntax Bytes

/-! ### Errors -/

/-- A part of the message of an error: a fixed text, a name, a string in quotes, or a float. -/
inductive Piece where
  | text (s : String)
  | name (s : Bytes)
  | quoted (s : Bytes)
  | float (f : ℚ)

/-- The ways in which the value of a field is not valid. -/
inductive ValidationErrorKind where
  | required
  | typeMismatch (expected got : String)
  | tooShort (min got : ℕ)
  | tooLong (max got : ℕ)
  | outOfRange
  | invalidEnum (got : Bytes)
  | other (message : List Piece)

open ValidationErrorKind

/-- What kind of value a JSON value is. -/
def jsonTypeName : Json Number → String
  | .null => "null"
  | .bool _ => "boolean"
  | .number _ => "number"
  | .string _ => "string"
  | .array _ => "array"
  | .object _ => "object"

/-- The error of a value that is not of the expected type. -/
def mismatch (expected : String) (value : Json Number) : List ValidationErrorKind :=
  [typeMismatch expected (jsonTypeName value)]

/-- Check a condition. -/
def check (ok : Bool) (e : ValidationErrorKind) : List ValidationErrorKind := if ok then [] else [e]

/-- Check a length. -/
def checkLength (min max : Option ℕ) (length : ℕ) : List ValidationErrorKind :=
  (min.elim [] fun min => check (min ≤ length) (tooShort min length))
    ++ max.elim [] fun max => check (length ≤ max) (tooLong max length)

/-! ### Strings -/

/-- The segmentation of text, which comes from outside: how many grapheme clusters a text has. -/
class Segmentation where
  graphemes : Bytes → ℕ

/-- How many times a carriage return is followed by a line feed. -/
def countCrLf : Bytes → ℕ
  | 13 :: 10 :: bs => countCrLf bs + 1
  | _ :: bs => countCrLf bs
  | [] => 0

/-- How many grapheme clusters a text has. -/
def graphemeCount [Segmentation] (s : Bytes) : ℕ :=
  if s.all (· < 0x80) then s.length - countCrLf s else Segmentation.graphemes s

/-- How many characters a text has. -/
def charCount (s : Bytes) : ℕ := s.countP fun b => !isContinuation b

/-- Check the number of grapheme clusters. A text of at most as many characters is not segmented for
a maximum alone. -/
def checkGraphemes [Segmentation] (min max : Option ℕ) (s : Bytes) : List ValidationErrorKind :=
  let count := match min, max with
    | none, none => false
    | none, some max => !(s.length ≤ max || charCount s ≤ max)
    | some _, _ => true
  if count then checkLength min max (graphemeCount s) else []

/-- The length of the white space character that a text starts with, for a regular expression. -/
def spaceLength : Bytes → ℕ
  | 0xef :: 0xbb :: 0xbf :: _ => 3
  | bs => whitespaceLength bs

/-- Whether there is no white space in a text. -/
def noSpace : Bytes → Bool
  | [] => true
  | b :: bs => spaceLength (b :: bs) = 0 && noSpace bs

/-- Whether a text is a URI: a scheme, and something behind it without white space. -/
def isValidUri (s : Bytes) : Bool :=
  match splitOnce (char ':') s with
  | none => false
  | some (scheme, rest) =>
      let rest := (stripPrefix (ascii "//") rest).getD rest
      scheme ≠ [] && scheme.all (fun b => isAsciiAlphanumeric b || b == char '_')
        && rest ≠ [] && rest.head? ≠ some (char '/') && noSpace rest

/-- Whether a text is a CID of any kind. -/
def isCidString (s : Bytes) : Bool :=
  match parseLink s with
  | .ok none => false
  | _ => true

/-- Whether a text is of a format. An unknown format is accepted. -/
def isOfFormat (format s : Bytes) : Bool :=
  if format = ascii "did" then (Did.validate s).isOk
  else if format = ascii "handle" then (Handle.validate s).isOk
  else if format = ascii "at-uri" then (AtUri.validate s).isOk
  else if format = ascii "at-identifier" then (AtIdentifier.validate s).isOk
  else if format = ascii "nsid" then (Nsid.validate s).isOk
  else if format = ascii "datetime" then (Datetime.validate s).isOk
  else if format = ascii "tid" then (Tid.tryFrom s).isOk
  else if format = ascii "record-key" then (RecordKey.validate s).isOk
  else if format = ascii "language" then (Language.validate s).isOk
  else if format = ascii "cid" then isCidString s
  else if format = ascii "uri" then isValidUri s
  else true

/-- Check a string for its constraints. -/
def checkStringConstraints [Segmentation] (c : StringConstraints) (s : Bytes) :
    List ValidationErrorKind :=
  (c.constVal.elim [] fun constVal =>
      check (s = constVal) (other [.text "expected const ", .quoted constVal]))
    ++ (c.enumVals.elim [] fun vals => check (vals.contains s) (invalidEnum s))
    ++ checkLength c.minLength c.maxLength s.length
    ++ checkGraphemes c.minGraphemes c.maxGraphemes s
    ++ c.format.elim [] fun format => check (isOfFormat format s)
      (other [.text "invalid ", .name format, .text " format: ", .quoted s])

/-- Check a value for a string field. -/
def validateString [Segmentation] (c : StringConstraints) :
    Json Number → List ValidationErrorKind
  | .string s => checkStringConstraints c s
  | value => mismatch "string" value

/-! ### Integers and booleans -/

/-- The text of an integer. -/
def intText (i : ℤ) : Bytes := (if i < 0 then [char '-'] else []) ++ toText 10 i.natAbs

/-- The integer that a number is taken for. A float must be whole and in range. -/
def integerOf (n : Number) : Except ValidationErrorKind ℤ :=
  match asI64 n with
  | some i => .ok i.val
  | none =>
      let f := n.asF64
      if (f.floor : ℚ) ≠ f then
        .error (other [.text "float ", .float f, .text " is not a valid integer"])
      else if f < -(2 ^ 63) ∨ 2 ^ 63 < f then
        .error (other [.text "integer ", .float f, .text " out of i64 range"])
      else .ok (saturate f)

/-- Check an integer for its constraints. -/
def checkIntegerConstraints (c : IntegerConstraints) (n : ℤ) : List ValidationErrorKind :=
  (c.minimum.elim [] fun min => check (min.val ≤ n) outOfRange)
    ++ (c.maximum.elim [] fun max => check (n ≤ max.val) outOfRange)
    ++ (c.enumVals.elim [] fun vals =>
      check ((vals.map Subtype.val).contains n) (invalidEnum (intText n)))
    ++ c.constVal.elim [] fun constVal => check (n = constVal.val) (invalidEnum (intText n))

/-- Check a value for an integer field. -/
def validateInteger (c : IntegerConstraints) : Json Number → List ValidationErrorKind
  | .number n =>
      match integerOf n with
      | .error e => [e]
      | .ok i => checkIntegerConstraints c i
  | value => mismatch "integer" value

/-- Check a value for a boolean field. -/
def validateBoolean (constVal : Option Bool) : Json Number → List ValidationErrorKind
  | .bool b =>
      constVal.elim [] fun constVal =>
        check (b = constVal) (invalidEnum (ascii (if b then "true" else "false")))
  | value => mismatch "boolean" value

/-! ### Byte strings and links -/

/-- Check a value for a byte string: an object with the base64 of it under `$bytes`. The lengths are
those of the decoded bytes. -/
def validateBytes [DataEncoding] (minLength maxLength : Option ℕ) :
    Json Number → List ValidationErrorKind
  | .object map =>
      match (map.lookup (ascii "$bytes")).bind Json.asStr with
      | none => [other [.text "bytes object missing $bytes key"]]
      | some b64 =>
          match decodeBase64 b64 with
          | none => [other [.text "$bytes is not valid base64"]]
          | some raw => checkLength minLength maxLength raw.length
  | value => mismatch "bytes" value

/-- Whether an object is a link: a CID under `$link`, and nothing else. -/
def isLink (map : List (Bytes × Json Number)) : Bool :=
  map.length = 1 && ((map.lookup (ascii "$link")).bind Json.asStr).any isCidString

/-- Check a value for a link. -/
def validateCidLink : Json Number → List ValidationErrorKind
  | .object map =>
      if (map.lookup (ascii "$link")).isNone then
        [other [.text "cid-link object missing $link key"]]
      else check (isLink map) (other [.text "cid-link $link is not a valid CID"])
  | value => mismatch "cid-link object" value

/-! ### Blobs -/

/-- Whether a type of content is accepted. -/
def matchMime (accept : List Bytes) (mimeType : Bytes) : Bool :=
  accept.any fun pattern =>
    if pattern = ascii "*/*" then true
    else match stripSuffix (ascii "/*") pattern with
      | some pre => (stripPrefix pre mimeType).any fun rest => rest.head? = some (char '/')
      | none => pattern = mimeType

/-- Check the reference of a blob. -/
def validateBlobRef : Option (Json Number) → List ValidationErrorKind
  | none => [other [.text "blob missing ref"]]
  | some (.object r) =>
      if ((r.lookup (ascii "$link")).bind Json.asStr).isNone then
        [other [.text "blob ref missing $link string"]]
      else check (isLink r) (other [.text "blob ref $link is not a valid CID"])
  | some value =>
      [other [.text "blob ref expected object, got ", .text (jsonTypeName value)]]

/-- Check the type of the content of a blob. -/
def validateBlobMime (accept : Option (List Bytes)) :
    Option (Json Number) → List ValidationErrorKind
  | none => [other [.text "blob missing mimeType"]]
  | some (.string mime) =>
      if mime = [] then [other [.text "blob mimeType must not be empty"]]
      else accept.elim [] fun accept => check (matchMime accept mime)
        (other [.text "blob mimeType ", .quoted mime, .text " not accepted"])
  | some value =>
      [other [.text "blob mimeType expected string, got ", .text (jsonTypeName value)]]

/-- Check the size of a blob. A number that is not a natural one is accepted. -/
def validateBlobSize (maxSize : Option ℕ) : Option (Json Number) → List ValidationErrorKind
  | none => [other [.text "blob missing size"]]
  | some (.number (.posInt size _)) =>
      maxSize.elim [] fun max => check (size ≤ max) (tooLong max size)
  | some (.number _) => []
  | some value =>
      [other [.text "blob size expected number, got ", .text (jsonTypeName value)]]

/-- Check a value for a blob. -/
def validateBlob (accept : Option (List Bytes)) (maxSize : Option ℕ) :
    Json Number → List ValidationErrorKind
  | .object map =>
      check ((map.lookup (ascii "$type")).bind Json.asStr = some (ascii "blob"))
          (other [.text "blob missing or wrong $type"])
        ++ validateBlobRef (map.lookup (ascii "ref"))
        ++ validateBlobMime accept (map.lookup (ascii "mimeType"))
        ++ validateBlobSize maxSize (map.lookup (ascii "size"))
  | value => mismatch "blob object" value

/-! ### Other values -/

/-- Check a value for a string of any kind, as a token is. -/
def validateAnyString : Json Number → List ValidationErrorKind
  | .string _ => []
  | value => mismatch "string" value

/-- Check a value for an array of anything. -/
def validateAnyArray : Json Number → List ValidationErrorKind
  | .array _ => []
  | value => mismatch "array" value

/-- Check a value for an object of anything. -/
def validateUnknown : Json Number → List ValidationErrorKind
  | .object _ => []
  | value => mismatch "object" value

end Shrike.Lexicon
