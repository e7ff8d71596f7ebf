import Shrike.Cbor.CidText
import Shrike.Cbor.Writer
import Shrike.Syntax.Datetime
import Shrike.Syntax.Identifier

/-!
# Labels

Labels as they are written to DRISL, with their signature or without it, and read from it.
-/

namespace Shrike.Labeling

open Bytes Cbor Syntax
open Cbor.Writer (inTurn)

/-- A label: what a labeler says of some content. -/
structure Label where
  ver : Option Int64
  src : Did
  uri : Bytes
  cid : Option Cid
  val : Bytes
  neg : Bool
  cts : Datetime
  exp : Option Datetime
  sig : Option Bytes

/-- The errors of reading, writing, signing and verifying labels. -/
inductive LabelError where
  | decoding (e : Error)
  | encoding
  | crypto
  | invalid (reason : String)
  | invalidValue (what : String) (reason : String)

/-! ### Writing -/

/-- The number of the fields that are written. -/
def Label.fieldCount (label : Label) (includeSig : Bool) : ℕ :=
  let count := 3
  let count := count + 1
  let count := if label.cid.isSome then count + 1 else count
  let count := if label.exp.isSome then count + 1 else count
  let count := if label.neg then count + 1 else count
  let count := if includeSig && label.sig.isSome then count + 1 else count
  if label.ver.isSome then count + 1 else count

/-- Write a field. -/
def encodeField (key : String) (value : Writer) : Writer := (encodeText (ascii key)).andThen value

/-- Write a field if there is a value. -/
def encodeOptional {α : Type} (key : String) (encode : α → Writer) : Option α → Writer
  | some a => encodeField key (encode a)
  | none => put []

variable [Base32Decoding]

/-- Write the fields of a label, with the signature or without it. -/
def encodeLabelFields (label : Label) (includeSig : Bool) : Writer :=
  inTurn
    [encodeMapHeader (label.fieldCount includeSig),
      encodeOptional "cid" (fun cid => encodeText (cidToString cid)) label.cid,
      encodeField "cts" (encodeText label.cts.raw),
      encodeOptional "exp" (fun exp => encodeText exp.raw) label.exp,
      if label.neg then encodeField "neg" (encodeBool true) else put [],
      if includeSig then encodeOptional "sig" encodeBytes label.sig else put [],
      encodeField "src" (encodeText label.src.raw),
      encodeField "uri" (encodeText label.uri),
      encodeField "val" (encodeText label.val),
      encodeOptional "ver" (fun ver => encodeI64 ver.toInt) label.ver]

/-- What a writer makes of an empty buffer. -/
def encoded (w : Writer) : Except LabelError Bytes :=
  match w [] with
  | (.ok (), buf) => .ok buf
  | (.error _, _) => .error .encoding

/-- The bytes of a label that are signed. -/
def unsignedLabelBytes (label : Label) : Except LabelError Bytes :=
  encoded (encodeLabelFields label false)

/-- The bytes of a label. -/
def encodeLabel (label : Label) : Except LabelError Bytes :=
  encoded (encodeLabelFields label true)

/-! ### Reading -/

/-- The members of a map that were read. -/
structure Members where
  ver : Option Int64
  src : Option Bytes
  uri : Option Bytes
  cid : Option Cid
  val : Option Bytes
  neg : Option Bool
  cts : Option Bytes
  exp : Option Bytes
  sig : Option Bytes

/-- No members. -/
def Members.none : Members := ⟨.none, .none, .none, .none, .none, .none, .none, .none, .none⟩

/-- The text that a value is. -/
def textOf (reason : String) : Value → Except LabelError Bytes
  | .text s => .ok s
  | _ => .error (.invalid reason)

/-- Read a member. Members that a label does not have are passed over. -/
def Members.read (m : Members) (entry : Bytes × Value) : Except LabelError Members :=
  if entry.1 = ascii "ver" then
    match entry.2 with
    | .unsigned n => .ok { m with ver := some (Int64.ofNat n) }
    | .signed i => .ok { m with ver := some (Int64.ofInt i) }
    | _ => .error (.invalid "ver must be an integer")
  else if entry.1 = ascii "src" then
    (textOf "src must be a text string" entry.2).map fun s => { m with src := some s }
  else if entry.1 = ascii "uri" then
    (textOf "uri must be a text string" entry.2).map fun s => { m with uri := some s }
  else if entry.1 = ascii "cid" then do
    let s ← textOf "cid must be a text string" entry.2
    let cid ← (Cid.fromStr s).mapError fun e => .invalidValue "cid" e.message
    .ok { m with cid := some cid }
  else if entry.1 = ascii "val" then
    (textOf "val must be a text string" entry.2).map fun s => { m with val := some s }
  else if entry.1 = ascii "neg" then
    match entry.2 with
    | .bool b => .ok { m with neg := some b }
    | _ => .error (.invalid "neg must be a bool")
  else if entry.1 = ascii "cts" then
    (textOf "cts must be a text string" entry.2).map fun s => { m with cts := some s }
  else if entry.1 = ascii "exp" then
    (textOf "exp must be a text string" entry.2).map fun s => { m with exp := some s }
  else if entry.1 = ascii "sig" then
    match entry.2 with
    | .bytes b => .ok { m with sig := some b }
    | _ => .error (.invalid "sig must be bytes")
  else .ok m

/-- A member that has to be there. -/
def required {α : Type} (reason : String) : Option α → Except LabelError α
  | some a => .ok a
  | none => .error (.invalid reason)

omit [Base32Decoding] in
/-- The label that members make up. -/
def Members.label (m : Members) : Except LabelError Label := do
  let src ← required "missing field: src" m.src
  let src ← (Did.tryFrom src).mapError (.invalidValue "src DID")
  let uri ← required "missing field: uri" m.uri
  let val ← required "missing field: val" m.val
  let neg := m.neg.getD false
  let cts ← required "missing field: cts" m.cts
  let cts ← (Datetime.tryFrom cts).mapError (.invalidValue "cts datetime")
  let exp ← m.exp.mapM fun s => (Datetime.tryFrom s).mapError (.invalidValue "exp datetime")
  .ok ⟨m.ver, src, uri, m.cid, val, neg, cts, exp, m.sig⟩

/-- The label that bytes spell. -/
def decodeLabel (data : Bytes) : Except LabelError Label := do
  let value ← (decode data).mapError .decoding
  match value with
  | .map entries => do
      let members ← entries.foldlM Members.read Members.none
      members.label
  | _ => .error (.invalid "expected CBOR map")

/-! ### Signatures -/

/-- A signature: 64 bytes. -/
abbrev Signature := { b : Bytes // b.length = 64 }

/-- A key that signs. -/
structure SigningKey where
  sign : Bytes → Option Signature

/-- A key that verifies signatures. -/
structure VerifyingKey where
  verify : Bytes → Signature → Bool

/-- The label with a signature by a key. -/
def signLabel (label : Label) (key : SigningKey) : Except LabelError Label := do
  let bytes ← unsignedLabelBytes label
  match key.sign bytes with
  | some sig => .ok { label with sig := some sig.val }
  | none => .error .crypto

/-- Verify the signature of a label. -/
def verifyLabel (label : Label) (key : VerifyingKey) : Except LabelError Unit :=
  match label.sig with
  | none => .error (.invalid "no signature")
  | some sig =>
      if h : sig.length = 64 then do
        let bytes ← unsignedLabelBytes label
        if key.verify bytes ⟨sig, h⟩ then .ok () else .error .crypto
      else .error (.invalid "signature must be 64 bytes")

end Shrike.Labeling
